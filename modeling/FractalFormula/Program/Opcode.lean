import FractalFormula.Vocabulary.Func

namespace FractalFormula

/-- One instruction.  Loads, stores and jumps take their operands from tables in the order in which
they stand, so no instruction carries an operand.  A byte without a meaning is an instruction that
does nothing. -/
inductive Opcode where
  | load | store | clear | endInit
  | jump | jumpOnFalse | jumpOnTrue | label
  | add | sub | mul | div | pow | neg | mod
  | lt | le | gt | ge | eq | ne | or | and
  | call (f : Func)
  | unassigned (byte : Nat)
  deriving DecidableEq, Repr

namespace Opcode

/-- The instructions without functions, in the order of their bytes. -/
def primitives : List Opcode :=
  [.load, .store, .clear, .endInit, .jump, .jumpOnFalse, .jumpOnTrue, .label, .add, .sub, .mul,
   .div, .pow, .neg, .mod, .lt, .le, .gt, .ge, .eq, .ne, .or, .and]

/-- The bytes of the functions follow, in the order of the table of functions. -/
def firstCall : Nat := primitives.length

/-- How many bytes have a meaning. -/
def count : Nat := firstCall + Func.all.length

def byte : Opcode → Nat
  | .call f => firstCall + f.index
  | .unassigned n => n
  | op => primitives.idxOf op

def ofByte (n : Nat) : Opcode :=
  match primitives[n]? with
  | some op => op
  | none =>
    match Func.all[n - firstCall]? with
    | some f => .call f
    | none => .unassigned n

def name : Opcode → String
  | .load => "load"
  | .store => "store"
  | .clear => "clear"
  | .endInit => "end_init"
  | .jump => "jump"
  | .jumpOnFalse => "jump_on_false"
  | .jumpOnTrue => "jump_on_true"
  | .label => "jump_label"
  | .add => "add"
  | .sub => "sub"
  | .mul => "mul"
  | .div => "div"
  | .pow => "pow"
  | .neg => "neg"
  | .mod => "mod"
  | .lt => "lt"
  | .le => "le"
  | .gt => "gt"
  | .ge => "ge"
  | .eq => "eq"
  | .ne => "ne"
  | .or => "or"
  | .and => "and"
  | .call f => f.name
  | .unassigned _ => "?"

def func? : Opcode → Option Func
  | .call f => some f
  | _ => none

/-- The instructions that have an entry in the jump table. -/
def isJump : Opcode → Bool
  | .jump | .jumpOnFalse | .jumpOnTrue | .label => true
  | _ => false

theorem ofByte_byte_call (f : Func) : ofByte (byte (.call f)) = .call f := by
  cases f <;> decide

theorem ofByte_byte_of_mem {op : Opcode} (h : op ∈ primitives) : ofByte op.byte = op := by
  revert op
  decide

end Opcode
end FractalFormula
