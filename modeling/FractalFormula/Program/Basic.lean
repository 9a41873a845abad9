import FractalFormula.Number.Scalar
import FractalFormula.Program.Opcode
import FractalFormula.Vocabulary.Word

namespace FractalFormula

/-- Where a slot comes from. -/
inductive SlotKind where
  | predefined | user | constant
  deriving DecidableEq, Repr

namespace SlotKind

def name : SlotKind → String
  | .predefined => "predefined"
  | .user => "user"
  | .constant => "constant"

end SlotKind

/-- A variable or a literal with the value it starts with. -/
structure Slot where
  name : String
  kind : SlotKind
  value : Complex Float
  deriving DecidableEq, Repr

/-- A jump instruction that another one leads to, with the numbers of loads and stores before it.
Execution goes on just after it. -/
structure Landing where
  op : Nat
  loads : Nat
  stores : Nat
  deriving DecidableEq, Repr

namespace Landing

def zero : Landing := ⟨0, 0, 0⟩

end Landing

/-- An entry of the jump table: the word it comes from, where it leads, and the entry that is next
once it has been taken. -/
structure JumpEntry where
  word : FlowWord
  target : Landing
  dest : Nat
  deriving DecidableEq, Repr

namespace JumpEntry

/-- An entry that does not lead anywhere yet. -/
def unresolved (word : FlowWord) : JumpEntry :=
  ⟨word, .zero, 0⟩

end JumpEntry

/-- What a program makes use of. -/
structure Usage where
  p1 : Bool := false
  p2 : Bool := false
  p3 : Bool := false
  p4 : Bool := false
  p5 : Bool := false
  isMand : Bool := false
  /-- The highest number of a function parameter that is called, or zero. -/
  maxFn : Nat := 0
  jumps : Bool := false
  rand : Bool := false
  deriving DecidableEq, Repr

namespace Usage

def noteVariable (u : Usage) : Builtin → Usage
  | .p1 => { u with p1 := true }
  | .p2 => { u with p2 := true }
  | .p3 => { u with p3 := true }
  | .p4 => { u with p4 := true }
  | .p5 => { u with p5 := true }
  | .isMand => { u with isMand := true }
  | .rand => { u with rand := true }
  | _ => u

def noteCall (u : Usage) (f : Func) : Usage :=
  match f.parameter? with
  | some n => { u with maxFn := max u.maxFn (n + 1) }
  | none => u

end Usage

/-- A compiled formula, for any number format. -/
structure Program where
  /-- The formula as its tokens spell it. -/
  text : String
  code : List Opcode
  slots : List Slot
  /-- The slot that each load reads, in the order of the code. -/
  loads : List Nat
  /-- The slot that each store writes, in the order of the code. -/
  stores : List Nat
  jumps : List JumpEntry
  /-- The formula has an init section. -/
  hasInit : Bool
  usage : Usage
  deriving DecidableEq, Repr

namespace Program

/-- The functions that the code calls, in the order of the table. -/
def calls (p : Program) : List Func :=
  Func.all.filter (fun f => p.code.contains (.call f))

/-! ## Listing -/

/-- The name of a slot of the program that entry `i` of a table refers to. -/
def operandName (p : Program) (table : List Nat) (i : Nat) : Option String := do
  let slot ← p.slots[(← table[i]?)]?
  return slot.name

/-- What an instruction works on, given how many loads, stores and jumps stand before it.  A label
has an entry in the jump table and leads nowhere. -/
def operand? (p : Program) (op : Opcode) (loads stores jumps : Nat) : Option String :=
  match op with
  | .jump | .jumpOnFalse | .jumpOnTrue =>
    p.jumps[jumps]?.map (fun j => "-> " ++ toString (j.target.op + 1))
  | .load => p.operandName p.loads loads
  | .store => p.operandName p.stores stores
  | _ => none

/-- The line of instruction `index`. -/
def line (p : Program) (index loads stores jumps : Nat) (op : Opcode) : String :=
  let head := Text.padLeft 4 (toString index) ++ "  "
  match p.operand? op loads stores jumps with
  | some operand => head ++ Text.padRight 14 op.name ++ operand
  | none => head ++ op.name

def listingFrom (p : Program) (index loads stores jumps : Nat) : List Opcode → List String
  | [] => []
  | op :: rest =>
    p.line index loads stores jumps op
      :: p.listingFrom (index + 1) (loads + if op = .load then 1 else 0)
        (stores + if op = .store then 1 else 0) (jumps + if op.isJump then 1 else 0) rest

/-- The code of a program, one instruction in a line. -/
def listing (p : Program) : String :=
  String.join ((p.listingFrom 0 0 0 0 p.code).map (· ++ "\n"))

end Program

end FractalFormula
