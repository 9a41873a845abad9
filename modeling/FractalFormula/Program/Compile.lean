import FractalFormula.Program.Basic
import FractalFormula.Program.Environment
import FractalFormula.Token.Basic

/-!
Programs from tokens.  Every token that does something becomes a pending operator whose precedence
drops by 15 with each parenthesis around it and each assignment before it in the statement; the
order of the code is the order in which the pending operators are carried out.  Separators bind so
tightly that they follow all they separate.
-/

namespace FractalFormula

/-! ## Postfix order -/

/-- An operator with its precedence; the lower, the tighter it binds.  One without an operator emits
nothing and only makes others wait no longer. -/
structure Pending (α : Type) where
  op : Option α
  prec : Int
  deriving DecidableEq, Repr

namespace Pending

variable {α : Type}

/-- Goes over the operators with the waiting ones at hand, the last to come first.  A newcomer
releases those at the front that it does not bind tighter than, and waits itself. -/
def emit (waiting : List (Pending α)) : List (Pending α) → List α
  | [] => waiting.filterMap op
  | p :: rest =>
    (waiting.takeWhile (·.prec ≤ p.prec)).filterMap op
      ++ emit (p :: waiting.dropWhile (·.prec ≤ p.prec)) rest

/-- The operators in the order in which they are carried out. -/
def linearize (ops : List (Pending α)) : List α :=
  emit [] ops

end Pending

/-! ## Programs under construction -/

namespace Compile

/-- The drop in precedence from one level to the next. -/
def level : Int := 15

/-- The precedence of separators, below that of any expression. -/
def separatorPrec : Int := -30000

/-- No parenthesis level has this number. -/
def noBar : Int := 999

/-- A program under construction.  Lists that only grow at one end have their newest member first,
but for the slots, which are numbered. -/
structure Draft where
  pending : List (Pending Opcode)
  slots : List Slot
  loads : List Nat
  stores : List Nat
  jumps : List JumpEntry
  usage : Usage
  hasInit : Bool
  parens : Int
  assignments : Int
  /-- The level of the innermost open bar, and those of the bars around it. -/
  bar : Int
  bars : List Int
  wantsOperand : Bool
  deriving DecidableEq, Repr

namespace Draft

def builtinSlots (env : Environment) : List Slot :=
  Builtin.all.map (fun v => ⟨v.name, .predefined, env.value v⟩)

def start (env : Environment) : Draft :=
  { pending := [], slots := builtinSlots env, loads := [], stores := [], jumps := [], usage := {},
    hasInit := false, parens := 0, assignments := 0, bar := noBar, bars := [],
    wantsOperand := true }

/-- The precedence that an operator has where the draft stands. -/
def prec (d : Draft) (base : Int) : Int :=
  base - (d.parens + d.assignments) * level

def queue (d : Draft) (op : Option Opcode) (prec : Int) : Draft :=
  { d with pending := ⟨op, prec⟩ :: d.pending }

def push (d : Draft) (op : Opcode) (base : Int) : Draft :=
  d.queue (some op) (d.prec base)

/-- Ends the statement with the instruction `marker`. -/
def endStatement (d : Draft) (marker : Opcode) : Draft :=
  let d := (d.queue none level).queue (some marker) separatorPrec
  { d with parens := 0, assignments := 0, wantsOperand := true }

/-! ## Operands -/

/-- A load of a slot.  A pair is loaded one level deeper, as a group would be. -/
def load (d : Draft) (slot : Nat) (base : Int) : Draft :=
  { d with loads := slot :: d.loads }.push .load base

/-- The slot of a name, a new one if there is none.  Literals count among the names. -/
def variableSlot (d : Draft) (name : String) : Nat × Draft :=
  match d.slots.findIdx? (Text.sameName ·.name name) with
  | some i => (i, d)
  | none => (d.slots.length, { d with slots := d.slots ++ [⟨name, .user, ⟨0, 0⟩⟩] })

def useVariable (d : Draft) (name : String) : Draft :=
  let d := { d with wantsOperand := false }
  let d := match Builtin.find? name with
    | some v => { d with usage := d.usage.noteVariable v }
    | none => d
  let (slot, d) := d.variableSlot name
  d.load slot 1

/-- A new slot for a literal.  A minus sign right before the literal becomes part of it. -/
def literalSlot (d : Draft) (text : String) (value : Complex Float) : Nat × Draft :=
  match d.pending with
  | ⟨some .neg, _⟩ :: rest =>
    let slot : Slot := ⟨"-" ++ text, .constant, ⟨-value.x, -value.y⟩⟩
    (d.slots.length, { d with pending := rest, slots := d.slots ++ [slot] })
  | _ => (d.slots.length, { d with slots := d.slots ++ [⟨text, .constant, value⟩] })

/-- A number shares the slot of an earlier number with the same text, and keeps a minus sign before
it to itself then. -/
def number (d : Draft) (text : String) (x : Float) : Draft :=
  let d := { d with wantsOperand := false }
  match d.slots.findIdx? (·.name == text) with
  | some i => d.load i 1
  | none =>
    let (slot, d) := d.literalSlot text ⟨x, 0⟩
    d.load slot 1

/-- Pairs never share a slot. -/
def pair (d : Draft) (text : String) (x y : Float) : Draft :=
  let (slot, d) := { d with wantsOperand := false }.literalSlot text ⟨x, y⟩
  d.load slot (1 - level)

def call (d : Draft) (f : Func) : Draft :=
  { d with wantsOperand := true, usage := d.usage.noteCall f }.push (.call f) 1

/-! ## Operators -/

/-- A bar closes the open bar if it stands one level inside that bar's own level. -/
def modulus (d : Draft) : Draft :=
  if d.bar = d.parens - 1 then
    { d with parens := d.parens - 1, bar := d.bars.headD noBar, bars := d.bars.tail }
  else
    let d := { d with bars := d.bar :: d.bars }.push .mod 2
    { d with bar := d.parens, parens := d.parens + 1 }

/-- Turns what was pending last, the load of the variable to the left, into a store. -/
def assign (d : Draft) : Draft :=
  let prec := d.prec 5
  let pending := match d.pending with
    | [] => []
    | _ :: rest => ⟨some .store, prec⟩ :: rest
  let (loads, stores) := match d.loads with
    | [] => ([], d.stores)
    | slot :: rest => (rest, slot :: d.stores)
  { d with pending, loads, stores, wantsOperand := true, assignments := d.assignments + 1 }

def infixOperator (d : Draft) (op : Opcode) (base : Int) : Draft :=
  { d with wantsOperand := true }.push op base

/-- A comma without a statement before it separates nothing. -/
def operator (d : Draft) : Operator → Draft
  | .comma => if d.wantsOperand then d else d.endStatement .clear
  | .colon => { d.endStatement .endInit with hasInit := true }
  | .modulus => d.modulus
  | .assign => d.assign
  | .minus => if d.wantsOperand then d.push .neg 2 else d.infixOperator .sub 4
  | .or => d.infixOperator .or 7
  | .and => d.infixOperator .and 7
  | .ne => d.infixOperator .ne 6
  | .eq => d.infixOperator .eq 6
  | .lt => d.infixOperator .lt 6
  | .le => d.infixOperator .le 6
  | .gt => d.infixOperator .gt 6
  | .ge => d.infixOperator .ge 6
  | .plus => d.infixOperator .add 4
  | .star => d.infixOperator .mul 3
  | .slash => d.infixOperator .div 3
  | .caret => d.infixOperator .pow 2

/-! ## Branches -/

def addJump (d : Draft) (w : FlowWord) : Draft :=
  { d with jumps := .unresolved w :: d.jumps, usage := { d.usage with jumps := true } }

/-- An `elseif` is two jumps: one out of the branch before it and one over its own. -/
def flow (d : Draft) (w : FlowWord) : Draft :=
  let d := { d with wantsOperand := w.takesCondition }.addJump w
  match w with
  | .if => d.queue (some .jumpOnFalse) 1
  | .elseIf =>
    (((d.addJump w).queue (some .jump) 1).queue none level).queue (some .clear) separatorPrec
      |>.queue (some .jumpOnFalse) 1
  | .else => d.queue (some .jump) 1
  | .endIf => d.queue (some .label) 1

/-! ## All tokens -/

def token (d : Draft) (t : Token) : Draft :=
  match t.kind with
  | .leftParen => { d with parens := d.parens + 1 }
  | .rightParen => { d with parens := d.parens - 1 }
  | .operator o => d.operator o
  | .flow w => d.flow w
  | .call f => d.call f
  | .builtin _ | .user => d.useVariable t.text
  | .number x => d.number t.text x
  | .pair x y => d.pair t.text x y
  | .close | .fault _ => d

def finish (d : Draft) (text : String) : Program :=
  { text, code := Pending.linearize d.pending.reverse, slots := d.slots,
    loads := d.loads.reverse, stores := d.stores.reverse, jumps := d.jumps.reverse,
    hasInit := d.hasInit, usage := d.usage }

end Draft

/-- The tokens of a body that become code: none of the commas it begins with, and nothing from the
closing brace or the first fault on. -/
def significant (tokens : List Token) : List Token :=
  (tokens.dropWhile (·.kind == .operator .comma)).takeWhile
    (fun t => !(t.kind == .close || t.isFault))

end Compile

/-- The program of a checked formula body.  Its jumps lead nowhere yet. -/
def compile (tokens : List Token) (env : Environment) : Program :=
  let tokens := Compile.significant tokens
  (tokens.foldl Compile.Draft.token (.start env)).finish
    (String.join (tokens.map Token.text))

end FractalFormula
