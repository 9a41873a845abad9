import FractalFormula.Grammar.Complaint
import FractalFormula.Token.Stream

/-!
The syntax check of a formula body.  It goes over the tokens once, notes at most one complaint for
each statement and gives up after the third.  A body without complaints yields a tally of what its
program will hold.
-/

namespace FractalFormula

/-! ## Open levels -/

/-- One flag for each level that is open, the innermost first; a level that is not listed has its
flag down.  Only the innermost 64 levels are remembered. -/
structure Nesting where
  flags : List Bool
  deriving DecidableEq, Repr

namespace Nesting

def depth : Nat := 64

def flat : Nesting := ⟨[]⟩

/-- Opens a level.  The outermost level is forgotten when there is no room for one more. -/
def enter (n : Nesting) : Nesting :=
  ⟨(false :: n.flags).take depth⟩

def leave (n : Nesting) : Nesting :=
  ⟨n.flags.tail⟩

/-- The flag of the innermost level. -/
def isUp (n : Nesting) : Bool :=
  n.flags.headD false

def set (n : Nesting) (b : Bool) : Nesting :=
  ⟨b :: n.flags.tail⟩

def toggle (n : Nesting) : Nesting :=
  n.set !n.isUp

def anyUp (n : Nesting) : Bool :=
  n.flags.any id

end Nesting

/-! ## The state of a check -/

/-- Bounds for the tables of a program, counted while checking. -/
structure Tally where
  ops : Nat
  loads : Nat
  stores : Nat
  jumps : Nat
  /-- The length of all tokens, the closing brace included. -/
  chars : Nat
  usesJump : Bool
  deriving DecidableEq, Repr

namespace Check

def complaintLimit : Nat := 3

def parenLimit : Nat := 64

def jumpLimit : Nat := 200

/-- How far the check has come. -/
structure State where
  tally : Tally
  findings : List Finding
  /-- Where the current statement starts. -/
  statement : Nat
  /-- An operand has to come next. -/
  wantsOperand : Bool
  /-- Nothing of the statement has been read. -/
  fresh : Bool
  /-- What has been read of the statement can stand to the left of an assignment. -/
  assignable : Bool
  colonSeen : Bool
  /-- For each open `if`, whether its `else` has come. -/
  elses : Nesting
  /-- For each open parenthesis and for the statement around them, whether a bar is open. -/
  bars : Nesting
  openIfs : Nat
  openParens : Nat
  /-- The token before was a `^`. -/
  afterCaret : Bool
  deriving DecidableEq, Repr

namespace State

def start (offset : Nat) : State :=
  { tally := ⟨0, 0, 0, 0, 0, false⟩, findings := [], statement := offset, wantsOperand := true,
    fresh := true, assignable := true, colonSeen := false, elses := .flat, bars := .flat,
    openIfs := 0, openParens := 0, afterCaret := false }

/-- Notes a complaint unless the statement already has one. -/
def note (s : State) (c : Complaint) (place : Span) : State :=
  match s.findings.getLast? with
  | some f =>
    if f.statement = s.statement then s
    else { s with findings := s.findings ++ [⟨c, s.statement, place⟩] }
  | none => { s with findings := [⟨c, s.statement, place⟩] }

def noteIf (s : State) (b : Bool) (c : Complaint) (place : Span) : State :=
  if b then s.note c place else s

def addOps (s : State) (n : Nat) : State :=
  { s with tally := { s.tally with ops := s.tally.ops + n } }

def addChars (s : State) (n : Nat) : State :=
  { s with tally := { s.tally with chars := s.tally.chars + n } }

def addJumps (s : State) (n : Nat) : State :=
  { s with tally := { s.tally with jumps := s.tally.jumps + n } }

/-! ## Parentheses and operands -/

def leftParen (s : State) (place : Span) : State :=
  let s := { s with assignable := false, fresh := false, openParens := s.openParens + 1 }
  let s :=
    if parenLimit < s.openParens then s.note .nestingTooDeep place
    else s.noteIf (!s.wantsOperand) .operatorExpected place
  { s with bars := s.bars.enter }

def rightParen (s : State) (place : Span) : State :=
  let s := { s with assignable := false, fresh := false }
  let s :=
    if s.openParens = 0 then s.note .unopenedParen place
    else { s with openParens := s.openParens - 1 }
  let s :=
    if s.bars.isUp then s.note .unmatchedModulus place else { s with bars := s.bars.leave }
  s.noteIf s.wantsOperand .argumentExpected place

/-- A variable or a literal; only a variable can be assigned to. -/
def operand (s : State) (isVariable : Bool) (place : Span) : State :=
  let s := { s.addOps 1 with assignable := s.assignable && isVariable, fresh := false }
  let s := { s with tally := { s.tally with loads := s.tally.loads + 1 } }
  let s := s.noteIf (!s.wantsOperand) .operatorExpected place
  { s with wantsOperand := false }

def call (s : State) (place : Span) : State :=
  let s := { s.addOps 1 with assignable := false, fresh := false }
  s.noteIf (!s.wantsOperand) .operatorExpected place

/-! ## Branches -/

/-- An `elseif` or `else` belongs to an open `if` whose `else` has not come. -/
def branch (s : State) (place : Span) : State :=
  if s.elses.isUp then s.note .endIfExpected place
  else s.noteIf (s.openIfs = 0) .misplacedElse place

/-- A branch has to be the first token of its statement, and it leaves the statement as fresh as it
was.  An `elseif` takes two entries of the jump table and three instructions more. -/
def flow (s : State) (w : FlowWord) (place : Span) : State :=
  let s := { (s.addOps 1).addJumps 1 with assignable := false }
  if !s.fresh then s.note .jumpNotFirst place
  else
    let s := { s with tally := { s.tally with usesJump := true } }
    match w with
    | .if => { s with elses := s.elses.enter, openIfs := s.openIfs + 1 }
    | .elseIf => ((s.addOps 3).addJumps 1).branch place
    | .else =>
      let s := s.branch place
      { s with elses := s.elses.set true }
    | .endIf =>
      let s := { s with elses := s.elses.leave }
      if s.openIfs = 0 then s.note .endIfWithoutIf place else { s with openIfs := s.openIfs - 1 }

/-! ## Operators and separators -/

/-- What every end of a statement has to find closed. -/
def closeGroups (s : State) (place : Span) : State :=
  let s := s.noteIf (s.openParens ≠ 0) .unclosedParen place
  s.noteIf s.bars.anyUp .unmatchedModulus place

/-- A colon also ends the init section, in which every `if` must have ended. -/
def colon (s : State) (place : Span) : State :=
  let s := { s.noteIf (s.openIfs ≠ 0) .ifOpenAtColon place with openIfs := 0 }
  { s.noteIf s.colonSeen .secondColon place with colonSeen := true }

def separator (s : State) (isColon : Bool) (place : Span) : State :=
  let s := { (s.addOps 2).closeGroups place with openParens := 0, bars := .flat }
  let s :=
    if !s.wantsOperand then s.addOps (if isColon then 2 else 1)
    else s.noteIf (!s.fresh) .argumentExpected place
  let s := if isColon then s.colon place else s
  { s with fresh := true, wantsOperand := true, assignable := true, statement := place.stop }

/-- An assignment turns the load before it into a store. -/
def assign (s : State) (place : Span) : State :=
  let tally := { s.tally with loads := s.tally.loads - 1, stores := s.tally.stores + 1 }
  let s := { s with tally := tally }
  { s.noteIf (!s.assignable) .illegalAssignment place with wantsOperand := true }

/-- A bar closes the bar that is open at its level, if there is one, and opens one otherwise.  Only
the closing bar becomes an instruction. -/
def modulus (s : State) (place : Span) : State :=
  let s := { s with assignable := false }
  let s :=
    if s.bars.isUp then (s.addOps 1).noteIf s.wantsOperand .argumentExpected place
    else s.noteIf (!s.wantsOperand) .operatorExpected place
  { s with bars := s.bars.toggle }

/-- An operator that needs an operand on either side. -/
def infixOperator (s : State) (place : Span) : State :=
  let s := { s.addOps 1 with assignable := false }
  { s.noteIf s.wantsOperand .argumentExpected place with wantsOperand := true }

def operator (s : State) (o : Operator) (place : Span) : State :=
  match o with
  | .comma => s.separator false place
  | .colon => s.separator true place
  | .assign => s.assign place
  | .modulus => s.modulus place
  | .minus => { s.addOps 1 with assignable := false, wantsOperand := true }
  | .caret => { s.infixOperator place with afterCaret := true }
  | _ => s.infixOperator place

/-! ## The end -/

def close (s : State) (place : Span) : State :=
  let s := (s.addOps 3).closeGroups place
  let s := s.noteIf (s.openIfs ≠ 0) .ifOpenAtEnd place
  let s :=
    if s.wantsOperand && !s.fresh then
      { s.note .argumentExpected place with statement := place.stop }
    else s
  s.noteIf (jumpLimit ≤ s.tally.jumps) .tooManyJumps place

/-- One token.  A minus right after a `^` is refused and otherwise ignored. -/
def read (s : State) (t : Token) : State :=
  let refused := s.afterCaret && t.kind == .operator .minus
  let s := { s with afterCaret := false }
  if refused then s.note .negativeExponent t.span
  else
    let s := s.addChars t.size
    match t.kind with
    | .fault f => { s with assignable := false }.note (.ofFault f) t.span
    | .leftParen => s.leftParen t.span
    | .rightParen => s.rightParen t.span
    | .builtin _ | .user => s.operand true t.span
    | .number _ | .pair _ _ => s.operand false t.span
    | .call _ => s.call t.span
    | .flow w => s.flow w t.span
    | .operator o => s.operator o t.span
    | .close => s.close t.span

def verdict (s : State) : Except (List Finding) Tally :=
  if s.findings.isEmpty then .ok s.tally else .error s.findings

end State

/-- Reads tokens until the closing brace or the last complaint.  The end of the text makes every
other complaint pointless. -/
def run (s : State) : List Token → Except (List Finding) Tally
  | [] => s.verdict
  | t :: rest =>
    if t.kind = .fault .endOfText then .error [⟨.unexpectedEnd, s.statement, t.span⟩]
    else
      let s := s.read t
      if t.kind = .close ∨ complaintLimit ≤ s.findings.length then s.verdict else run s rest

end Check

/-- Checks the formula body that begins at `offset`, just past its opening brace. -/
def check (text : String) (offset : Nat) : Except (List Finding) Tally :=
  Check.run (.start offset) (Token.stream (Cursor.seek text offset))

end FractalFormula
