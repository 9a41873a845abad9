import FractalFormula.Machine.Routine
import FractalFormula.Random

/-!
The registers of a machine and what the simple instructions do to them.
-/

namespace FractalFormula

/-- A place in a program: the index of an instruction, and how many entries of the tables of loads,
stores and jumps belong to what comes before it. -/
structure Place where
  op : Nat
  loads : Nat
  stores : Nat
  jumps : Nat
  deriving DecidableEq, Repr

namespace Place

def start : Place := ⟨0, 0, 0, 0⟩

end Place

/-- Everything that changes while a formula runs. -/
structure State (N : Type) where
  vars : Array (Complex N)
  stack : Array (Complex N)
  /-- The index of the current value in the stack.  Index 0 keeps the result of the statement before
  across a clear. -/
  top : Nat
  here : Place
  /-- Where each iteration starts. -/
  entry : Place
  overflow : Bool
  random : RandomState

namespace State

variable {N : Type} [Scalar N]

/-- The stack grows when it is full. -/
def stackSize : Nat := 16

def initial (vars : Array (Complex N)) (random : RandomState) : State N :=
  { vars, stack := Array.replicate stackSize Complex.zero, top := 0, here := .start,
    entry := .start, overflow := false, random }

/-- The current value. -/
def value (s : State N) : Complex N :=
  s.stack.getD s.top Complex.zero

def setValue (s : State N) (z : Complex N) : State N :=
  { s with stack := s.stack.setIfInBounds s.top z }

/-- The value of a variable; a slot that does not exist holds zero. -/
def var (s : State N) (slot : Nat) : Complex N :=
  s.vars.getD slot Complex.zero

def setVar (s : State N) (slot : Nat) (z : Complex N) : State N :=
  { s with vars := s.vars.setIfInBounds slot z }

def overflowed (s : State N) : State N :=
  { s with overflow := true }

def push (s : State N) (z : Complex N) : State N :=
  let top := s.top + 1
  if top = s.stack.size then { s with top, stack := s.stack.push z }
  else { s with top, stack := s.stack.setIfInBounds top z }

/-- Replaces the current value, or overflows and leaves it. -/
def unary (s : State N) (f : Complex N → Option (Complex N)) : State N :=
  match f s.value with
  | some z => s.setValue z
  | none => s.overflowed

/-- Combines the two topmost values into one.  On overflow the left one stays. -/
def binary (s : State N) (f : Complex N → Complex N → Option (Complex N)) : State N :=
  let right := s.value
  let s := { s with top := s.top - 1 }
  match f s.value right with
  | some z => s.setValue z
  | none => s.overflowed

/-- Moves on by one instruction. -/
def advance (s : State N) : State N :=
  { s with here := { s.here with op := s.here.op + 1 } }

/-! ## Loads, stores and clears -/

/-- A load without an entry in its table gives zero. -/
def load (s : State N) (slot : Option Nat) : State N :=
  let z := match slot with
    | some i => s.var i
    | none => Complex.zero
  { s with here := { s.here with loads := s.here.loads + 1 } }.push z

/-- A store without an entry in its table does nothing. -/
def store (s : State N) (slot : Option Nat) : State N :=
  let s := { s with here := { s.here with stores := s.here.stores + 1 } }
  match slot with
  | some i => s.setVar i s.value
  | none => s

/-- Keeps the current value at the bottom of the stack and drops all others. -/
def clear (s : State N) : State N :=
  { s with stack := s.stack.setIfInBounds 0 s.value, top := 0 }

def endInit (s : State N) : State N :=
  { s with entry := { s.entry with jumps := s.here.jumps } }

/-- Iterations are to start from here.  The end of the init section has set the number of jumps. -/
def saveEntry (s : State N) : State N :=
  { s with entry := { s.here with jumps := s.entry.jumps } }

/-! ## Jumps -/

/-- Goes to where an entry leads.  Without an entry there is nowhere to go. -/
def jump (s : State N) : Option JumpEntry → State N
  | some e => { s with here := ⟨e.target.op, e.target.loads, e.target.stores, e.dest⟩ }
  | none => s

def skipJump (s : State N) : State N :=
  { s with here := { s.here with jumps := s.here.jumps + 1 } }

/-! ## The random variable -/

/-- Draws the next value of `rand`. -/
def refreshRandom (s : State N) : State N :=
  let ((x, y), random) := s.random.draw
  { s with random }.setVar Builtin.rand.slot ⟨Scalar.ofRandom x, Scalar.ofRandom y⟩

/-- Seeds the sequence from the current value, which becomes the first value of `rand`. -/
def seedRandom (s : State N) : State N :=
  let z := s.value
  let random := s.random.seed (Scalar.seedBits z.x) (Scalar.seedBits z.y)
  let s := { s with random }.refreshRandom
  s.setValue (s.var Builtin.rand.slot)

end State
end FractalFormula
