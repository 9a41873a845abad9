/-
Structured evaluation.

A `Scene` is what a formula can see of a machine: the variables by their names, the current value
and the random sequence.  Trees are evaluated on scenes by recursion on the tree, without code,
tables or cursors.  Evaluation stops at the first overflow (`andThen`).
-/
import FractalFormula.Machine.Run
import FractalFormula.Proofs.Syntax

namespace FractalFormula

structure Scene (N : Type) where
  vars : String → Complex N
  value : Complex N
  random : RandomState
  overflow : Bool

namespace Scene

variable {N : Type}

/-- Goes on unless there was an overflow. -/
def andThen (sc : Scene N) (f : Scene N → Scene N) : Scene N :=
  if sc.overflow then sc else f sc

theorem andThen_assoc (sc : Scene N) (f g : Scene N → Scene N) :
    (sc.andThen f).andThen g = sc.andThen fun sc => (f sc).andThen g := by
  unfold andThen
  split
  · rfl
  · rfl

/-- Names that differ in the case of their letters only are one variable. -/
def set (sc : Scene N) (name : String) (z : Complex N) : Scene N :=
  { sc with vars := fun other => if Text.sameName other name then z else sc.vars other }

variable [Scalar N]

/-- Replaces the value, or overflows and leaves it. -/
def unary (sc : Scene N) (f : Complex N → Option (Complex N)) : Scene N :=
  match f sc.value with
  | some z => { sc with value := z }
  | none => { sc with overflow := true }

/-- Combines a value with the current one.  On overflow the left one stays. -/
def combine (sc : Scene N) (f : Complex N → Complex N → Option (Complex N)) (left : Complex N) :
    Scene N :=
  match f left sc.value with
  | some z => { sc with value := z }
  | none => { sc with value := left, overflow := true }

/-! ## Functions -/

/-- Draws the next value of `rand`. -/
def refreshRandom (sc : Scene N) : Scene N :=
  let ((x, y), random) := sc.random.draw
  { sc with random }.set Builtin.rand.name ⟨Scalar.ofRandom x, Scalar.ofRandom y⟩

/-- Seeds the sequence from the value, which becomes the first value of `rand`. -/
def seedRandom (sc : Scene N) : Scene N :=
  let z := sc.value
  let random := sc.random.seed (Scalar.seedBits z.x) (Scalar.seedBits z.y)
  let sc := { sc with random }.refreshRandom
  { sc with value := sc.vars Builtin.rand.name }

/-- The square, with the squared modulus left in `lastsqr`. -/
def square (sc : Scene N) : Scene N :=
  let z := sc.value
  match Scalar.mul? z.x z.x, Scalar.mul? z.y z.y with
  | some xx, some yy =>
    (sc.set Builtin.lastSqr.name (Complex.real (Scalar.add xx yy))).unary fun z =>
      (Scalar.mul? z.x z.y).map fun xy => ⟨Scalar.sub xx yy, Scalar.add xy xy⟩
  | _, _ => { sc with overflow := true }

def call (sc : Scene N) (f : Func) : Scene N :=
  match f with
  | .sqr => sc.square
  | .srand => sc.seedRandom
  | _ =>
    match f.elementary? with
    | some g => sc.unary fun z => (g z.toFloat).bind Complex.ofFloat?
    | none =>
      match (f.direct? : Option (Complex N → Complex N)) with
      | some g => sc.unary fun z => some (g z)
      | none => sc

/-- Sets variables until a value does not fit the number format. -/
def preset (sc : Scene N) : List (Builtin × Complex Float) → Scene N
  | [] => sc
  | (v, z) :: rest =>
    match Complex.ofFloat? z with
    | some z => (sc.set v.name z).preset rest
    | none => { sc with overflow := true }

end Scene

/-! ## Expressions -/

section

variable {N : Type} [Scalar N]

def Infix.test (test : N → N → Bool) (a b : Complex N) : Option (Complex N) :=
  some (Complex.real (Scalar.ofBool (test a.x b.x)))

/-- What an operator makes of its operands. -/
def Infix.apply : Infix → Complex N → Complex N → Option (Complex N)
  | pow => fun a b => Complex.ofFloat? (Elementary.pow a.toFloat b.toFloat)
  | mul => Complex.mul?
  | div => Complex.div?
  | add => fun a b => some (Complex.add a b)
  | sub => fun a b => some (Complex.sub a b)
  | lt => test Scalar.less
  | le => test Scalar.lessOrEqual
  | gt => test fun a b => Scalar.less b a
  | ge => test fun a b => Scalar.lessOrEqual b a
  | eq => test Scalar.equal
  | ne => test fun a b => !Scalar.equal a b
  | and => test fun a b => !Scalar.isZero a && !Scalar.isZero b
  | or => test fun a b => !Scalar.isZero a || !Scalar.isZero b

/-- The value of a literal in the number format.  One that does not fit is never loaded. -/
def literalValue (z : Complex Float) : Complex N :=
  (Complex.ofFloat? z).getD Complex.zero

/-- The operands from left to right, each function on its argument, each operator on its operands. -/
def Expr.eval (bindings : Bindings) : Expr → Scene N → Scene N
  | .name text, sc => { sc with value := sc.vars text }
  | .literal _ z _, sc => { sc with value := literalValue z }
  | .group e, sc => e.eval bindings sc
  | .call f e, sc => (e.eval bindings sc).andThen (·.call (bindings.resolve f))
  | .binary o l r, sc =>
    (l.eval bindings sc).andThen fun sc' =>
      (r.eval bindings sc').andThen (·.combine o.apply sc'.value)
  | .minus e, sc => (e.eval bindings sc).andThen (·.unary fun z => some z.neg)
  | .modulus e, sc =>
    (e.eval bindings sc).andThen (·.unary fun z => z.modulus?.map Complex.real)

/-! ## Statements and blocks -/

/-- Every target takes the value of the expression. -/
def Statement.eval (bindings : Bindings) (s : Statement) (sc : Scene N) : Scene N :=
  (s.value.eval bindings sc).andThen fun sc => s.targets.foldl (fun sc v => sc.set v sc.value) sc

mutual

/-- The items of a block one after another.  A branch is taken if the real part of its condition is
not zero, and otherwise what follows it up to the `endif`. -/
def Block.eval (bindings : Bindings) : Block → Scene N → Scene N
  | .nil, sc => sc
  | .statement s next, sc => (s.eval bindings sc).andThen (next.eval bindings)
  | .branch c body rest next, sc =>
    (c.eval bindings sc).andThen fun sc =>
      (if Scalar.isZero sc.value.x then rest.eval bindings sc else body.eval bindings sc).andThen
        (next.eval bindings)

def Tail.eval (bindings : Bindings) : Tail → Scene N → Scene N
  | .endIf, sc => sc
  | .else body, sc => body.eval bindings sc
  | .elseIf c body rest, sc =>
    (c.eval bindings sc).andThen fun sc =>
      if Scalar.isZero sc.value.x then rest.eval bindings sc else body.eval bindings sc

end

end
end FractalFormula
