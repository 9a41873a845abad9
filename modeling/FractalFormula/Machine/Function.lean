import FractalFormula.Machine.State
import FractalFormula.Number.Elementary

/-!
What the functions of a formula do to the current value.
-/

namespace FractalFormula

namespace Func

open Elementary in
/-- The functions that are computed with doubles whatever the number format is. -/
def elementary? : Func → Option (Point → Option Point)
  | .sin => some fun z => some (Elementary.sin z)
  | .sinh => some fun z => some (Elementary.sinh z)
  | .cos => some fun z => some (Elementary.cos z)
  | .cosh => some fun z => some (Elementary.cosh z)
  | .cosxx => some fun z => some (Elementary.cosxx z)
  | .log => some fun z => some (Elementary.log z)
  | .exp => some fun z => some (Elementary.exp z)
  | .tan => some tan?
  | .tanh => some tanh?
  | .cotan => some cotan?
  | .cotanh => some cotanh?
  | .asin => some fun z => some (Elementary.asin z)
  | .asinh => some fun z => some (Elementary.asinh z)
  | .acos => some fun z => some (Elementary.acos z)
  | .acosh => some fun z => some (Elementary.acosh z)
  | .atan => some atan?
  | .atanh => some atanh?
  | .sqrt => some fun z => some (Elementary.sqrt z)
  | .cabs => some fun z => some (Elementary.cabs z)
  | _ => none

variable {N : Type} [Scalar N]

/-- The functions that are computed in the number format itself and cannot fail. -/
def direct? : Func → Option (Complex N → Complex N)
  | .abs => some (Complex.map Scalar.abs)
  | .conj => some Complex.conj
  | .real => some fun z => Complex.real z.x
  | .imag => some fun z => Complex.real z.y
  | .flip => some Complex.flip
  | .floor => some (Complex.map Scalar.floor)
  | .ceil => some (Complex.map Scalar.ceil)
  | .trunc => some (Complex.map Scalar.trunc)
  | .round => some (Complex.map Scalar.round)
  | _ => none

end Func

namespace State

variable {N : Type} [Scalar N]

/-- A function of doubles, to and from the number format. -/
def throughFloat (s : State N) (f : Complex Float → Option (Complex Float)) : State N :=
  s.unary fun z => (f z.toFloat).bind Complex.ofFloat?

/-- The square.  The squared modulus is left in `lastsqr` even where the square overflows after
it. -/
def square (s : State N) : State N :=
  let z := s.value
  match Scalar.mul? z.x z.x, Scalar.mul? z.y z.y with
  | some xx, some yy =>
    (s.setVar Builtin.lastSqr.slot (Complex.real (Scalar.add xx yy))).unary fun z =>
      (Scalar.mul? z.x z.y).map fun xy => ⟨Scalar.sub xx yy, Scalar.add xy xy⟩
  | _, _ => s.overflowed

/-- Calls a function.  A parameter that stands for nothing leaves the value alone. -/
def call (s : State N) (f : Func) : State N :=
  match f with
  | .sqr => s.square
  | .srand => s.seedRandom
  | _ =>
    match f.elementary? with
    | some g => s.throughFloat g
    | none =>
      match (f.direct? : Option (Complex N → Complex N)) with
      | some g => s.unary fun z => some (g z)
      | none => s

end State
end FractalFormula
