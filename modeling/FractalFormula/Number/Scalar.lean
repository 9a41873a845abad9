import FractalFormula.Number.Double

/-!
What a number format has to provide, and complex arithmetic on top of it.  The machine is written
once against this interface.  An operation that may overflow answers `none` when the result does not
fit the format or the denominator is too small to divide by.  Doubles are the format that needs the
least.
-/

namespace FractalFormula

/-! ## Pairs -/

/-- A pair of numbers, the real part and the imaginary part. -/
structure Complex (N : Type) where
  x : N
  y : N
  deriving DecidableEq, Repr

namespace Complex

/-- The same function on both parts. -/
def map {M N : Type} (f : M → N) (z : Complex M) : Complex N :=
  ⟨f z.x, f z.y⟩

/-- A function that may fail on both parts, the real part first. -/
def mapM? {M N : Type} (f : M → Option N) (z : Complex M) : Option (Complex N) := do
  let x ← f z.x
  let y ← f z.y
  return ⟨x, y⟩

def flip {N : Type} (z : Complex N) : Complex N :=
  ⟨z.y, z.x⟩

/-- The square of the distance from zero, for doubles. -/
def normSquared (z : Complex Float) : Float :=
  z.x * z.x + z.y * z.y

/-- Equality as doubles compare: zeros of either sign are equal and what is not a number differs
from itself. -/
def same (a b : Complex Float) : Bool :=
  a.x == b.x && a.y == b.y

end Complex

/-! ## Formats -/

/-- The number formats a formula can be run in. -/
inductive Mode where
  | float | fixed | extended
  deriving DecidableEq, Repr

namespace Mode

def name : Mode → String
  | .float => "float"
  | .fixed => "fixed"
  | .extended => "mp"

/-- The mode a word names, in any case; the first two have other words too. -/
def find? (word : String) : Option Mode :=
  match word.toLower with
  | "float" | "f64" => some .float
  | "fixed" | "int" | "integer" => some .fixed
  | "mp" => some .extended
  | _ => none

/-- What to say about a word that names no mode. -/
def unknown (word : String) : String :=
  "unknown math mode '" ++ word.toLower ++ "' (expected float, fixed or mp)"

end Mode

/-- What is said of an operation without a result. -/
def overflowMessage : String :=
  "arithmetic overflow"

/-- The real arithmetic of a number format. -/
class Scalar (N : Type) where
  mode : Mode
  zero : N
  one : N
  ofFloat? : Float → Option N
  toFloat : N → Float
  add : N → N → N
  sub : N → N → N
  mul? : N → N → Option N
  div? : N → N → Option N
  neg : N → N
  abs : N → N
  isZero : N → Bool
  /-- Too small to divide by. -/
  isTiny : N → Bool
  floor : N → N
  ceil : N → N
  trunc : N → N
  round : N → N
  equal : N → N → Bool
  compare? : N → N → Option Ordering
  /-- The integer by which the value seeds the random sequence. -/
  seedBits : N → Int64
  /-- Maps 32 random bits to a value from zero up to, but not including, one. -/
  ofRandom : UInt32 → N

namespace Scalar

variable {N : Type} [Scalar N]

def ofBool (b : Bool) : N :=
  if b then one else zero

def less (a b : N) : Bool :=
  compare? a b == some .lt

def lessOrEqual (a b : N) : Bool :=
  compare? a b == some .lt || compare? a b == some .eq

end Scalar

/-! ## Complex arithmetic -/

namespace Complex

open Scalar

variable {N : Type} [Scalar N]

def real (x : N) : Complex N :=
  ⟨x, Scalar.zero⟩

def zero : Complex N :=
  real Scalar.zero

instance : Inhabited (Complex N) :=
  ⟨zero⟩

def ofFloat? (z : Complex Float) : Option (Complex N) :=
  z.mapM? Scalar.ofFloat?

def toFloat (z : Complex N) : Complex Float :=
  z.map Scalar.toFloat

def add (a b : Complex N) : Complex N :=
  ⟨Scalar.add a.x b.x, Scalar.add a.y b.y⟩

def sub (a b : Complex N) : Complex N :=
  ⟨Scalar.sub a.x b.x, Scalar.sub a.y b.y⟩

def neg (z : Complex N) : Complex N :=
  z.map Scalar.neg

def conj (z : Complex N) : Complex N :=
  ⟨z.x, Scalar.neg z.y⟩

def mul? (a b : Complex N) : Option (Complex N) := do
  let xx ← Scalar.mul? a.x b.x
  let yy ← Scalar.mul? a.y b.y
  let xy ← Scalar.mul? a.x b.y
  let yx ← Scalar.mul? a.y b.x
  return ⟨Scalar.sub xx yy, Scalar.add xy yx⟩

/-- The squared modulus. -/
def modulus? (z : Complex N) : Option N := do
  let xx ← Scalar.mul? z.x z.x
  let yy ← Scalar.mul? z.y z.y
  return Scalar.add xx yy

def div? (a b : Complex N) : Option (Complex N) := do
  let d ← modulus? b
  if Scalar.isTiny d then none
  else
    let xx ← Scalar.mul? a.x b.x
    let yy ← Scalar.mul? a.y b.y
    let yx ← Scalar.mul? a.y b.x
    let xy ← Scalar.mul? a.x b.y
    let x ← Scalar.div? (Scalar.add xx yy) d
    let y ← Scalar.div? (Scalar.sub yx xy) d
    return ⟨x, y⟩

end Complex

/-! ## Doubles -/

/-- Doubles as a number format.  Only a division by what is next to nothing overflows; everything
else goes on with infinities and with what is not a number. -/
instance : Scalar Float where
  mode := .float
  zero := 0
  one := 1
  ofFloat? x := some x
  toFloat x := x
  add a b := a + b
  sub a b := a - b
  mul? a b := some (a * b)
  div? a b := if b.abs ≤ Double.leastNormal then none else some (a / b)
  neg a := -a
  abs a := a.abs
  isZero a := a == 0
  isTiny a := a.abs ≤ Double.leastNormal
  floor a := a.floor
  ceil a := a.ceil
  trunc := Double.trunc
  round a := (a + 0.5).floor
  equal a b := a == b
  compare? a b :=
    if a < b then some .lt else if b < a then some .gt else if a == b then some .eq else none
  seedBits a := Double.toInt64 (a * 65536)
  ofRandom bits := Float.ofNat (bits.toNat / 65536) / 65536

end FractalFormula
