import FractalFormula.Number.Double

/-!
The fewest decimal digits that read back as a given double.  Every real number between the two
midpoints around a double reads as that double, the midpoints themselves if its significand is even;
the digits are those of the coarsest decimal grid with a point in that range, and of the two points
next to the double the nearer one.
-/

namespace FractalFormula
namespace Decimal

/-- Which of two equally near decimals is taken. -/
inductive Tie where
  | even | up
  deriving DecidableEq, Repr

/-- The value `digits * 10 ^ power`. -/
structure Digits where
  digits : Nat
  power : Int
  deriving DecidableEq, Repr

/-- A positive double as a fraction with the two ends of the range that reads back as it, over one
denominator. -/
structure Range where
  low : Nat
  value : Nat
  high : Nat
  den : Nat
  closed : Bool
  deriving Repr

namespace Range

/-- The gap below a power of two is half the gap above it, unless the exponent is already least. -/
def ofFloat (x : Float) : Range :=
  let m := Double.significand x
  let e := Double.exponent x - 2
  let up := 1 <<< e.toNat
  let below := if Double.fraction x = 0 ∧ 1 < Double.biased x then 1 else 2
  ⟨(4 * m - below) * up, 4 * m * up, (4 * m + 2) * up, 1 <<< (-e).toNat, m % 2 = 0⟩

/-- The same fraction in units of `10 ^ power`. -/
def inUnits (r : Range) (power : Int) : Range :=
  let up := Nat.pow 10 (-power).toNat
  { r with
    low := r.low * up, value := r.value * up, high := r.high * up
    den := r.den * Nat.pow 10 power.toNat }

def contains (r : Range) (n : Nat) : Bool :=
  if r.closed then r.low ≤ n * r.den && n * r.den ≤ r.high
  else r.low < n * r.den && n * r.den < r.high

/-- The number `p` with `10 ^ (p - 1) ≤ value < 10 ^ p`. -/
def point (r : Range) : Int :=
  if r.den ≤ r.value then (Nat.repr (r.value / r.den)).length
  else 1 - ((Nat.repr ((r.den - 1) / r.value)).length : Int)

/-- Of the two whole numbers next to the value, the one that lies in the range, and of two that do
the nearer. -/
def nearest? (r : Range) (tie : Tie) : Option Nat :=
  let n := r.value / r.den
  match r.contains n, r.contains (n + 1) with
  | false, false => none
  | true, false => some n
  | false, true => some (n + 1)
  | true, true =>
    let below := r.value - n * r.den
    let above := (n + 1) * r.den - r.value
    if below < above then some n
    else if above < below then some (n + 1)
    else match tie with
      | .up => some (n + 1)
      | .even => if n % 2 = 0 then some n else some (n + 1)

/-- Tries ever finer grids, `count` more of them after those of fewer than `size` digits. -/
def search (r : Range) (tie : Tie) (size : Nat) : Nat → Digits
  | 0 => ⟨(r.inUnits (r.point - size)).value / (r.inUnits (r.point - size)).den, r.point - size⟩
  | count + 1 =>
    match (r.inUnits (r.point - size)).nearest? tie with
    | some n => if n = Nat.pow 10 size then ⟨1, r.point⟩ else ⟨n, r.point - size⟩
    | none => search r tie (size + 1) count

end Range

/-- The shortest digits of a positive finite double.  Seventeen always suffice. -/
def shortest (tie : Tie) (x : Float) : Digits :=
  (Range.ofFloat x).search tie 1 17

end Decimal
end FractalFormula
