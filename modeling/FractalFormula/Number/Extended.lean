import FractalFormula.Number.Double
import FractalFormula.Number.Scalar

/-!
Extended precision: a sign, a mantissa of 64 bits whose top bit is set, and an exponent without
bounds.  Sums, products and quotients are formed on whole numbers that are wide enough and then cut
off behind the 64th bit.
-/

namespace FractalFormula

/-- The number `mant * 2 ^ (exp - 63)`, negated if `neg` holds. -/
structure Extended where
  neg : Bool
  exp : Int
  mant : Nat
  deriving DecidableEq, Repr

namespace Extended

/-- The least mantissa of a number other than zero. -/
def top : Nat := 0x8000000000000000

def zero : Extended := ⟨false, 0, 0⟩

def one : Extended := ⟨false, 0, top⟩

def half : Extended := ⟨false, -1, top⟩

/-- Zero has one form, and every other mantissa fills its 64 bits. -/
def Canonical (a : Extended) : Prop :=
  a = zero ∨ (top ≤ a.mant ∧ a.mant < 2 * top)

instance (a : Extended) : Decidable a.Canonical :=
  inferInstanceAs (Decidable (_ ∨ _))

/-- The form of `m * 2 ^ e`, cut off behind the 64th bit. -/
def normalize (neg : Bool) (e : Int) (m : Nat) : Extended :=
  if m = 0 then zero
  else
    let bit := m.log2
    if 63 < bit then ⟨neg, e + bit, m >>> (bit - 63)⟩
    else ⟨neg, e + bit, m <<< (63 - bit)⟩

/-- An infinity becomes the power of two just past the largest double, and what is not a number
becomes zero. -/
def ofFloat (x : Float) : Extended :=
  if x.isNaN then zero
  else if x.isInf then ⟨Double.isNegative x, 1024, top⟩
  else normalize (Double.isNegative x) (Double.exponent x) (Double.significand x)

/-- The double with the first 53 bits of the mantissa.  Numbers below the full significands are
scaled down in two steps, so that only the last one rounds. -/
def toFloat (a : Extended) : Float :=
  if a.mant = 0 then 0
  else
    let sign : Float := if a.neg then -1 else 1
    if 1023 < a.exp then sign * Double.infinity
    else if a.exp < -1076 then sign * 0
    else
      let m := Float.ofNat (a.mant >>> 11)
      let e := a.exp - 52
      if e < -1000 then sign * (m * Double.powerOfTwo (-1000) * Double.powerOfTwo (e + 1000))
      else sign * (m * Double.powerOfTwo e)

def isZero (a : Extended) : Bool := a.mant == 0

def isNegative (a : Extended) : Bool := a.neg && a.mant != 0

def negate (a : Extended) : Extended :=
  if a.mant = 0 then a else { a with neg := !a.neg }

def abs (a : Extended) : Extended := { a with neg := false }

/-- Whether the absolute value of `a` is at least that of `b`, for numbers other than zero. -/
def dominates (a b : Extended) : Bool :=
  b.exp < a.exp || (b.exp == a.exp && b.mant ≤ a.mant)

/-- The sum of a number and one whose absolute value is no greater.  The smaller mantissa is shifted
into place below 62 spare bits; what falls off there is lost. -/
def addSmaller (big small : Extended) : Extended :=
  let shift := (big.exp - small.exp).toNat
  if 127 ≤ shift then big
  else
    let m := big.mant <<< 62
    let n := (small.mant <<< 62) >>> shift
    normalize big.neg (big.exp - 125) (if big.neg = small.neg then m + n else m - n)

def add (a b : Extended) : Extended :=
  if a.isZero then b
  else if b.isZero then a
  else if dominates a b then addSmaller a b
  else addSmaller b a

def sub (a b : Extended) : Extended :=
  add a b.negate

def mul (a b : Extended) : Extended :=
  if a.isZero || b.isZero then zero
  else normalize (a.neg != b.neg) (a.exp + b.exp - 126) (a.mant * b.mant)

def div? (a b : Extended) : Option Extended :=
  if b.isZero then none
  else if a.isZero then some zero
  else some (normalize (a.neg != b.neg) (a.exp - b.exp - 64) ((a.mant <<< 64) / b.mant))

/-- The integer part toward zero, and whether anything was cut off. -/
def split (a : Extended) : Extended × Bool :=
  if a.isZero || 63 ≤ a.exp then (a, false)
  else if a.exp < 0 then (zero, true)
  else
    let unit := 1 <<< (63 - a.exp).toNat
    ({ a with mant := a.mant / unit * unit }, a.mant % unit != 0)

def trunc (a : Extended) : Extended :=
  a.split.1

def floor (a : Extended) : Extended :=
  if a.isNegative && a.split.2 then sub a.split.1 one else a.split.1

def ceil (a : Extended) : Extended :=
  if !a.isNegative && a.split.2 then add a.split.1 one else a.split.1

/-- Adds one half and rounds down. -/
def round (a : Extended) : Extended :=
  (add a half).floor

def sign (a : Extended) : Int :=
  if a.isZero then 0 else if a.neg then -1 else 1

/-- The order of the absolute values of two numbers other than zero. -/
def compareMagnitude (a b : Extended) : Ordering :=
  (compare a.exp b.exp).then (compare a.mant b.mant)

def order (a b : Extended) : Ordering :=
  if a.sign ≠ b.sign ∨ a.sign = 0 then compare a.sign b.sign
  else if a.sign < 0 then (compareMagnitude a b).swap
  else compareMagnitude a b

instance : Scalar Extended where
  mode := .extended
  zero := zero
  one := one
  ofFloat? x := some (ofFloat x)
  toFloat := toFloat
  add := add
  sub := sub
  mul? a b := some (mul a b)
  div? := div?
  neg := negate
  abs := abs
  isZero := isZero
  isTiny := isZero
  floor := floor
  ceil := ceil
  trunc := trunc
  round := round
  equal a b := a == b
  compare? a b := some (order a b)
  seedBits a := Double.toInt64 (a.toFloat * 65536)
  ofRandom bits := ofFloat (Float.ofNat (bits.toNat / 65536) / 65536)

end Extended
end FractalFormula
