import FractalFormula.Number.Double
import FractalFormula.Number.Scalar

/-!
Fixed point in 32 bits.  The word `raw` stands for the real number `raw / 2 ^ shift`.  Sums wrap
around; products and quotients are formed exactly and overflow when they do not fit the word.
-/

namespace FractalFormula

/-- The place of the binary point. -/
structure Scale where
  shift : Nat
  low : 8 ≤ shift
  high : shift ≤ 29

namespace Scale

def leastShift : Nat := 8

def greatestShift : Nat := 29

def ofShift? (shift : Nat) : Option Scale :=
  if h : 8 ≤ shift ∧ shift ≤ 29 then some ⟨shift, h.1, h.2⟩ else none

/-- The raw form of one. -/
def unit (s : Scale) : Nat :=
  1 <<< s.shift

/-- The same as a double. -/
def factor (s : Scale) : Float :=
  Float.ofNat s.unit

/-- The greatest value, which conversion from a double already refuses. -/
def limit (s : Scale) : Float :=
  2147483647.0 / s.factor

end Scale

/-- A number with its binary point at `scale`. -/
structure Fixed (scale : Scale) where
  raw : Int32
  deriving DecidableEq, Repr

namespace Fixed

variable {s : Scale}

/-- The number with a given raw form, if that fits the word. -/
def narrow? (v : Int) : Option (Fixed s) :=
  if -2147483648 ≤ v ∧ v ≤ 2147483647 then some ⟨Int32.ofInt v⟩ else none

def ofFloat? (x : Float) : Option (Fixed s) :=
  if x.isNaN || s.limit ≤ x.abs then none
  else some ⟨Int32.ofInt (Double.integerPart (x * s.factor))⟩

def toFloat (a : Fixed s) : Float :=
  Float.ofInt a.raw.toInt / s.factor

def add (a b : Fixed s) : Fixed s := ⟨a.raw + b.raw⟩

def sub (a b : Fixed s) : Fixed s := ⟨a.raw - b.raw⟩

def neg (a : Fixed s) : Fixed s := ⟨-a.raw⟩

/-- The least word has no positive counterpart and stays as it is. -/
def abs (a : Fixed s) : Fixed s :=
  if a.raw < 0 then a.neg else a

/-- The exact product, rounded down. -/
def mul? (a b : Fixed s) : Option (Fixed s) :=
  narrow? (Int.fdiv (a.raw.toInt * b.raw.toInt) s.unit)

/-- The exact quotient, rounded toward zero. -/
def div? (a b : Fixed s) : Option (Fixed s) :=
  if b.raw = 0 then none else narrow? (Int.tdiv (a.raw.toInt * s.unit) b.raw.toInt)

/-- Clears the bits behind the binary point. -/
def floor (a : Fixed s) : Fixed s :=
  ⟨Int32.ofInt (Int.fdiv a.raw.toInt s.unit * s.unit)⟩

def ceil (a : Fixed s) : Fixed s :=
  a.neg.floor.neg

def trunc (a : Fixed s) : Fixed s :=
  if a.raw < 0 then a.ceil else a.floor

/-- Adds one half, with wraparound, and rounds down. -/
def round (a : Fixed s) : Fixed s :=
  floor ⟨a.raw + Int32.ofNat (s.unit / 2)⟩

def ofRandom (bits : UInt32) : Fixed s :=
  ⟨Int32.ofNat (bits.toNat >>> (32 - s.shift))⟩

instance : Scalar (Fixed s) where
  mode := .fixed
  zero := ⟨0⟩
  one := ⟨Int32.ofNat s.unit⟩
  ofFloat? := ofFloat?
  toFloat := toFloat
  add := add
  sub := sub
  mul? := mul?
  div? := div?
  neg := neg
  abs := abs
  isZero a := a.raw == 0
  isTiny a := a.raw == 0
  floor := floor
  ceil := ceil
  trunc := trunc
  round := round
  equal a b := a.raw == b.raw
  compare? a b := some (compare a.raw b.raw)
  seedBits a := a.raw.toInt64
  ofRandom := ofRandom

end Fixed
end FractalFormula
