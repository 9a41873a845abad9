import FractalFormula.Decimal.Shortest

/-!
How doubles are written.  Both layouts of this library give the fewest digits that read back; they
differ in when an exponent appears and in what stands for a whole number.
-/

namespace FractalFormula
namespace Decimal

/-- The choices in writing a double.  The point of a number is the place of its decimal point
counted from the first digit, so that 0.5 has point 0 and 5 has point 1. -/
structure Layout where
  tie : Tie
  /-- The least and the greatest point written without an exponent; always so if there is none. -/
  positional : Option (Int × Int)
  /-- What follows a whole number written without an exponent. -/
  wholeSuffix : String
  nan : String
  infinity : String
  negativeInfinity : String

namespace Layout

/-- Numbers in messages and orbits: never an exponent, and no point after a whole number. -/
def plain : Layout :=
  { tie := .up, positional := none, wholeSuffix := "", nan := "NaN", infinity := "inf",
    negativeInfinity := "-inf" }

/-- Numbers in JSON: a whole number keeps a point and a zero, an exponent appears from `1e16` on and
below `1e-5`, and what JSON cannot say is `null`. -/
def json : Layout :=
  { tie := .even, positional := some (-4, 16), wholeSuffix := ".0", nan := "null",
    infinity := "null", negativeInfinity := "null" }

def zeros (n : Nat) : String :=
  String.ofList (List.replicate n '0')

def take (n : Nat) (s : String) : String :=
  String.ofList (s.toList.take n)

def drop (n : Nat) (s : String) : String :=
  String.ofList (s.toList.drop n)

/-- The digits with the point at place `point`. -/
def place (l : Layout) (digits : String) (point : Int) : String :=
  if point ≤ 0 then "0." ++ zeros (-point).toNat ++ digits
  else if (digits.length : Int) ≤ point then
    digits ++ zeros (point.toNat - digits.length) ++ l.wholeSuffix
  else take point.toNat digits ++ "." ++ drop point.toNat digits

/-- One digit before the point, and the power of ten that makes up for it. -/
def scientific (digits : String) (point : Int) : String :=
  let power := point - 1
  let mantissa := if digits.length = 1 then digits else take 1 digits ++ "." ++ drop 1 digits
  mantissa ++ "e" ++ (if 0 ≤ power then "+" else "") ++ toString power

def magnitude (l : Layout) (x : Float) : String :=
  if x == 0 then "0" ++ l.wholeSuffix
  else
    let d := shortest l.tie x
    let digits := Nat.repr d.digits
    let point := d.power + digits.length
    match l.positional with
    | none => l.place digits point
    | some (least, greatest) =>
      if least ≤ point ∧ point ≤ greatest then l.place digits point else scientific digits point

def format (l : Layout) (x : Float) : String :=
  if x.isNaN then l.nan
  else if x == Double.infinity then l.infinity
  else if x == -Double.infinity then l.negativeInfinity
  else if Double.isNegative x then "-" ++ l.magnitude (-x) else l.magnitude x

end Layout
end Decimal
end FractalFormula
