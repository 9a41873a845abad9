import FractalFormula.Number.Double

/-!
Decimal numbers as they are written.  A written number stands for the double nearest to its value,
with ties to even, however many digits it has.
-/

namespace FractalFormula
namespace Decimal

/-- A written number without its sign: the digits before and after the point, and the power of ten
that the exponent part gives. -/
structure Literal where
  whole : List Char
  fraction : List Char
  power : Int
  deriving DecidableEq, Repr

def digitValue (c : Char) : Nat :=
  c.toNat - '0'.toNat

def natOfDigits (cs : List Char) : Nat :=
  cs.foldl (fun n c => 10 * n + digitValue c) 0

namespace Literal

/-- The number the digits form when the point is left out. -/
def digits (l : Literal) : Nat :=
  natOfDigits (l.whole ++ l.fraction)

/-- The power of ten that `digits` is multiplied with. -/
def scale (l : Literal) : Int :=
  l.power - l.fraction.length

/-- How many digits remain without leading zeros. -/
def length (l : Literal) : Nat :=
  ((l.whole ++ l.fraction).dropWhile (· == '0')).length

/-- The double nearest to the number.  The value lies below `10 ^ (scale + length)` and not below a
tenth of that, so a number far outside the range of doubles is settled without forming its power of
ten. -/
def toFloat (l : Literal) : Float :=
  if l.digits = 0 then 0
  else if 310 < l.scale + l.length then Double.infinity
  else if l.scale + l.length < -330 then 0
  else if 0 ≤ l.scale then Float.ofScientific l.digits false l.scale.toNat
  else Float.ofScientific l.digits true (-l.scale).toNat

end Literal

/-- The exponent part: an optional sign and at least one digit. -/
def exponent? : List Char → Option Int
  | '-' :: cs => if cs.isEmpty || !cs.all Char.isDigit then none else some (-(natOfDigits cs : Int))
  | '+' :: cs => if cs.isEmpty || !cs.all Char.isDigit then none else some (natOfDigits cs)
  | cs => if cs.isEmpty || !cs.all Char.isDigit then none else some (natOfDigits cs)

/-- What may follow the digits: nothing, or `e` and an exponent. -/
def power? : List Char → Option Int
  | [] => some 0
  | c :: cs => if c.toLower = 'e' then exponent? cs else none

/-- A number without a sign.  At least one digit stands before or after the point. -/
def literal? (cs : List Char) : Option Literal :=
  let whole := cs.takeWhile Char.isDigit
  match cs.dropWhile Char.isDigit with
  | '.' :: rest =>
    let fraction := rest.takeWhile Char.isDigit
    if whole.isEmpty && fraction.isEmpty then none
    else (power? (rest.dropWhile Char.isDigit)).map (Literal.mk whole fraction)
  | rest => if whole.isEmpty then none else (power? rest).map (Literal.mk whole [])

/-- A number without a sign, or one of the words for infinity and for what is not a number. -/
def magnitude? (cs : List Char) : Option Float :=
  let word := String.ofList (cs.map Char.toLower)
  if word = "inf" ∨ word = "infinity" then some Double.infinity
  else if word = "nan" then some (0.0 / 0.0)
  else (literal? cs).map Literal.toFloat

/-- The double that a whole text stands for, if it is a number and nothing else. -/
def read? : List Char → Option Float
  | '-' :: cs => (magnitude? cs).map (- ·)
  | '+' :: cs => magnitude? cs
  | cs => magnitude? cs

/-- The value of the longest beginning of a text that is a number, given the text backwards.  A
beginning that ends in a point is taken with a zero after it. -/
def readReversed : List Char → Float
  | [] => 0
  | c :: rest =>
    let text := (if c = '.' then '0' :: c :: rest else c :: rest).reverse
    match read? text with
    | some x => x
    | none => readReversed rest

/-- The value of the longest beginning that is a number, or zero.  A point in front needs no digit
before it. -/
def leading (cs : List Char) : Float :=
  readReversed (if cs.head? = some '.' then '0' :: cs else cs).reverse

end Decimal
end FractalFormula
