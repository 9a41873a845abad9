/-!
Doubles taken apart.  A finite double is a sign and a whole number times a power of two; everything
that has to be exact about doubles (their digits, their integer parts, their extended forms) starts
from that.
-/

namespace FractalFormula
namespace Double

/-- The significand of a double starts with this bit, unless the exponent is least. -/
def leadingBit : Nat := 0x10000000000000

/-- The 52 bits of a double below the sign and the exponent. -/
def fraction (x : Float) : Nat :=
  x.toBits.toNat % leadingBit

/-- The 11 bits of the exponent. -/
def biased (x : Float) : Nat :=
  x.toBits.toNat / leadingBit % 0x800

def isNegative (x : Float) : Bool :=
  x.toBits.toNat >>> 63 == 1

/-- The whole number of a finite double: `significand * 2 ^ exponent` is its absolute value. -/
def significand (x : Float) : Nat :=
  if biased x = 0 then fraction x else fraction x + leadingBit

def exponent (x : Float) : Int :=
  if biased x = 0 then -1074 else (biased x : Int) - 1075

def infinity : Float :=
  Float.ofBits 0x7ff0000000000000

def largest : Float :=
  Float.ofBits 0x7fefffffffffffff

/-- The least positive double with a full significand. -/
def leastNormal : Float :=
  Float.ofBits 0x0010000000000000

def pi : Float :=
  Float.ofBits 0x400921fb54442d18

/-- The base of the natural logarithm. -/
def euler : Float :=
  Float.ofBits 0x4005bf0a8b145769

/-- `2 ^ e` for an exponent at which doubles have full significands. -/
def powerOfTwo (e : Int) : Float :=
  Float.ofBits (UInt64.ofNat ((e + 1023).toNat * leadingBit))

/-- The integer part of a finite double. -/
def integerPart (x : Float) : Int :=
  let m := significand x
  let size := if 0 ≤ exponent x then m <<< (exponent x).toNat else m >>> (-exponent x).toNat
  if isNegative x then -(size : Int) else size

/-- The integer part, kept within 64 bits; zero for what is not a number. -/
def toInt64 (x : Float) : Int64 :=
  if x.isNaN then 0
  else if 9223372036854775808.0 ≤ x then Int64.maxValue
  else if x ≤ -9223372036854775808.0 then Int64.minValue
  else Int64.ofInt (integerPart x)

/-- The integer part as a double. -/
def trunc (x : Float) : Float :=
  if x < 0 then x.ceil else x.floor

end Double
end FractalFormula
