import FractalFormula.Number.Double
import FractalFormula.Number.Scalar

/-!
The elementary functions of a complex variable, over doubles.  The other number formats go through
these.  A function answers `none` where it would divide by a denominator next to zero.
-/

namespace FractalFormula
namespace Elementary

abbrev Point := Complex Float

def origin : Point := ⟨0, 0⟩

def isOrigin (z : Point) : Bool :=
  z.x == 0 && z.y == 0

/-- Refuses a denominator that is too small to divide by or is not a number. -/
def denominator? (d : Float) : Option Float :=
  if d.abs ≤ Double.leastNormal || d.isNaN then none else some d

def mul (a b : Point) : Point :=
  ⟨a.x * b.x - a.y * b.y, a.x * b.y + a.y * b.x⟩

def div? (a b : Point) : Option Point := do
  let d ← denominator? (b.x * b.x + b.y * b.y)
  return ⟨(a.x * b.x + a.y * b.y) / d, (a.y * b.x - a.x * b.y) / d⟩

def sqr (z : Point) : Point :=
  ⟨z.x * z.x - z.y * z.y, 2 * z.x * z.y⟩

def sin (z : Point) : Point :=
  ⟨z.x.sin * z.y.cosh, z.x.cos * z.y.sinh⟩

def cos (z : Point) : Point :=
  ⟨z.x.cos * z.y.cosh, -z.x.sin * z.y.sinh⟩

/-- The cosine with the sign of its imaginary part turned. -/
def cosxx (z : Point) : Point :=
  ⟨(cos z).x, -(cos z).y⟩

def sinh (z : Point) : Point :=
  ⟨z.x.sinh * z.y.cos, z.x.cosh * z.y.sin⟩

def cosh (z : Point) : Point :=
  ⟨z.x.cosh * z.y.cos, z.x.sinh * z.y.sin⟩

def tan? (z : Point) : Option Point := do
  let x := 2 * z.x
  let y := 2 * z.y
  let d ← denominator? (x.cos + y.cosh)
  return ⟨x.sin / d, y.sinh / d⟩

def tanh? (z : Point) : Option Point := do
  let x := 2 * z.x
  let y := 2 * z.y
  let d ← denominator? (x.cosh + y.cos)
  return ⟨x.sinh / d, y.sin / d⟩

def cotan? (z : Point) : Option Point := do
  let x := 2 * z.x
  let y := 2 * z.y
  let d ← denominator? (y.cosh - x.cos)
  return ⟨x.sin / d, -y.sinh / d⟩

def cotanh? (z : Point) : Option Point := do
  let x := 2 * z.x
  let y := 2 * z.y
  let d ← denominator? (x.cosh - y.cos)
  return ⟨x.sinh / d, -y.sin / d⟩

/-- The principal logarithm; that of zero is zero. -/
def log (z : Point) : Point :=
  if isOrigin z then origin
  else ⟨(z.x * z.x + z.y * z.y).sqrt.log, z.y.atan2 z.x⟩

def exp (z : Point) : Point :=
  let m := z.x.exp
  ⟨m * z.y.cos, m * z.y.sin⟩

/-- The exponential of the logarithm times the exponent; every power of zero is zero. -/
def pow (a b : Point) : Point :=
  if isOrigin a then origin else exp (mul (log a) b)

def sqrt (z : Point) : Point :=
  if isOrigin z then origin
  else
    let m := (z.x * z.x + z.y * z.y).sqrt.sqrt
    let angle := z.y.atan2 z.x / 2
    ⟨m * angle.cos, m * angle.sin⟩

/-- `-i * log (i * z + sqrt (1 - z * z))`. -/
def asin (z : Point) : Point :=
  let zz := mul z z
  let t := sqrt ⟨1 - zz.x, -zz.y⟩
  let l := log ⟨t.x - z.y, t.y + z.x⟩
  ⟨l.y, -l.x⟩

/-- `log (z + sqrt (z * z - 1))`. -/
def acosh (z : Point) : Point :=
  let zz := mul z z
  let t := sqrt ⟨zz.x - 1, zz.y⟩
  log ⟨t.x + z.x, t.y + z.y⟩

/-- `-i * log (z + sqrt (z * z - 1))`. -/
def acos (z : Point) : Point :=
  let l := acosh z
  ⟨l.y, -l.x⟩

/-- `log (z + sqrt (z * z + 1))`. -/
def asinh (z : Point) : Point :=
  let zz := mul z z
  let t := sqrt ⟨zz.x + 1, zz.y⟩
  log ⟨t.x + z.x, t.y + z.y⟩

/-- `log ((1 + z) / (1 - z)) / 2`.  The poles 1 and -1 are returned as they are. -/
def atanh? (z : Point) : Option Point :=
  if z.x == 0 then some ⟨0, z.y.atan⟩
  else if z.y == 0 && z.x.abs == 1 then some z
  else if z.y == 0 && z.x.abs < 1 then some ⟨((1 + z.x) / (1 - z.x)).log / 2, 0⟩
  else do
    let q ← div? ⟨1 + z.x, z.y⟩ ⟨1 - z.x, -z.y⟩
    return ⟨0.5 * (log q).x, 0.5 * (log q).y⟩

/-- `i / 2 * log ((1 - i * z) / (1 + i * z))`. -/
def atan? (z : Point) : Option Point :=
  if z.x == 0 && z.y == 0 then some origin
  else if z.y == 0 then some ⟨z.x.atan, 0⟩
  else if z.x == 0 then do
    let t ← atanh? ⟨z.y, 0⟩
    return ⟨-t.y, t.x⟩
  else do
    let q ← div? ⟨1 - -z.y, -z.x⟩ ⟨1 + -z.y, z.x⟩
    return ⟨-(log q).y * 0.5, 0.5 * (log q).x⟩

def cabs (z : Point) : Point :=
  ⟨(z.x * z.x + z.y * z.y).sqrt, 0⟩

end Elementary
end FractalFormula
