import FractalFormula.Number.Double
import FractalFormula.Number.Scalar
import FractalFormula.Vocabulary.Word

namespace FractalFormula

/-- What a formula sees of the world when it is loaded: the parameters and the view. -/
structure Environment where
  /-- The values of `p1` to `p5`. -/
  params : List (Complex Float) := List.replicate 5 ⟨0, 0⟩
  maxIterations : Nat := 150
  screen : Nat × Nat := (640, 480)
  isMandelbrot : Bool := true
  center : Complex Float := ⟨0, 0⟩
  /-- The magnification and that of the x axis. -/
  magnification : Complex Float := ⟨1, 1⟩
  /-- The rotation and the skew, in degrees. -/
  rotation : Complex Float := ⟨0, 0⟩

namespace Environment

/-- A parameter by its number, which counts from one.  There is none beyond the fifth. -/
def param (e : Environment) (n : Nat) : Complex Float :=
  if n = 0 then ⟨0, 0⟩ else e.params.getD (n - 1) ⟨0, 0⟩

def setParam (e : Environment) (n : Nat) (z : Complex Float) : Environment :=
  if n = 0 then e else { e with params := e.params.set (n - 1) z }

/-- The value a variable starts with. -/
def value (e : Environment) : Builtin → Complex Float
  | .p1 => e.param 1
  | .p2 => e.param 2
  | .p3 => e.param 3
  | .p4 => e.param 4
  | .p5 => e.param 5
  | .pi => ⟨Double.pi, 0⟩
  | .e => ⟨Double.euler, 0⟩
  | .scrnMax => ⟨Float.ofNat e.screen.1, Float.ofNat e.screen.2⟩
  | .maxIt => ⟨Float.ofNat e.maxIterations, 0⟩
  | .isMand => ⟨if e.isMandelbrot then 1 else 0, 0⟩
  | .center => e.center
  | .magXMag => e.magnification
  | .rotSkew => e.rotation
  | .pixel | .z | .lastSqr | .rand | .whiteSq | .scrnPix => ⟨0, 0⟩

end Environment

/-- A point of the plane with its place on the screen. -/
structure Pixel where
  coord : Complex Float
  col : Nat := 0
  row : Nat := 0

namespace Pixel

/-- Alternating squares of the screen are white. -/
def isWhite (p : Pixel) : Bool :=
  (p.col + p.row) % 2 == 1

end Pixel

/-- The inversion of the plane in a circle. -/
structure Inversion where
  radius : Float
  center : Complex Float

namespace Inversion

/-- `center + radius * (z - center) / |z - center| ^ 2`.  What is as good as the center goes as far
away as doubles reach. -/
def apply (i : Inversion) (z : Complex Float) : Complex Float :=
  let d : Complex Float := ⟨z.x - i.center.x, z.y - i.center.y⟩
  let r := d.normSquared
  let factor := if Double.leastNormal < r then i.radius / r else Double.largest
  ⟨d.x * factor + i.center.x, d.y * factor + i.center.y⟩

end Inversion
end FractalFormula
