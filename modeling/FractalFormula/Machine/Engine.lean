import FractalFormula.Decimal.Layout
import FractalFormula.Machine.Run
import FractalFormula.Number.Extended
import FractalFormula.Number.Fixed
import FractalFormula.Number.Scalar

/-!
Machines whose number format is chosen when a formula is loaded, and the orbits they compute.
-/

namespace FractalFormula

/-- A complex value together with the format it is held in. -/
inductive Value where
  | float (z : Complex Float)
  | fixed (scale : Scale) (z : Complex (Fixed scale))
  | extended (z : Complex Extended)

namespace Value

def toFloat : Value → Complex Float
  | .float z => z
  | .fixed _ z => z.toFloat
  | .extended z => z.toFloat

/-- The text of a complex number in an orbit. -/
def text (v : Value) : String :=
  let z := v.toFloat
  "(" ++ Decimal.Layout.plain.format z.x ++ ", " ++ Decimal.Layout.plain.format z.y ++ ")"

end Value

/-- A machine in any of the number formats. -/
inductive Engine where
  | float (m : Machine Float)
  | fixed (scale : Scale) (m : Machine (Fixed scale))
  | extended (m : Machine Extended)

namespace Engine

def mode : Engine → Mode
  | .float _ => .float
  | .fixed _ _ => .fixed
  | .extended _ => .extended

def bindings : Engine → Bindings
  | .float m => m.routine.bindings
  | .fixed _ m => m.routine.bindings
  | .extended m => m.routine.bindings

def perPixel (e : Engine) (p : Pixel) : Outcome × Engine :=
  match e with
  | .float m => (m.perPixel p).map id .float
  | .fixed s m => (m.perPixel p).map id (.fixed s)
  | .extended m => (m.perPixel p).map id .extended

def iterate : Engine → Outcome × Engine
  | .float m => m.iterate.map id .float
  | .fixed s m => m.iterate.map id (.fixed s)
  | .extended m => m.iterate.map id .extended

def orbit (e : Engine) (p : Pixel) (limit : Nat) : Outcome × Nat × Engine :=
  match e with
  | .float m => (m.orbit p limit).map id (·.map id .float)
  | .fixed s m => (m.orbit p limit).map id (·.map id (.fixed s))
  | .extended m => (m.orbit p limit).map id (·.map id .extended)

/-- The value of the variable `z`. -/
def z : Engine → Value
  | .float m => .float m.z
  | .fixed s m => .fixed s m.z
  | .extended m => .extended m.z

/-- The value that the last run left. -/
def value : Engine → Value
  | .float m => .float m.state.value
  | .fixed s m => .fixed s m.state.value
  | .extended m => .extended m.state.value

def named? (e : Engine) (name : String) : Option Value :=
  match e with
  | .float m => (m.named? name).map .float
  | .fixed s m => (m.named? name).map (.fixed s)
  | .extended m => (m.named? name).map .extended

def overflow : Engine → Bool
  | .float m => m.state.overflow
  | .fixed _ m => m.state.overflow
  | .extended m => m.state.overflow

end Engine

/-! ## Orbits -/

/-- How the orbit of a pixel came to an end. -/
inductive Ending where
  | bailedOut | overflow
  /-- The last iteration changed nothing. -/
  | converged
  /-- There were no iterations left. -/
  | exhausted
  deriving DecidableEq, Repr

namespace Ending

def name : Ending → String
  | .bailedOut => "bailed-out"
  | .overflow => "overflow"
  | .converged => "converged"
  | .exhausted => "max-iterations"

end Ending

/-- An orbit, point by point. -/
structure Trace where
  /-- The value of `z` after each iteration, the last one first. -/
  points : List Value
  ending : Ending
  /-- The machine as the last iteration left it. -/
  engine : Engine

namespace Trace

/-- Follows an orbit that has come to `last` after the given points. -/
def follow (points : List Value) (last : Complex Float) (e : Engine) : Nat → Trace
  | 0 => ⟨points, .exhausted, e⟩
  | limit + 1 =>
    let (outcome, e) := e.iterate
    let points := e.z :: points
    match outcome with
    | .bailedOut => ⟨points, .bailedOut, e⟩
    | .overflow => ⟨points, .overflow, e⟩
    | .running =>
      let z := e.z.toFloat
      if z.same last then ⟨points, .converged, e⟩ else follow points z e limit

/-- The orbit of a pixel, for at most `limit` iterations. -/
def ofPixel (e : Engine) (p : Pixel) (limit : Nat) : Trace :=
  match e.perPixel p with
  | (.bailedOut, e) => ⟨[], .bailedOut, e⟩
  | (.overflow, e) => ⟨[], .overflow, e⟩
  | (.running, e) => follow [] e.z.toFloat e limit

end Trace

end FractalFormula
