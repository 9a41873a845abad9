import FractalFormula.Number.Scalar
import FractalFormula.Program.Basic
import FractalFormula.Program.Environment

namespace FractalFormula

/-- A program made ready to run in one number format: its tables, the functions its parameters stand
for, and the values its slots start with. -/
structure Routine (N : Type) where
  code : Array Opcode
  loads : Array Nat
  stores : Array Nat
  jumps : Array JumpEntry
  hasInit : Bool
  bindings : Bindings
  names : List String
  initial : Array (Complex N)
  inversion : Option Inversion

namespace Routine

variable {N : Type} [Scalar N]

/-- The starting values of slots, numbered from `index` on.  A value that does not fit the format is
an error, told by the name of its slot, only if the program loads it. -/
def initialFrom (loads : List Nat) (index : Nat) :
    List Slot → Except String (List (Complex N))
  | [] => .ok []
  | s :: rest =>
    match Complex.ofFloat? s.value with
    | some z => (initialFrom loads (index + 1) rest).map (z :: ·)
    | none =>
      if loads.contains index then .error s.name
      else (initialFrom loads (index + 1) rest).map (Complex.zero :: ·)

def ofProgram (p : Program) (bindings : Bindings) (inversion : Option Inversion) :
    Except String (Routine N) :=
  (initialFrom p.loads 0 p.slots).map fun initial =>
    { code := p.code.toArray, loads := p.loads.toArray, stores := p.stores.toArray,
      jumps := p.jumps.toArray, hasInit := p.hasInit, bindings,
      names := p.slots.map Slot.name, initial := initial.toArray, inversion }

/-- The most instructions that one run may execute.  Jumps that all lead forward execute each
instruction at most once; the rest is for tables made by hand that lead back. -/
def budget (r : Routine N) : Nat :=
  r.code.size + 0x1000000

end Routine
end FractalFormula
