import FractalFormula.Library.Entry
import FractalFormula.Load.Failure
import FractalFormula.Machine.Engine
import FractalFormula.Program.Compile
import FractalFormula.Report.Diagnostic
import FractalFormula.Report.Excerpt

/-!
Loading a formula: its header, the syntax check, the program, and a machine for it.  Messages for
the user come up on the way and are kept in order, whatever the outcome.
-/

namespace FractalFormula

/-- How a formula is to be loaded. -/
structure Settings where
  mode : Mode := .float
  /-- The place of the binary point in fixed mode. -/
  shift : Nat := 16
  bindings : Bindings := {}
  environment : Environment := {}
  inversion : Option Inversion := none
  /-- Whether to warn of a symmetry that does not exist. -/
  reportSymmetry : Bool := true
  /-- What `rand` is drawn from, and its seed. -/
  generator : Generator := .standard
  seed : UInt64 := 0

/-- A formula ready to run. -/
structure Formula where
  header : Header
  program : Program
  engine : Engine

/-- The messages of a load and what came of it. -/
structure Loading (α : Type) where
  messages : List (Severity × String)
  result : Except LoadFailure α

namespace Engine

/-- A machine for a program whose constants all fit the number format. -/
def bind {N : Type} [Scalar N] (p : Program) (s : Settings) (random : RandomState) :
    Except LoadFailure (Machine N) :=
  match Routine.ofProgram p s.bindings s.inversion with
  | .error name => .error (.constantOutOfRange name (Scalar.mode N))
  | .ok r => .ok (.start r random)

/-- A machine in the number format of the settings. -/
def ofProgram (p : Program) (s : Settings) (random : RandomState) : Except LoadFailure Engine :=
  match s.mode with
  | .float => (bind p s random).map .float
  | .extended => (bind p s random).map .extended
  | .fixed =>
    match Scale.ofShift? s.shift with
    | none => .error (.shiftOutOfRange s.shift)
    | some scale => (bind p s random).map (.fixed scale)

end Engine

namespace Formula

def failed {α : Type} (messages : List (Severity × String)) (e : LoadFailure) : Loading α :=
  ⟨messages, .error e⟩

/-- The warning about a symmetry that does not exist. -/
def symmetryWarning (h : Header) (s : Settings) : List (Severity × String) :=
  match h.unknownSymmetry with
  | some name =>
    if s.reportSymmetry then
      [(.warning, Complaint.unknownSymmetry.message ++ "\n" ++ name)]
    else []
  | none => []

/-- The random sequence of a program.  One that reads `rand` starts with a seed. -/
def random (p : Program) (s : Settings) : RandomState :=
  let r := RandomState.initial s.generator
  if p.usage.rand then r.randomize s.seed else r

/-- A checked body turned into a formula. -/
def build (text : String) (h : Header) (s : Settings) (messages : List (Severity × String)) :
    Loading Formula :=
  let p := compile (Token.body text h.bodyStart) s.environment
  if p.code.isEmpty then failed messages .noInstructions
  else
    match p.resolve with
    | .error e =>
      failed (messages ++ [(.error, Complaint.jumpsUnresolved.message)]) (.jumpStructure e)
    | .ok p => ⟨messages, (Engine.ofProgram p s (random p s)).map (Formula.mk h p)⟩

/-- Loads the entry whose header starts at `start`. -/
def load (text : String) (start : Nat) (s : Settings) : Loading Formula :=
  match s.bindings.unbindable? with
  | some (parameter, f) => failed [] (.unbindable parameter f)
  | none =>
    match Header.read text start with
    | .error e => failed [] (.header e)
    | .ok h =>
      let messages := symmetryWarning h s
      match check text h.bodyStart with
      | .error findings =>
        failed (messages ++ [(.error, Report.classic text start findings)])
          (.malformed findings text start)
      | .ok tally =>
        if LoadFailure.charLimit < tally.chars then
          failed (messages ++ [(.error, Complaint.formulaTooLarge.message)]) (.tooLarge tally.chars)
        else build text h s messages

/-- Loads the first entry of a name from the library that `path` names. -/
def loadNamed (text name path : String) (s : Settings) : Loading Formula :=
  match Entry.find? text name with
  | none => failed [] (.notFound name path)
  | some e => load text e.start s

end Formula

/-- The formula in use, if the last one that was asked for could be loaded.  Without one every pixel
bails out at once. -/
structure Active where
  formula : Option Formula := none

namespace Active

/-- Takes over the result of a load.  A failure leaves no formula in use. -/
def install (result : Except LoadFailure Formula) : Active :=
  ⟨result.toOption⟩

def isBad (a : Active) : Bool :=
  a.formula.isNone

def step (a : Active) (f : Engine → Outcome × Engine) : Outcome × Active :=
  match a.formula with
  | none => (.bailedOut, a)
  | some formula =>
    let (outcome, engine) := f formula.engine
    (outcome, ⟨some { formula with engine }⟩)

def perPixel (a : Active) (p : Pixel) : Outcome × Active :=
  a.step (·.perPixel p)

def iterate (a : Active) : Outcome × Active :=
  a.step Engine.iterate

end Active
end FractalFormula
