import FractalFormula.CommandLine.Request
import FractalFormula.Machine.Engine
import FractalFormula.Program.Basic
import FractalFormula.Report.Export
import FractalFormula.Report.Manual
import FractalFormula.Report.Terminal

/-!
Carrying out a command line.  What comes of it depends on the arguments, the files they name and, if
no seed is given, a random number; it is a transcript of what is printed and the exit code.
-/

namespace FractalFormula

/-- What a command sees of its surroundings. -/
structure World where
  /-- The text of a file, or why it cannot be read. -/
  read : String → Except String String
  /-- A seed for formulas that are not given one. -/
  entropy : UInt64
  /-- Diagnostics may use colour. -/
  colour : Bool

namespace World

/-- Why a file that does not exist cannot be read. -/
def missingFile : String :=
  "No such file or directory (os error 2)"

/-- Why a file with bytes that are no text cannot be read. -/
def notText : String :=
  "stream did not contain valid UTF-8"

end World

/-- Everything a command prints, and its exit code. -/
structure Transcript where
  code : UInt32 := 0
  out : String := ""
  err : String := ""
  deriving DecidableEq, Repr

namespace Session

def versionLine : String :=
  "frm 0.1.0\n"

def usage : String :=
  "Compile and run a fractal formula entry\n\nUsage: frm [OPTIONS] [FILE] [NAME]\n"

def unlines (lines : List String) : String :=
  String.join (lines.map (· ++ "\n"))

/-- A diagnostic in the form that was asked for. -/
def diagnostic (w : World) (r : Request) (d : Diagnostic) : String :=
  if r.json then d.toJson.compact ++ "\n" else Report.Terminal.render w.colour d

def failed (w : World) (r : Request) (ds : List Diagnostic) : Transcript :=
  { code := 1, err := String.join (ds.map (diagnostic w r)) }

/-- A message on one line. -/
def oneLine (text : String) : String :=
  String.ofList (text.toList.flatMap fun c => if c = '\n' then [':', ' '] else [c])

/-- A message that came up while a formula was loaded.  Errors are told by the diagnostics that
follow, unless the plain report is asked for. -/
def message (w : World) (r : Request) : Severity × String → String
  | (.warning, text) => diagnostic w r (.warning (oneLine text))
  | (.error, text) => if r.classic then text else ""

/-- The plain report on a malformed formula has been printed as a message. -/
def failure (w : World) (r : Request) (e : LoadFailure) : Transcript :=
  match e with
  | .malformed _ _ _ => if r.classic then { code := 1 } else failed w r (Diagnostic.ofFailure e)
  | _ => failed w r (Diagnostic.ofFailure e)

/-! ## What is printed about a formula -/

def dump (r : Request) (f : Formula) : String :=
  if r.json then f.toJson.pretty ++ "\n" else f.program.listing

/-- The members stand in the order of their names. -/
def traceJson (f : Formula) (t : Trace) : Report.Json :=
  let point (v : Value) : Report.Json := v.toFloat.toPair
  .object
    [("iterations", .nat t.points.length), ("math", .string t.engine.mode.name),
     ("name", .string f.header.name), ("orbit", .array (t.points.reverse.map point)),
     ("outcome", .string t.ending.name), ("z", point t.engine.z)]

/-- The points with their numbers, and how the orbit ended. -/
def traceLines (t : Trace) : List String :=
  let line (v : Value) (n : Nat) : String := Text.padLeft 5 (toString (n + 1)) ++ "  " ++ v.text
  t.points.reverse.zipIdx.map (fun (v, n) => line v n) ++ [t.ending.name]

def run (r : Request) (f : Formula) : String :=
  let t := Trace.ofPixel f.engine r.pixel r.iterations
  if r.json then (traceJson f t).compact ++ "\n" else unlines (traceLines t)

/-! ## Commands -/

def explain (w : World) (r : Request) (word : String) : Transcript :=
  match ErrorCode.find? word with
  | some code => { out := code.explanation ++ "\n" }
  | none => failed w r [.error ("unknown error code '" ++ word ++ "'")]

def names (r : Request) (text : String) : Transcript :=
  let names := (Entry.list text).map Entry.name
  { out := if r.json then (Report.Json.strings names).compact ++ "\n" else unlines names }

def load (w : World) (r : Request) (path name text : String) : Transcript :=
  let s := { r.settings with seed := r.seed.getD w.entropy }
  let loading := Formula.loadNamed text name path s
  let messages := String.join (loading.messages.map (message w r))
  match loading.result with
  | .error e =>
    let t := failure w r e
    { t with err := messages ++ t.err }
  | .ok f => { out := if r.dump then dump r f else run r f, err := messages }

def fileNeeded : Diagnostic :=
  { Diagnostic.error "a formula file is required" with suggestion := some "frm <FILE> <NAME>" }

def nameNeeded : Diagnostic :=
  { Diagnostic.error "no formula name given" with suggestion := some Diagnostic.listHint }

/-- An explanation needs no file, and a list of names no name. -/
def carryOut (w : World) (r : Request) : Transcript :=
  match r.explain, r.file with
  | some word, _ => explain w r word
  | none, none => failed w r [fileNeeded]
  | none, some path =>
    let withText (f : String → Transcript) : Transcript :=
      match w.read path with
      | .ok text => f text
      | .error reason => failure w r (.unreadable path reason)
    if r.list then withText (names r)
    else
      match r.name with
      | none => failed w r [nameNeeded]
      | some name => withText (load w r path name)

/-- The transcript of a command. -/
def transcript (w : World) (args : List String) : Transcript :=
  match Request.ofArguments args with
  | .ok r => carryOut w r
  | .error .version => { out := versionLine }
  | .error .help => { out := usage }
  | .error .usage => { code := 2, err := usage }

end Session
end FractalFormula
