import FractalFormula.Report.Diagnostic

/-!
Diagnostics for people: a headline, the line of the primary label with carets under it, and what
else there is to say, one remark in a line.
-/

namespace FractalFormula
namespace Report

/-- How a piece of a diagnostic is set off on a terminal. -/
inductive Ink where
  | strong | red | yellow | cyan | faint
  deriving DecidableEq, Repr

namespace Ink

/-- The attributes that a terminal knows the ink by. -/
def attributes : Ink → String
  | .strong => "1"
  | .red => "1;31"
  | .yellow => "1;33"
  | .cyan => "36"
  | .faint => "2"

def ofSeverity : Severity → Ink
  | .error => .red
  | .warning => .yellow

/-- Text in an ink, or bare text if there is no colour. -/
def paint (i : Ink) (colour : Bool) (s : String) : String :=
  if colour then "\x1b[" ++ i.attributes ++ "m" ++ s ++ "\x1b[0m" else s

end Ink

namespace Terminal

def repeated (n : Nat) (c : Char) : String :=
  String.ofList (List.replicate n c)

def headline (colour : Bool) (d : Diagnostic) : String :=
  let code := match d.code with
    | some code => "[" ++ code.text ++ "]"
    | none => ""
  (Ink.ofSeverity d.severity).paint colour (d.severity.name ++ code) ++ ": "
    ++ Ink.strong.paint colour d.message ++ "\n"

/-- The line that a label starts on.  The carets end with the line at the latest, and there is at
least one. -/
def excerpt (colour : Bool) (source : String) (l : Label) : String :=
  let lines := Lines.ofText source
  let (line, column) := lines.locate l.span.start
  let content := lines.content source line
  let number := toString line
  let pad := repeated number.length ' '
  let bar := Ink.cyan.paint colour "|"
  let room := max 1 (Text.size content - (column - 1))
  let carets := min (max 1 l.span.size) room
  let remark := if l.message.isEmpty then "" else " " ++ Ink.red.paint colour l.message
  "  " ++ Ink.cyan.paint colour "-->" ++ " " ++ number ++ ":" ++ toString column ++ "\n"
    ++ pad ++ " " ++ bar ++ "\n"
    ++ Ink.cyan.paint colour number ++ " " ++ bar ++ " " ++ content ++ "\n"
    ++ pad ++ " " ++ bar ++ " " ++ repeated (column - 1) ' '
    ++ Ink.red.paint colour (repeated carets '^') ++ remark ++ "\n"
    ++ pad ++ " " ++ bar ++ "\n"

/-- A line of its own under the excerpt. -/
def remark (colour : Bool) (text : String) : String :=
  "  " ++ Ink.faint.paint colour "=" ++ " " ++ text ++ "\n"

/-- Labels beside the primary ones that say something. -/
def asides (d : Diagnostic) : List String :=
  (d.labels.filter (fun l => !l.isPrimary && !l.message.isEmpty)).map Label.message

def render (colour : Bool) (d : Diagnostic) : String :=
  let shown := match d.labels.find? Label.isPrimary, d.source with
    | some l, some source => excerpt colour source l
    | _, _ => ""
  let remarks :=
    asides d ++ d.notes.map ("note: " ++ ·) ++ d.suggestion.toList.map ("suggestion: " ++ ·)
  headline colour d ++ shown ++ String.join (remarks.map (remark colour))

end Terminal
end Report
end FractalFormula
