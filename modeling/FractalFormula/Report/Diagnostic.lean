import FractalFormula.Report.ErrorCode
import FractalFormula.Text.Lines

namespace FractalFormula

/-- How bad a message is. -/
inductive Severity where
  | error | warning
  deriving DecidableEq, Repr

namespace Severity

def name : Severity → String
  | .error => "error"
  | .warning => "warning"

end Severity

/-- A remark about a piece of the text. -/
structure Label where
  span : Span
  message : String
  /-- The label that the line is shown for. -/
  isPrimary : Bool
  deriving DecidableEq, Repr

/-- A message for the user with everything that helps to find its cause. -/
structure Diagnostic where
  severity : Severity
  code : Option ErrorCode := none
  message : String
  labels : List Label := []
  notes : List String := []
  suggestion : Option String := none
  /-- The text that the labels point into. -/
  source : Option String := none
  deriving DecidableEq, Repr

namespace Diagnostic

def error (message : String) : Diagnostic :=
  { severity := .error, message }

def warning (message : String) : Diagnostic :=
  { severity := .warning, message }

/-- What to do about a name that is not there. -/
def listHint : String :=
  "run with --list to see the formulas in the file"

/-- A finding points at its token, and at what comes before it in the statement. -/
def ofFinding (source : String) (f : Finding) : Diagnostic :=
  let here : Label := ⟨f.span, "here", true⟩
  let before : List Label :=
    if f.statement < f.span.start then [⟨⟨f.statement, f.span.start⟩, "in this statement", false⟩]
    else []
  { error f.complaint.message with
    code := some (.complaint f.complaint), labels := here :: before, source := some source }

def ofHeaderError (e : HeaderError) : Diagnostic :=
  { error e.complaint.message with
    code := some (.complaint e.complaint),
    notes := (e.detail.map ("name starts '" ++ · ++ "'")).toList }

/-- The diagnostics of a failed load, one for each finding if there are any. -/
def ofFailure (e : LoadFailure) : List Diagnostic :=
  let plain := { error e.message with code := ErrorCode.ofFailure e }
  match e with
  | .header e => [ofHeaderError e]
  | .malformed findings text _ => findings.map (ofFinding text)
  | .notFound _ _ => [{ plain with suggestion := some listHint }]
  | _ => [plain]

end Diagnostic
end FractalFormula
