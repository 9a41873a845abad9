import FractalFormula.Grammar.Complaint
import FractalFormula.Library.Header
import FractalFormula.Number.Scalar
import FractalFormula.Program.Jumps

namespace FractalFormula

/-- Why a formula could not be loaded. -/
inductive LoadFailure where
  | notFound (name path : String)
  | unreadable (path reason : String)
  | header (e : HeaderError)
  /-- The findings of the syntax check, the text they point into, and the start of the entry. -/
  | malformed (findings : List Finding) (text : String) (start : Nat)
  | tooLarge (chars : Nat)
  | noInstructions
  | jumpStructure (e : JumpError)
  | shiftOutOfRange (shift : Nat)
  | constantOutOfRange (name : String) (mode : Mode)
  | unbindable (parameter : Nat) (f : Func)
  deriving DecidableEq, Repr

namespace LoadFailure

/-- The longest formula, in characters of its tokens. -/
def charLimit : Nat := 8190

def constantMessage (name : String) (mode : Mode) : String :=
  "constant '" ++ name ++ "' does not fit the " ++ mode.name ++ " backend"

def message : LoadFailure → String
  | .notFound name path => "no formula named '" ++ name ++ "' in " ++ path
  | .unreadable path reason => "could not read " ++ path ++ ": " ++ reason
  | .header e => e.complaint.message
  | .malformed findings _ _ => toString findings.length ++ " syntax error(s) in formula"
  | .tooLarge chars =>
    "formula is too large (" ++ toString chars ++ " characters, at most " ++ toString charLimit
      ++ ")"
  | .noInstructions => "formula has no instructions"
  | .jumpStructure e => "error in parsing jump statements: " ++ e.message
  | .shiftOutOfRange shift => "bitshift " ++ toString shift ++ " is out of range (8..=29)"
  | .constantOutOfRange name mode => constantMessage name mode
  | .unbindable parameter f =>
    "fn" ++ toString parameter ++ " cannot be bound to " ++ f.title

end LoadFailure
end FractalFormula
