import FractalFormula.Load.Failure

namespace FractalFormula

/-- The codes under which a user can look up what went wrong: one for each complaint, and one for
each other reason why a formula is not loaded.  All number formats of this library are always there,
so that `modeUnavailable` can be looked up but is never the reason. -/
inductive ErrorCode where
  | complaint (c : Complaint)
  | formulaNotFound | fileUnreadable | formulaTooLarge | noInstructions | jumpStructure
  | modeUnavailable | shiftOutOfRange | constantOutOfRange | functionUnbindable
  deriving DecidableEq, Repr

namespace ErrorCode

/-- The codes that are not complaints, numbered from one. -/
def loading : List ErrorCode :=
  [.formulaNotFound, .fileUnreadable, .formulaTooLarge, .noInstructions, .jumpStructure,
   .modeUnavailable, .shiftOutOfRange, .constantOutOfRange, .functionUnbindable]

def all : List ErrorCode :=
  Complaint.all.map .complaint ++ loading

def threeDigits (n : Nat) : String :=
  String.ofList [Nat.digitChar (n / 100), Nat.digitChar (n / 10 % 10), Nat.digitChar (n % 10)]

def text : ErrorCode → String
  | .complaint c => "FRM-P" ++ threeDigits c.number
  | code => "FRM-L" ++ threeDigits (loading.idxOf code + 1)

def title : ErrorCode → String
  | .complaint c => c.message
  | .formulaNotFound => "no formula with that name"
  | .fileUnreadable => "could not read the formula file"
  | .formulaTooLarge => "formula too large"
  | .noInstructions => "formula has no instructions"
  | .jumpStructure => "jump structure could not be resolved"
  | .modeUnavailable => "math mode not available"
  | .shiftOutOfRange => "bitshift out of range"
  | .constantOutOfRange => "constant does not fit the math mode"
  | .functionUnbindable => "function cannot be bound"

/-- The code that a word spells, in any case of its letters. -/
def find? (word : String) : Option ErrorCode :=
  all.find? (Text.sameName ·.text word)

/-- The code of a failed load.  Of several findings the first one counts. -/
def ofFailure : LoadFailure → Option ErrorCode
  | .header e => some (.complaint e.complaint)
  | .malformed findings _ _ => findings.head?.map (.complaint ·.complaint)
  | .notFound _ _ => some .formulaNotFound
  | .unreadable _ _ => some .fileUnreadable
  | .tooLarge _ => some .formulaTooLarge
  | .noInstructions => some .noInstructions
  | .jumpStructure _ => some .jumpStructure
  | .shiftOutOfRange _ => some .shiftOutOfRange
  | .constantOutOfRange _ _ => some .constantOutOfRange
  | .unbindable _ _ => some .functionUnbindable

end ErrorCode
end FractalFormula
