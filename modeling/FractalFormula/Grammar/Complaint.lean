import FractalFormula.Token.Basic

namespace FractalFormula

/-- Everything that can be wrong with the text of a formula, in the order of the numbers under which
users know it.  The last one stands for a number that nothing is known under. -/
inductive Complaint where
  | argumentExpected | operatorExpected | unopenedParen | unclosedParen | undefinedOperator
  | undefinedFunction | tableOverflow | symmetryUnclosed | noBraceOnFirstLine | unexpectedEnd
  | unknownSymmetry | formulaTooLarge | outOfMemory | unreadableFile | jumpNotFirst
  | textAfterJump | jumpNeedsCondition | endIfExpected | endIfWithoutIf | misplacedElse
  | ifOpenAtColon | ifOpenAtEnd | jumpsUnresolved | tooManyJumps | nameTooLong
  | illegalAssignment | illegalName | malformedNumber | illegalCharacter | nestingTooDeep
  | unmatchedModulus | functionAsVariable | negativeExponent | tokenTooLong | secondColon
  | unknownNumber
  deriving DecidableEq, Repr

namespace Complaint

def all : List Complaint :=
  [.argumentExpected, .operatorExpected, .unopenedParen, .unclosedParen, .undefinedOperator,
   .undefinedFunction, .tableOverflow, .symmetryUnclosed, .noBraceOnFirstLine, .unexpectedEnd,
   .unknownSymmetry, .formulaTooLarge, .outOfMemory, .unreadableFile, .jumpNotFirst,
   .textAfterJump, .jumpNeedsCondition, .endIfExpected, .endIfWithoutIf, .misplacedElse,
   .ifOpenAtColon, .ifOpenAtEnd, .jumpsUnresolved, .tooManyJumps, .nameTooLong,
   .illegalAssignment, .illegalName, .malformedNumber, .illegalCharacter, .nestingTooDeep,
   .unmatchedModulus, .functionAsVariable, .negativeExponent, .tokenTooLong, .secondColon,
   .unknownNumber]

def message : Complaint → String
  | .argumentExpected => "Should be an Argument"
  | .operatorExpected => "Should be an Operator"
  | .unopenedParen => "')' needs a matching '('"
  | .unclosedParen => "Need more ')'"
  | .undefinedOperator => "Undefined Operator"
  | .undefinedFunction => "Undefined Function"
  | .tableOverflow => "Table overflow"
  | .symmetryUnclosed => "Didn't find matching ')' in symmetry declaration"
  | .noBraceOnFirstLine => "No '\x7b' found on first line"
  | .unexpectedEnd => "Unexpected EOF!"
  | .unknownSymmetry => "Symmetry below is invalid, will use NOSYM"
  | .formulaTooLarge => "Formula is too large"
  | .outOfMemory => "Insufficient memory to run fractal type 'formula'"
  | .unreadableFile => "Could not open file where formula located"
  | .jumpNotFirst => "No characters may precede jump instruction"
  | .textAfterJump => "No characters may follow this jump instruction"
  | .jumpNeedsCondition => "Jump instruction missing required (boolean argument)"
  | .endIfExpected => "Next jump after \"else\" must be \"endif\""
  | .endIfWithoutIf => "\"endif\" has no matching \"if\""
  | .misplacedElse => "Misplaced \"else\" or \"elseif()\""
  | .ifOpenAtColon => "\"if ()\" in initialization has no matching \"endif\""
  | .ifOpenAtEnd => "\"if ()\" has no matching \"endif\""
  | .jumpsUnresolved => "Error in parsing jump statements"
  | .tooManyJumps => "Formula has too many jump commands"
  | .nameTooLong => "Formula name has too many characters"
  | .illegalAssignment => "Only variables are allowed to the left of assignment"
  | .illegalName => "Illegal variable name"
  | .malformedNumber => "Invalid constant expression"
  | .illegalCharacter => "This character not supported by parser"
  | .nestingTooDeep => "Nesting of parentheses exceeds maximum depth"
  | .unmatchedModulus => "Unmatched modulus operator \"|\" in this expression"
  | .functionAsVariable => "Can't use function name as variable"
  | .negativeExponent => "Negative exponent must be enclosed in parens"
  | .tokenTooLong => "Variable or constant exceeds 32 character limit"
  | .secondColon => "Only one \":\" permitted in a formula"
  | .unknownNumber => "Invalid ParseErrs code"

def number (c : Complaint) : Nat :=
  all.idxOf c

def ofNumber (n : Nat) : Complaint :=
  all.getD n .unknownNumber

def ofFault : Token.Fault → Complaint
  | .endOfText => .unexpectedEnd
  | .illegalCharacter => .illegalCharacter
  | .illegalName => .illegalName
  | .tooLong => .tokenTooLong
  | .functionAsVariable => .functionAsVariable
  | .missingCondition => .jumpNeedsCondition
  | .illegalAfterJump => .textAfterJump
  | .undefinedFunction => .undefinedFunction
  | .illegalOperator => .undefinedOperator
  | .malformedNumber => .malformedNumber

theorem ofNumber_number (c : Complaint) : ofNumber c.number = c := by
  cases c <;> decide

end Complaint

/-- A complaint about a body: the statement it concerns and the token it was noticed at. -/
structure Finding where
  complaint : Complaint
  statement : Nat
  span : Span
  deriving DecidableEq, Repr

namespace Finding

def text (f : Finding) : String :=
  f.complaint.message ++ " (at offset " ++ toString f.span.start ++ ")"

end Finding
end FractalFormula
