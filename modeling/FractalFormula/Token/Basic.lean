import FractalFormula.Vocabulary.Func
import FractalFormula.Vocabulary.Word

namespace FractalFormula

/-- A range of byte offsets, the last one excluded. -/
structure Span where
  start : Nat
  stop : Nat
  deriving DecidableEq, Repr

namespace Span

/-- A reversed range holds nothing. -/
def size (s : Span) : Nat :=
  s.stop - s.start

def isEmpty (s : Span) : Bool :=
  s.size == 0

/-- The least range that covers both. -/
def merge (a b : Span) : Span :=
  ⟨min a.start b.start, max a.stop b.stop⟩

end Span

namespace Token

/-- The longest name or number. -/
def lengthLimit : Nat := 32

/-- Why the letters ahead form no token. -/
inductive Fault where
  | endOfText
  | illegalCharacter
  | illegalName
  | tooLong
  | functionAsVariable
  | missingCondition
  | illegalAfterJump
  | undefinedFunction
  | illegalOperator
  | malformedNumber
  deriving DecidableEq, Repr

namespace Fault

def message : Fault → String
  | .endOfText => "unexpected end of file"
  | .illegalCharacter => "illegal character"
  | .illegalName => "illegal variable name"
  | .tooLong => "token too long"
  | .functionAsVariable => "function used as a variable"
  | .missingCondition => "jump is missing its condition"
  | .illegalAfterJump => "illegal character after jump"
  | .undefinedFunction => "undefined function"
  | .illegalOperator => "illegal operator"
  | .malformedNumber => "ill-formed constant"

end Fault

/-- What a token is.  A pair is a literal `(x,y)`, which is one token; any other parenthesis is a
token of its own. -/
inductive Kind where
  | fault (f : Fault)
  | leftParen
  | rightParen
  | builtin (v : Builtin)
  | user
  | number (x : Float)
  | pair (x y : Float)
  | call (f : Func)
  | flow (w : FlowWord)
  | operator (o : Operator)
  | close
  deriving DecidableEq, Repr

end Token

/-- A token with its text in the form the letters have it, and the place it was read from. -/
structure Token where
  text : String
  kind : Token.Kind
  span : Span
  deriving DecidableEq, Repr

namespace Token

/-- A comma or a colon. -/
def endsStatement (t : Token) : Bool :=
  match t.kind with
  | .operator o => o.endsStatement
  | _ => false

def isFault (t : Token) : Bool :=
  match t.kind with
  | .fault _ => true
  | _ => false

/-- Nothing of a formula follows the closing brace or the end of the text. -/
def isLast (t : Token) : Bool :=
  match t.kind with
  | .close | .fault .endOfText => true
  | _ => false

/-- The length of the text in bytes. -/
def size (t : Token) : Nat :=
  Text.size t.text

end Token
end FractalFormula
