import FractalFormula.Grammar.Complaint
import FractalFormula.Text.Bytes

/-!
The header of an entry: a name, an optional symmetry in parentheses, and the opening brace, all on
one line.  Headers are read byte by byte.
-/

namespace FractalFormula

/-- The symmetries that a header can declare. -/
inductive Symmetry where
  | none | xAxisNoParam | xAxis | yAxisNoParam | yAxis | xyAxisNoParam | xyAxis
  | originNoParam | origin | piNoParam | pi | xAxisNoImag | xAxisNoReal | noPlot
  deriving DecidableEq, Repr

namespace Symmetry

def all : List Symmetry :=
  [.none, .xAxisNoParam, .xAxis, .yAxisNoParam, .yAxis, .xyAxisNoParam, .xyAxis,
   .originNoParam, .origin, .piNoParam, .pi, .xAxisNoImag, .xAxisNoReal, .noPlot]

def name : Symmetry → String
  | .none => "NOSYM"
  | .xAxisNoParam => "XAXIS_NOPARM"
  | .xAxis => "XAXIS"
  | .yAxisNoParam => "YAXIS_NOPARM"
  | .yAxis => "YAXIS"
  | .xyAxisNoParam => "XYAXIS_NOPARM"
  | .xyAxis => "XYAXIS"
  | .originNoParam => "ORIGIN_NOPARM"
  | .origin => "ORIGIN"
  | .piNoParam => "PI_SYM_NOPARM"
  | .pi => "PI_SYM"
  | .xAxisNoImag => "XAXIS_NOIMAG"
  | .xAxisNoReal => "XAXIS_NOREAL"
  | .noPlot => "NOPLOT"

def find? (name : String) : Option Symmetry :=
  all.find? (Text.sameName ·.name name)

end Symmetry

/-- A header that is in order. -/
structure Header where
  name : String
  symmetry : Symmetry
  /-- The symmetry as it is written, if there is none of that name. -/
  unknownSymmetry : Option String
  /-- The offset just past the opening brace. -/
  bodyStart : Nat
  deriving DecidableEq, Repr

/-- What is wrong with a header; of a name that is too long its first characters. -/
structure HeaderError where
  complaint : Complaint
  detail : Option String
  deriving DecidableEq, Repr

namespace Header

def nameLimit : Nat := 18

/-- How much of a name that is too long is quoted. -/
def quotedNameLength : Nat := 25

/-- The most bytes that are kept of a symmetry before another character is added. -/
def symmetryLimit : Nat := 19

abbrev Result (α : Type) := Except HeaderError α

def fail {α : Type} (c : Complaint) : Result α :=
  .error ⟨c, none⟩

/-- What has been read of a header: the bytes after it, as characters, and their offset. -/
structure Rest where
  chars : List Char
  offset : Nat

def isLineEnd (c : Char) : Bool :=
  c == '\r' || c == '\n'

def isGap (c : Char) : Bool :=
  c == ' ' || c == '\t'

/-- Counts the bytes of the name up to the first blank and goes on to what opens next, a parenthesis
or the body. -/
def nameFrom (count : Nat) (ended : Bool) (offset : Nat) :
    List Char → Result (Nat × Char × Rest)
  | [] => fail .unexpectedEnd
  | c :: rest =>
    if isLineEnd c then fail .noBraceOnFirstLine
    else if isGap c then nameFrom count true (offset + 1) rest
    else if c = '(' ∨ c = '{' then .ok (count, c, ⟨rest, offset + 1⟩)
    else nameFrom (if ended then count else count + 1) ended (offset + 1) rest

/-- Reads a symmetry up to its closing parenthesis; `read` holds its characters, newest first. -/
def symmetryFrom (read : List Char) (offset : Nat) : List Char → Result (String × Rest)
  | [] => fail .unexpectedEnd
  | c :: rest =>
    if isLineEnd c then fail .noBraceOnFirstLine
    else if c = '{' then fail .symmetryUnclosed
    else if isGap c then symmetryFrom read (offset + 1) rest
    else if c = ')' then .ok (String.ofList read.reverse, ⟨rest, offset + 1⟩)
    else
      let size := read.foldr (fun c n => c.utf8Size + n) 0
      symmetryFrom (if size < symmetryLimit then c.toUpper :: read else read) (offset + 1) rest

/-- The offset just past the next opening brace on the line. -/
def braceFrom (offset : Nat) : List Char → Result Nat
  | [] => fail .unexpectedEnd
  | c :: rest =>
    if isLineEnd c then fail .noBraceOnFirstLine
    else if c = '{' then .ok (offset + 1)
    else braceFrom (offset + 1) rest

/-- The header that starts at byte `start`.  The name is as many characters as the bytes counted for
it. -/
def read (text : String) (start : Nat) : Result Header := do
  let (count, opener, rest) ←
    nameFrom 0 false start (((Text.bytes text).drop start).map Text.latin1)
  let chars := Text.dropBytes start text.toList
  if nameLimit < count then
    .error ⟨.nameTooLong, some (String.ofList (chars.take (min count quotedNameLength)))⟩
  let name := String.ofList (chars.take count)
  if opener = '{' then return ⟨name, .none, none, rest.offset⟩
  let (symmetry, rest) ← symmetryFrom [] rest.offset rest.chars
  let bodyStart ← braceFrom rest.offset rest.chars
  match Symmetry.find? symmetry with
  | some s => return ⟨name, s, none, bodyStart⟩
  | none => return ⟨name, .none, some symmetry, bodyStart⟩

end Header
end FractalFormula
