import FractalFormula.Decimal.Reader
import FractalFormula.Text.Cursor
import FractalFormula.Token.Basic

/-!
Number literals: digits with at most one point and at most one exponent.  A number is only known to
be complete when a letter follows it that cannot belong to it, so the end of the text is never the
end of a number.
-/

namespace FractalFormula
namespace Token

/-- A literal as far as it was read: its text, its value or what is wrong with it, and the place
after it. -/
structure Numeral where
  text : List Char
  value : Except Fault Float
  cursor : Cursor

namespace Numeral

/-- What has been read of a literal, newest letter first, whether its point has come, whether its
exponent has not begun, and whether the letter ahead is known to be the sign of the exponent. -/
structure Draft where
  text : List Char
  point : Bool
  base : Bool
  sign : Bool

namespace Draft

def add (d : Draft) (c : Char) : Draft :=
  { d with text := c :: d.text }

/-- An exponent may follow a digit, or a point that has a digit before it. -/
def takesExponent (d : Draft) : Bool :=
  d.base &&
    match d.text with
    | [] => false
    | last :: before => last.isDigit || (last == '.' && !before.isEmpty)

/-- Neither a lone point nor the letter that begins an exponent can be followed by anything but
digits. -/
def incomplete (d : Draft) : Bool :=
  match d.text with
  | ['.'] => true
  | 'e' :: _ => true
  | _ => false

def tooLong (d : Draft) : Bool :=
  lengthLimit < d.text.length

def fail (d : Draft) (f : Fault) (place : Cursor) : Numeral :=
  ⟨d.text.reverse, .error f, place⟩

def complete (d : Draft) (place : Cursor) : Numeral :=
  ⟨d.text.reverse, .ok (Decimal.leading d.text.reverse), place⟩

end Draft

/-- A sign belongs to a number only right after the letter that begins the exponent. -/
def signAhead : List Letter → Bool
  | [] => false
  | s :: _ => s.char == '+' || s.char == '-'

/-- What one more letter does to a draft: it goes in, it spoils the draft, or it belongs to the next
token. -/
inductive Turn where
  | grow (d : Draft)
  | spoil (d : Draft)
  | complete

def Draft.turn (d : Draft) (c : Char) (rest : List Letter) : Turn :=
  if d.sign then .grow { d.add c with sign := false }
  else if c.isDigit then .grow (d.add c)
  else if c = '.' then
    if d.point || !d.base then .spoil (d.add c) else .grow { d.add c with point := true }
  else if c = 'e' && d.takesExponent then .grow ⟨c :: d.text, false, false, signAhead rest⟩
  else if c.isAlpha || c = '_' || d.incomplete then .spoil (d.add c)
  else .complete

/-- Reads on from the letters ahead; `place` is the place just past the draft.  The letter that
begins an exponent and the sign after it count as one when the length is watched. -/
def readFrom (d : Draft) (place : Cursor) : List Letter → Numeral
  | [] => d.fail .endOfText place.finished
  | l :: rest =>
    match d.turn l.char rest with
    | .grow d' =>
      if d'.tooLong && !d'.sign then d'.fail .tooLong (place.past l rest)
      else readFrom d' (place.past l rest) rest
    | .spoil d' => d'.fail .malformedNumber (place.past l rest)
    | .complete => d.complete { place with ahead := l :: rest }

/-- The literal that begins with the letter `first`; `place` is the place just past it. -/
def read (first : Char) (place : Cursor) : Numeral :=
  readFrom ⟨[first], first == '.', true, false⟩ place place.ahead

end Numeral
end Token
end FractalFormula
