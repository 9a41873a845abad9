/-!
Texts as bytes.  Every offset in this library counts UTF-8 bytes, and every rule about letters is an
ASCII rule: the formula language knows no others.
-/

namespace FractalFormula
namespace Text

/-- The UTF-8 bytes of a text, character by character, so that a fact about characters carries over
to bytes without decoding. -/
def bytes (text : String) : List UInt8 :=
  text.toList.flatMap String.utf8EncodeChar

def size (text : String) : Nat :=
  text.utf8ByteSize

/-- The character that a single byte stands for where the text is read byte by byte. -/
def latin1 (b : UInt8) : Char :=
  Char.ofNat b.toNat

/-- Equality of names up to the case of ASCII letters. -/
def sameName (a b : String) : Bool :=
  a.toList.map Char.toLower == b.toList.map Char.toLower

/-- Blanks separate nothing inside a formula; a newline is not one of them. -/
def isBlank (c : Char) : Bool :=
  c == ' ' || c == '\t' || c == '\r'

/-- The characters from byte offset `n` on.  An offset inside a character skips that character. -/
def dropBytes : Nat → List Char → List Char
  | _, [] => []
  | 0, chars => chars
  | n + 1, c :: rest => dropBytes (n + 1 - c.utf8Size) rest

/-- A text brought to a width by blanks before it. -/
def padLeft (width : Nat) (text : String) : String :=
  String.ofList (List.replicate (width - text.length) ' ') ++ text

/-- A text brought to a width by blanks after it. -/
def padRight (width : Nat) (text : String) : String :=
  text ++ String.ofList (List.replicate (width - text.length) ' ')

end Text
end FractalFormula
