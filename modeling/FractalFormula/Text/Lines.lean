import FractalFormula.Text.Bytes

/-!
Line and column of a byte offset.  Lines and columns count from one, columns count bytes.
-/

namespace FractalFormula

/-- Where each line of a text starts, in order.  The first line starts at 0. -/
structure Lines where
  starts : List Nat
  deriving Repr

namespace Lines

/-- Just past each newline, for a piece of text that begins at `offset`. -/
def startsAfter (offset : Nat) : List UInt8 → List Nat
  | [] => []
  | b :: rest =>
    if b = 10 then (offset + 1) :: startsAfter (offset + 1) rest
    else startsAfter (offset + 1) rest

def ofText (text : String) : Lines :=
  ⟨0 :: startsAfter 0 (Text.bytes text)⟩

def count (l : Lines) : Nat :=
  l.starts.length

/-- The number of the line that holds `offset`; offsets past the end belong to the last line. -/
def lineOf (l : Lines) (offset : Nat) : Nat :=
  l.starts.countP (· ≤ offset)

/-- The line and the column of an offset. -/
def locate (l : Lines) (offset : Nat) : Nat × Nat :=
  let line := l.lineOf offset
  (line, offset - l.starts.getD (line - 1) 0 + 1)

/-- How many lines lie from one offset to a later one, both counted. -/
def between (l : Lines) (first last : Nat) : Nat :=
  l.lineOf (max first last) - l.lineOf first + 1

/-- The text of a line without the newline and the carriage returns that end it; nothing for a line
that does not exist. -/
def content (l : Lines) (text : String) (line : Nat) : String :=
  if line = 0 ∨ l.count < line then ""
  else
    let start := l.starts.getD (line - 1) 0
    let stop := l.starts.getD line (Text.size text)
    let chars := Text.dropBytes start text.toList
    let after := Text.dropBytes stop text.toList
    let chars := chars.take (chars.length - after.length)
    String.ofList
      ((chars.reverse.dropWhile (· == '\n')).dropWhile (· == '\r')).reverse

end Lines
end FractalFormula
