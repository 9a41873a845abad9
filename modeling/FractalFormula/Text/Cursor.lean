import FractalFormula.Text.Bytes

/-!
Reading a text letter by letter.  Blanks, comments, line joins and the case of letters carry no
meaning, so they are gone before a token is formed: what remains is the list of letters ahead, each
with the offset of its byte.  A token is then a matter of that list alone, and going back to an
earlier place is using an earlier list.
-/

namespace FractalFormula

/-- A character that matters, in lower case, and the offset of its byte. -/
structure Letter where
  char : Char
  offset : Nat
  deriving DecidableEq, Repr

namespace Letter

/-- The offset just past the letter. -/
def after (l : Letter) : Nat :=
  l.offset + 1

/-- The letters of a piece of text that begins at `offset`.  `joined` holds from a backslash to the
next newline or letter, whichever comes first, and `comment` from a semicolon to its newline.  A
comment reads as the newline that ends it; a newline that a backslash has joined away reads as
nothing. -/
def listFrom (joined comment : Bool) (offset : Nat) : List UInt8 → List Letter
  | [] => []
  | b :: rest =>
    let c := Text.latin1 b
    if c = '\n' then
      if joined then listFrom false false (offset + 1) rest
      else ⟨c, offset⟩ :: listFrom false false (offset + 1) rest
    else if comment then listFrom joined true (offset + 1) rest
    else if Text.isBlank c then listFrom joined false (offset + 1) rest
    else if c = '\\' then listFrom true false (offset + 1) rest
    else if c = ';' then listFrom joined true (offset + 1) rest
    else ⟨c.toLower, offset⟩ :: listFrom false false (offset + 1) rest

end Letter

/-- A place in a text: everything before `pos` has been read, `ahead` holds the letters still to
come, and `stop` is the offset at which the text ends. -/
structure Cursor where
  pos : Nat
  ahead : List Letter
  stop : Nat
  deriving DecidableEq, Repr

namespace Cursor

/-- The place at a byte offset; an offset past the end is the end. -/
def seek (text : String) (offset : Nat) : Cursor :=
  let bytes := Text.bytes text
  let pos := min offset bytes.length
  ⟨pos, Letter.listFrom false false pos (bytes.drop pos), bytes.length⟩

/-- The end of the text. -/
def finished (c : Cursor) : Cursor :=
  { c with pos := c.stop, ahead := [] }

/-- The place just past the letter `l`, which stood right before `rest`. -/
def past (c : Cursor) (l : Letter) (rest : List Letter) : Cursor :=
  { c with pos := l.after, ahead := rest }

/-- The next letter.  Looking for one in vain uses up the rest of the text. -/
def letter (c : Cursor) : Option Char × Cursor :=
  match c.ahead with
  | [] => (none, c.finished)
  | l :: rest => (some l.char, c.past l rest)

/-- The next byte, whatever it means. -/
def byte (text : String) (c : Cursor) : Option UInt8 × Cursor :=
  match (Text.bytes text)[c.pos]? with
  | none => (none, c)
  | some b => (some b, Cursor.seek text (c.pos + 1))

end Cursor
end FractalFormula
