import FractalFormula.Text.Bytes

/-!
The entries of a library.  An entry is a name, anything else on its line, and a body in braces.  The
first word of a line is a name if a brace opens on that line; a body ends at its first closing brace
outside comments.
-/

namespace FractalFormula

/-- Where an entry stands: the offsets of its name and of its body. -/
structure Entry where
  name : String
  start : Nat
  bodyStart : Nat
  deriving DecidableEq, Repr

namespace Entry

/-- What has been read of a line or a body.  The characters of a word come newest first. -/
inductive Reading where
  | blank
  | word (start : Nat) (chars : List Char)
  | named (start : Nat) (name : String)
  | body
  deriving DecidableEq, Repr

namespace Reading

/-- Ends the word at hand. -/
def pause : Reading → Reading
  | .word start chars => .named start (String.ofList chars.reverse)
  | r => r

/-- Takes a character of a word that begins at `offset` unless one is at hand.  Only the first word
of a line counts. -/
def extend (offset : Nat) (c : Char) : Reading → Reading
  | .blank => .word offset [c]
  | .word start chars => .word start (c :: chars)
  | r => r

/-- The entry that a brace opens, if a name came before it. -/
def entry? (bodyStart : Nat) (r : Reading) : Option Entry :=
  match r.pause with
  | .named start name => some ⟨name, start, bodyStart⟩
  | _ => none

end Reading

/-- The entries in a piece of text that begins at `offset`. -/
def listFrom (comment : Bool) (r : Reading) (offset : Nat) : List Char → List Entry
  | [] => []
  | c :: rest =>
    let next := offset + c.utf8Size
    if c = '\n' then listFrom false (if r = .body then .body else .blank) next rest
    else if comment then listFrom true r next rest
    else if c = ';' then listFrom true r.pause next rest
    else if r = .body then listFrom false (if c = '}' then .blank else .body) next rest
    else if c = '{' then (r.entry? next).toList ++ listFrom false .body next rest
    else if Text.isBlank c || c = '(' || c = ')' || c = '}' then listFrom false r.pause next rest
    else listFrom false (r.extend offset c) next rest

/-- All entries of a library, in order. -/
def list (text : String) : List Entry :=
  listFrom false .blank 0 text.toList

def find? (text name : String) : Option Entry :=
  (list text).find? (Text.sameName ·.name name)

end Entry
end FractalFormula
