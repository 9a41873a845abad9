import FractalFormula.Grammar.Check
import FractalFormula.Text.Lines

/-!
The plain-text report on the findings of a check: for each finding the line it lies on, counted from
the header of the formula, the message, the statement as the tokens have it, and carets under the
token at fault.
-/

namespace FractalFormula
namespace Report

/-- The widest excerpt of a statement. -/
def excerptWidth : Nat := 74

/-- How far a token that was too long to be read is underlined. -/
def longTokenCarets : Nat := 33

/-- The tokens of an excerpt and the index of the token at fault among them.  The index is that of
the first token left out if the fault lies in what ended the statement. -/
structure Excerpt where
  tokens : List Token
  fault : Nat
  deriving Repr

namespace Excerpt

def width (tokens : List Token) : Nat :=
  tokens.foldr (fun t n => t.size + n) 0

/-- The tokens up to and including the one that ends the statement or the formula. -/
def upToEnd : List Token → List Token
  | [] => []
  | t :: rest => if t.endsStatement || t.isLast then [t] else t :: upToEnd rest

/-- The statement of a finding without the separators before it.  What ends the statement is shown
only where it is all there is, or where the finding is that there is a second colon. -/
def ofFinding (text : String) (f : Finding) : Excerpt :=
  let stream := Token.stream (Cursor.seek text f.statement)
  let tokens := upToEnd
    (stream.dropWhile (fun t => t.endsStatement && t.span.start < f.span.start))
  let shown :=
    if 1 < tokens.length ∧ f.complaint ≠ .secondColon then tokens.dropLast else tokens
  let fault := (tokens.findIdx? (fun t => f.span.start ≤ t.span.start)).getD (shown.length - 1)
  ⟨shown, fault⟩

/-- The width of the tokens before the fault. -/
def before (e : Excerpt) : Nat :=
  width (e.tokens.take e.fault)

/-- The width of the token at fault. -/
def size (e : Excerpt) : Nat :=
  match e.tokens[e.fault]? with
  | some t => t.size
  | none => 1

/-- Drops tokens from the front until the token at fault ends within the width. -/
def fit (e : Excerpt) : Excerpt :=
  match e with
  | ⟨tokens, 0⟩ => ⟨tokens, 0⟩
  | ⟨tokens, n + 1⟩ =>
    if e.before + e.size < excerptWidth then e else fit ⟨tokens.tail, n⟩
termination_by e.fault

/-- A token that is wider than the excerpt is shown from its beginning. -/
def window (e : Excerpt) : Excerpt :=
  if e.size < excerptWidth then e.fit else ⟨e.tokens.drop e.fault, 0⟩

/-- As many characters as fit into a number of bytes. -/
def cut : Nat → List Char → List Char
  | _, [] => []
  | n, c :: rest => if c.utf8Size ≤ n then c :: cut (n - c.utf8Size) rest else []

def line (e : Excerpt) : String :=
  String.ofList (cut excerptWidth (e.tokens.flatMap (·.text.toList)))

/-- The carets stand two columns in, as the excerpt does, and end with the width at the latest. -/
def underline (e : Excerpt) (carets : Nat) : String :=
  let indent := e.before + 2
  String.ofList
    (List.replicate indent ' ' ++ List.replicate (min carets (excerptWidth + 1 - indent)) '^')

def render (text : String) (f : Finding) : String :=
  let e := ofFinding text f
  let carets := if f.complaint = .tokenTooLong then longTokenCarets else e.size
  "  " ++ e.window.line ++ "\n" ++ e.window.underline carets ++ "\n"

end Excerpt

/-- The report on the formula whose header starts at `start`. -/
def classic (text : String) (start : Nat) (findings : List Finding) : String :=
  let lines := Lines.ofText text
  let block (f : Finding) : String :=
    "Error(" ++ toString f.complaint.number ++ ") at line "
      ++ toString (lines.between start f.span.start) ++ ":  " ++ f.complaint.message ++ "\n"
      ++ Excerpt.render text f
  "\n" ++ String.join (findings.map block)

end Report
end FractalFormula
