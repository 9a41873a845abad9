import FractalFormula.Token.Numeral

/-!
Tokens from letters.  `Token.read` takes one token, `Token.stream` all tokens up to the closing
brace or the end of the text, faulty ones included, and `Token.body` those up to the first fault.
Every token but the end of the text uses up at least one letter (`Token.read_ahead_lt`), so a stream
is finite.
-/

namespace FractalFormula
namespace Token

/-- A token that begins at `start` and ends at the place `c`, with that place. -/
def upTo (start : Nat) (text : String) (kind : Kind) (c : Cursor) : Token × Cursor :=
  (⟨text, kind, ⟨start, max c.pos start⟩⟩, c)

def ofChar (c : Char) : String :=
  String.singleton c

/-! ## Names -/

def isNameChar (c : Char) : Bool :=
  c.isAlphanum || c == '_'

def isNameStart (c : Char) : Bool :=
  c.isAlpha || c == '_'

/-- What a name is depends on the letter after it: a parenthesis makes it a function or a branch
with a condition, and a branch without one must be followed by a separator. -/
def kindOfName (name : String) (next : Char) : Kind :=
  match Func.find? name, FlowWord.find? name with
  | some f, _ => if next = '(' then .call f else .fault .functionAsVariable
  | none, some w =>
    if w.takesCondition then
      if next = '(' then .flow w else .fault .missingCondition
    else if next = ',' ∨ next = '\n' ∨ next = ':' then .flow w
    else .fault .illegalAfterJump
  | none, none =>
    if next = '(' then .fault .undefinedFunction
    else match Builtin.find? name with
      | some v => .builtin v
      | none => .user

/-- The most that is kept of a name that is too long. -/
def keptNameLength : Nat := 79

/-- The place just past the last of `letters`, or `c` if there are none. -/
def pastAll (c : Cursor) (letters rest : List Letter) : Cursor :=
  match letters.getLast? with
  | none => { c with ahead := rest }
  | some l => c.past l rest

/-- A name is over at the first letter that cannot belong to it, so it never ends the text. -/
def readName (start : Nat) (first : Char) (c : Cursor) : Token × Cursor :=
  let more := c.ahead.takeWhile (isNameChar ·.char)
  match c.ahead.dropWhile (isNameChar ·.char) with
  | [] => upTo start "" (.fault .endOfText) c.finished
  | next :: rest =>
    let name := first :: more.map Letter.char
    let kept := String.ofList (name.take keptNameLength)
    if next.char = '.' then upTo start (kept ++ ".") (.fault .illegalName) (c.past next rest)
    else
      let after := pastAll c more (next :: rest)
      if lengthLimit < name.length then upTo start kept (.fault .tooLong) after
      else upTo start kept (kindOfName kept next.char) after

/-! ## Numbers and pairs -/

def readNumber (start : Nat) (first : Char) (c : Cursor) : Token × Cursor :=
  let n := Numeral.read first c
  match n.value with
  | .ok x => upTo start (String.ofList n.text) (.number x) n.cursor
  | .error f => upTo start (String.ofList n.text) (.fault f) n.cursor

/-- One part of a pair: a number that a minus sign may precede. -/
def part? (c : Cursor) : Option (List Char × Float × Cursor) :=
  match c.ahead with
  | [] => none
  | l :: rest =>
    if l.char = '-' then
      match rest with
      | [] => none
      | d :: rest' =>
        if d.char.isDigit || d.char = '.' then
          let n := Numeral.read d.char (c.past d rest')
          match n.value with
          | .ok x => some ('-' :: n.text, -x, n.cursor)
          | .error _ => none
        else none
    else if l.char.isDigit || l.char = '.' then
      let n := Numeral.read l.char (c.past l rest)
      match n.value with
      | .ok x => some (n.text, x, n.cursor)
      | .error _ => none
    else none

/-- The place after the letter `want`, if that is the next one. -/
def after? (want : Char) (c : Cursor) : Option Cursor :=
  match c.ahead with
  | [] => none
  | l :: rest => if l.char = want then some (c.past l rest) else none

/-- The rest of a pair whose opening parenthesis has been read. -/
def pair? (c : Cursor) : Option (String × Float × Float × Cursor) := do
  let (re, x, c) ← part? c
  let c ← after? ',' c
  let (im, y, c) ← part? c
  let c ← after? ')' c
  return (String.ofList ('(' :: re ++ ',' :: im ++ [')']), x, y, c)

def readParen (start : Nat) (c : Cursor) : Token × Cursor :=
  match pair? c with
  | some (text, x, y, after) => upTo start text (.pair x y) after
  | none => upTo start "(" .leftParen c

/-! ## Operators and separators -/

def isSeparator (c : Char) : Bool :=
  c == ',' || c == '\n' || c == ':'

/-- A run of separators is one token: a colon if there is one in it, otherwise a comma.  A run that
reaches the closing brace is the closing brace. -/
def readSeparators (start : Nat) (first : Char) (c : Cursor) : Token × Cursor :=
  let run := c.ahead.takeWhile (isSeparator ·.char)
  let rest := c.ahead.dropWhile (isSeparator ·.char)
  let comma : Token × Cursor :=
    let o := if first == ':' || run.any (·.char == ':') then Operator.colon else Operator.comma
    upTo start o.symbol (.operator o) (pastAll c run rest)
  match rest with
  | [] => comma
  | next :: rest' => if next.char = '}' then upTo start "\x7d" .close (c.past next rest') else comma

/-- An operator of one letter, or of two if the second is `second`. -/
def readDoubled (start : Nat) (first second : Char) (c : Cursor) : Token × Cursor :=
  match after? second c with
  | some after => operatorUpTo (String.ofList [first, second]) after
  | none => operatorUpTo (ofChar first) c
where
  operatorUpTo (text : String) (c : Cursor) : Token × Cursor :=
    match Operator.find? text with
    | some o => upTo start text (.operator o) c
    | none => upTo start text (.fault .illegalOperator) c

/-- The second letter that an operator may have. -/
def secondOf : Char → Option Char
  | '<' | '>' | '=' | '!' => some '='
  | '|' => some '|'
  | '&' => some '&'
  | _ => none

def readMark (start : Nat) (mark : Char) (c : Cursor) : Token × Cursor :=
  match secondOf mark with
  | some second => readDoubled start mark second c
  | none =>
    if mark = '}' then upTo start "\x7d" .close c
    else if mark = ')' then upTo start ")" .rightParen c
    else if mark = '(' then readParen start c
    else if isSeparator mark then readSeparators start mark c
    else match Operator.find? (ofChar mark) with
      | some o => upTo start (ofChar mark) (.operator o) c
      | none => upTo start (ofChar mark) (.fault .illegalCharacter) c

/-! ## One token, all tokens -/

/-- The next token and the place after it. -/
def read (c : Cursor) : Token × Cursor :=
  match c.ahead with
  | [] => upTo c.stop "" (.fault .endOfText) c.finished
  | l :: rest =>
    let after := c.past l rest
    if l.char.isDigit || l.char = '.' then readNumber l.offset l.char after
    else if isNameStart l.char then readName l.offset l.char after
    else readMark l.offset l.char after

end Token
end FractalFormula
