import FractalFormula.Token.Reader

/-!
What comes of a token, case by case.  A number, a name, a parenthesis, a run of separators and a mark
are each read in one of the ways listed here, with what is known in that way.
-/

namespace FractalFormula
namespace Token

/-! ## Names -/

/-- The text that is kept of a name. -/
def keptName (first : Char) (c : Cursor) : String :=
  String.ofList
    ((first :: (c.ahead.takeWhile (isNameChar ·.char)).map Letter.char).take keptNameLength)

/-- What comes of a name, by the letter `next` that ends it. -/
inductive NameRead (start : Nat) (first : Char) (c : Cursor) : Token × Cursor → Prop
  | ended (hend : c.ahead.dropWhile (isNameChar ·.char) = []) :
    NameRead start first c (upTo start "" (.fault .endOfText) c.finished)
  | dotted {next : Letter} {rest : List Letter}
    (hend : c.ahead.dropWhile (isNameChar ·.char) = next :: rest) (hpoint : next.char = '.') :
    NameRead start first c
      (upTo start (keptName first c ++ ".") (.fault .illegalName) (c.past next rest))
  | tooLong {next : Letter} {rest : List Letter}
    (hend : c.ahead.dropWhile (isNameChar ·.char) = next :: rest) :
    NameRead start first c (upTo start (keptName first c) (.fault .tooLong)
      (pastAll c (c.ahead.takeWhile (isNameChar ·.char)) (next :: rest)))
  | name {next : Letter} {rest : List Letter}
    (hend : c.ahead.dropWhile (isNameChar ·.char) = next :: rest) (hpoint : next.char ≠ '.')
    (hlong : ¬ lengthLimit <
      (first :: (c.ahead.takeWhile (isNameChar ·.char)).map Letter.char).length) :
    NameRead start first c (upTo start (keptName first c) (kindOfName (keptName first c) next.char)
      (pastAll c (c.ahead.takeWhile (isNameChar ·.char)) (next :: rest)))

theorem nameRead (start : Nat) (first : Char) (c : Cursor) :
    NameRead start first c (readName start first c) := by
  unfold readName
  split
  · rename_i hend
    exact .ended hend
  · rename_i next rest hend
    dsimp only
    split
    · rename_i hpoint
      exact .dotted hend hpoint
    · rename_i hpoint
      split
      · exact .tooLong hend
      · rename_i hlong
        exact .name hend hpoint hlong

/-! ## Numbers and pairs -/

/-- What comes of a number. -/
inductive NumberRead (start : Nat) (first : Char) (c : Cursor) : Token × Cursor → Prop
  | number {x : Float} (hvalue : (Numeral.read first c).value = .ok x) :
    NumberRead start first c (upTo start (String.ofList (Numeral.read first c).text) (.number x)
      (Numeral.read first c).cursor)
  | fault {f : Fault} (hvalue : (Numeral.read first c).value = .error f) :
    NumberRead start first c (upTo start (String.ofList (Numeral.read first c).text) (.fault f)
      (Numeral.read first c).cursor)

theorem numberRead (start : Nat) (first : Char) (c : Cursor) :
    NumberRead start first c (readNumber start first c) := by
  unfold readNumber
  dsimp only
  split
  · rename_i hvalue
    exact .number hvalue
  · rename_i hvalue
    exact .fault hvalue

/-- What comes of a parenthesis. -/
inductive ParenRead (start : Nat) (c : Cursor) : Token × Cursor → Prop
  | pair {text : String} {x y : Float} {after : Cursor}
    (hpair : pair? c = some (text, x, y, after)) :
    ParenRead start c (upTo start text (.pair x y) after)
  | single (hpair : pair? c = none) : ParenRead start c (upTo start "(" .leftParen c)

theorem parenRead (start : Nat) (c : Cursor) : ParenRead start c (readParen start c) := by
  unfold readParen
  split
  · rename_i hpair
    exact .pair hpair
  · rename_i hpair
    exact .single hpair

/-! ## Separators -/

/-- The separator that a run of them is. -/
def separatorOf (first : Char) (c : Cursor) : Operator :=
  if first == ':' || (c.ahead.takeWhile (isSeparator ·.char)).any (·.char == ':') then .colon
  else .comma

theorem endsStatement_separatorOf (first : Char) (c : Cursor) :
    (separatorOf first c).endsStatement = true := by
  unfold separatorOf
  split <;> rfl

/-- What comes of a run of separators. -/
inductive SeparatorsRead (start : Nat) (first : Char) (c : Cursor) : Token × Cursor → Prop
  | brace {next : Letter} {rest : List Letter}
    (hend : c.ahead.dropWhile (isSeparator ·.char) = next :: rest) (hbrace : next.char = '}') :
    SeparatorsRead start first c (upTo start "\x7d" .close (c.past next rest))
  | run (hend : ∀ next rest, c.ahead.dropWhile (isSeparator ·.char) = next :: rest →
      next.char ≠ '}') :
    SeparatorsRead start first c
      (upTo start (separatorOf first c).symbol (.operator (separatorOf first c))
        (pastAll c (c.ahead.takeWhile (isSeparator ·.char))
          (c.ahead.dropWhile (isSeparator ·.char))))

theorem separatorsRead (start : Nat) (first : Char) (c : Cursor) :
    SeparatorsRead start first c (readSeparators start first c) := by
  unfold readSeparators
  dsimp only
  split
  · rename_i hend
    exact .run fun _ _ h => absurd (hend.symm.trans h) nofun
  · rename_i next rest hend
    split
    · rename_i hbrace
      exact .brace hend hbrace
    · rename_i hbrace
      refine .run fun next' rest' h => ?_
      obtain ⟨rfl, -⟩ := List.cons.inj (hend.symm.trans h)
      exact hbrace

/-! ## Operators and marks -/

/-- What an operator is, by its text. -/
def kindOfOperator (text : String) : Kind :=
  match Operator.find? text with
  | some o => .operator o
  | none => .fault .illegalOperator

theorem operatorUpTo_eq (start : Nat) (text : String) (c : Cursor) :
    readDoubled.operatorUpTo start text c = upTo start text (kindOfOperator text) c := by
  unfold readDoubled.operatorUpTo kindOfOperator
  cases Operator.find? text <;> rfl

theorem kindOfOperator_cases (text : String) :
    (∃ o, Operator.find? text = some o ∧ kindOfOperator text = .operator o) ∨
      kindOfOperator text = .fault .illegalOperator := by
  unfold kindOfOperator
  split
  · rename_i o hfind
    exact .inl ⟨o, hfind, rfl⟩
  · exact .inr rfl

theorem readDoubled_of_some {second : Char} {c after : Cursor} (h : after? second c = some after)
    (start : Nat) (first : Char) : readDoubled start first second c =
      upTo start (String.ofList [first, second]) (kindOfOperator (String.ofList [first, second]))
        after := by
  rw [readDoubled, h]
  exact operatorUpTo_eq ..

theorem readDoubled_of_none {second : Char} {c : Cursor} (h : after? second c = none)
    (start : Nat) (first : Char) : readDoubled start first second c =
      upTo start (ofChar first) (kindOfOperator (ofChar first)) c := by
  rw [readDoubled, h]
  exact operatorUpTo_eq ..

/-- What comes of a mark. -/
inductive MarkRead (start : Nat) (mark : Char) (c : Cursor) : Token × Cursor → Prop
  | two {second : Char} {after : Cursor} (hsecond : secondOf mark = some second)
    (hafter : after? second c = some after) :
    MarkRead start mark c (upTo start (String.ofList [mark, second])
      (kindOfOperator (String.ofList [mark, second])) after)
  | one {second : Char} (hsecond : secondOf mark = some second) (hafter : after? second c = none) :
    MarkRead start mark c (upTo start (ofChar mark) (kindOfOperator (ofChar mark)) c)
  | brace (hmark : mark = '}') : MarkRead start mark c (upTo start "\x7d" .close c)
  | rightParen (hmark : mark = ')') : MarkRead start mark c (upTo start ")" .rightParen c)
  | leftParen (hmark : mark = '(') : MarkRead start mark c (readParen start c)
  | separator (hmark : isSeparator mark = true) :
    MarkRead start mark c (readSeparators start mark c)
  | operator {o : Operator} (hsecond : secondOf mark = none) (hbrace : mark ≠ '}')
    (hmark : isSeparator mark = false) (hfind : Operator.find? (ofChar mark) = some o) :
    MarkRead start mark c (upTo start (ofChar mark) (.operator o) c)
  | other (hbrace : mark ≠ '}') (hmark : isSeparator mark = false) :
    MarkRead start mark c (upTo start (ofChar mark) (.fault .illegalCharacter) c)

theorem markRead (start : Nat) (mark : Char) (c : Cursor) :
    MarkRead start mark c (readMark start mark c) := by
  unfold readMark
  split
  · rename_i second hsecond
    cases hafter : after? second c with
    | some after =>
      rw [readDoubled_of_some hafter]
      exact .two hsecond hafter
    | none =>
      rw [readDoubled_of_none hafter]
      exact .one hsecond hafter
  · rename_i hsecond
    split
    · rename_i hmark
      exact .brace hmark
    · rename_i hbrace
      split
      · rename_i hmark
        exact .rightParen hmark
      · split
        · rename_i hmark
          exact .leftParen hmark
        · split
          · rename_i hmark
            exact .separator hmark
          · rename_i hmark
            split
            · rename_i o hfind
              exact .operator hsecond hbrace (Bool.eq_false_iff.mpr hmark) hfind
            · exact .other hbrace (Bool.eq_false_iff.mpr hmark)

end Token
end FractalFormula
