/-
What a token means, apart from where it stands.

A body is checked and compiled by what its tokens mean, so a statement about bodies speaks of
lexemes.  `Token.spelled_of_mem_stream` tells the three kinds of operands apart by their first
letters, and says that the value of a number is a matter of its text.
-/
import FractalFormula.Program.Compile
import FractalFormula.Token.Stream

namespace FractalFormula

/-- A token without its place.  All names are alike, and a literal is a number or a pair. -/
inductive Lexeme where
  | leftParen
  | rightParen
  | name (text : String)
  | literal (text : String) (value : Complex Float) (isPair : Bool)
  | call (f : Func)
  | flow (w : FlowWord)
  | operator (o : Operator)
  | close
  | fault (f : Token.Fault)
  deriving DecidableEq, Repr

namespace Token

def lexeme (t : Token) : Lexeme :=
  match t.kind with
  | .fault f => .fault f
  | .leftParen => .leftParen
  | .rightParen => .rightParen
  | .builtin _ | .user => .name t.text
  | .number x => .literal t.text ⟨x, 0⟩ false
  | .pair x y => .literal t.text ⟨x, y⟩ true
  | .call f => .call f
  | .flow w => .flow w
  | .operator o => .operator o
  | .close => .close

end Token

namespace Lexeme

/-- The first letter of a number. -/
def startsNumber (c : Char) : Bool :=
  c.isDigit || c == '.'

def IsName (text : String) : Prop :=
  ∃ c rest, text.toList = c :: rest ∧ Token.isNameStart c = true

def IsNumber (text : String) : Prop :=
  ∃ c rest, text.toList = c :: rest ∧ startsNumber c = true

/-- A name begins like a name, a pair with its parenthesis, and a number like a number, with the
value that its text has. -/
def Spelled : Lexeme → Prop
  | .name text => IsName text
  | .literal text value false => IsNumber text ∧ value = ⟨Decimal.leading text.toList, 0⟩
  | .literal text _ true => ∃ rest, text.toList = '(' :: rest
  | _ => True

end Lexeme

/-! ## Spelling -/

namespace Token

open Lexeme

theorem Numeral.readFrom_spelled {d : Numeral.Draft} {place : Cursor} {ahead : List Letter}
    {x : Float} (h : (Numeral.readFrom d place ahead).value = .ok x) :
    d.text.reverse <+: (Numeral.readFrom d place ahead).text ∧
      x = Decimal.leading (Numeral.readFrom d place ahead).text := by
  induction ahead generalizing d place with
  | nil => simp [Numeral.readFrom, Numeral.Draft.fail] at h
  | cons l rest ih =>
    rw [Numeral.readFrom] at h ⊢
    cases hturn : d.turn l.char rest with
    | grow d' =>
      have hgrow : d.text.reverse <+: d'.text.reverse := by
        unfold Numeral.Draft.turn at hturn
        repeat' split at hturn
        all_goals first
          | (cases hturn; simp [Numeral.Draft.add])
          | simp at hturn
      rw [hturn] at h
      dsimp only at h ⊢
      by_cases hlong : (d'.tooLong && !d'.sign) = true
      · rw [if_pos hlong] at h
        simp [Numeral.Draft.fail] at h
      · rw [if_neg hlong] at h ⊢
        exact ⟨hgrow.trans (ih h).1, (ih h).2⟩
    | spoil d' =>
      rw [hturn] at h
      simp [Numeral.Draft.fail] at h
    | complete =>
      rw [hturn] at h
      simp only [Numeral.Draft.complete, Except.ok.injEq] at h ⊢
      exact ⟨List.prefix_refl _, h.symm⟩

theorem readNumber_spelled (start : Nat) {first : Char} (c : Cursor)
    (h : startsNumber first = true) : (readNumber start first c).1.lexeme.Spelled := by
  match readNumber start first c, numberRead start first c with
  | _, .fault _ => trivial
  | _, .number hv =>
    obtain ⟨⟨rest, hrest⟩, hx⟩ := Numeral.readFrom_spelled hv
    have htext : (Numeral.read first c).text = first :: rest := hrest.symm
    refine ⟨⟨first, rest, ?_, h⟩, ?_⟩
    · simpa [upTo] using htext
    · exact congrArg (Complex.mk · 0) (hx.trans (congrArg _ (String.toList_ofList).symm))

theorem kindOfName_spelled (text : String) (next : Char) (place : Span) (h : IsName text) :
    (Token.mk text (kindOfName text next) place).lexeme.Spelled := by
  unfold kindOfName
  repeat' split
  -- the words of the language have nothing to show, and for another name it is `h`
  all_goals trivial

theorem readName_spelled (start : Nat) {first : Char} (c : Cursor)
    (h : isNameStart first = true) : (readName start first c).1.lexeme.Spelled := by
  match readName start first c, nameRead start first c with
  | _, .ended _ | _, .dotted .. | _, .tooLong _ => trivial
  | _, .name .. =>
    have htext := String.toList_ofList (l := List.take keptNameLength
      (first :: (c.ahead.takeWhile (isNameChar ·.char)).map Letter.char))
    exact kindOfName_spelled _ _ _ ⟨first, _, htext.trans List.take_succ_cons, h⟩

theorem readParen_spelled (start : Nat) (c : Cursor) : (readParen start c).1.lexeme.Spelled := by
  match readParen start c, parenRead start c with
  | _, .single _ => trivial
  | _, .pair hpair =>
    simp only [pair?, Option.bind_eq_bind, Option.bind_eq_some_iff, Prod.exists, Option.pure_def,
      Option.some.injEq, Prod.mk.injEq] at hpair
    obtain ⟨_, _, _, _, _, _, _, _, _, _, _, _, rfl, _⟩ := hpair
    exact ⟨_, String.toList_ofList⟩

theorem readSeparators_spelled (start : Nat) (first : Char) (c : Cursor) :
    (readSeparators start first c).1.lexeme.Spelled := by
  match readSeparators start first c, separatorsRead start first c with
  | _, .brace .. | _, .run _ => trivial

theorem kindOfOperator_spelled (text : String) (place : Span) :
    (Token.mk text (kindOfOperator text) place).lexeme.Spelled := by
  rcases kindOfOperator_cases text with ⟨o, -, hkind⟩ | hkind <;>
  · rw [hkind]
    trivial

theorem readMark_spelled (start : Nat) (mark : Char) (c : Cursor) :
    (readMark start mark c).1.lexeme.Spelled := by
  match readMark start mark c, markRead start mark c with
  | _, .two .. | _, .one .. => exact kindOfOperator_spelled _ _
  | _, .leftParen _ => exact readParen_spelled start c
  | _, .separator _ => exact readSeparators_spelled start mark c
  | _, .brace _ | _, .rightParen _ | _, .operator .. | _, .other .. => trivial

theorem read_spelled (c : Cursor) : (read c).1.lexeme.Spelled := by
  unfold read
  split
  · trivial
  · rename_i l rest _
    dsimp only
    split
    · rename_i h
      exact readNumber_spelled _ _ (by simpa [startsNumber] using h)
    · split
      · exact readName_spelled _ _ (by assumption)
      · exact readMark_spelled _ _ _

theorem spelled_of_mem_stream {c : Cursor} {t : Token} (h : t ∈ stream c) : t.lexeme.Spelled := by
  fun_induction stream c with
  | case1 c hlast =>
    rw [List.mem_singleton.mp h]
    exact read_spelled c
  | case2 c hlast ih =>
    rcases List.mem_cons.mp h with rfl | h
    · exact read_spelled c
    · exact ih h

/-- The first `n` tokens of a stream, by recursion on their number. -/
def firstTokens : Nat → Cursor → List Token
  | 0, _ => []
  | n + 1, c =>
    if (read c).1.isLast then [(read c).1] else (read c).1 :: firstTokens n (read c).2

/-- There are no more tokens than letters, but for the last. -/
theorem stream_eq_firstTokens {n : Nat} {c : Cursor} (h : c.ahead.length < n) :
    stream c = firstTokens n c := by
  induction n generalizing c with
  | zero => omega
  | succ n ih =>
    rw [stream, firstTokens]
    cases hlast : (read c).1.isLast with
    | true => rfl
    | false =>
      have hlt := read_ahead_lt (ahead_ne_nil_of_not_isLast hlast)
      have hrest := ih (c := (read c).2) (by omega)
      simp only [Bool.false_eq_true, dite_false, if_false, hrest]

/-- A text that is given by its characters need not be decoded. -/
theorem stream_ofList {n : Nat} {chars : List Char}
    (h : (Letter.listFrom false false 0 (chars.flatMap String.utf8EncodeChar)).length < n) :
    stream (Cursor.seek (String.ofList chars) 0) =
      firstTokens n ⟨0, Letter.listFrom false false 0 (chars.flatMap String.utf8EncodeChar),
        (chars.flatMap String.utf8EncodeChar).length⟩ := by
  have hbytes : Text.bytes (String.ofList chars) = chars.flatMap String.utf8EncodeChar := by
    rw [Text.bytes, String.toList_ofList]
  rw [Cursor.seek, hbytes, Nat.zero_min]
  exact stream_eq_firstTokens h

end Token
end FractalFormula
