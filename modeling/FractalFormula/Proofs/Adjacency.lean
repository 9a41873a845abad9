/-
Which lexemes come next to each other.

A word or a function that takes something in parentheses is no token without them, a word that takes
nothing is none without a separator behind it, and two `=` or two `|` without anything between them
are one token.  So the tokens of a stream are `Lexeme.Admits`-neighbours (`Token.isChain_stream`).
-/
import FractalFormula.Proofs.Lexeme
import Mathlib.Data.List.Chain

namespace FractalFormula
namespace Lexeme

/-- What an opening parenthesis begins. -/
def Brackets : Lexeme → Prop
  | .leftParen | .literal _ _ true => True
  | _ => False

/-- What a separator is part of. -/
def Separates : Lexeme → Prop
  | .operator o => o.endsStatement = true
  | .close => True
  | _ => False

/-- The second lexeme may come right after the first. -/
def Admits : Lexeme → Lexeme → Prop
  | .call _, l => l.Brackets
  | .flow w, l => if w.takesCondition then l.Brackets else l.Separates
  | .operator .assign, l => l ≠ .operator .assign
  | .operator .modulus, l => l ≠ .operator .modulus
  | _, _ => True

end Lexeme

namespace Token

open Lexeme

theorem read_of_ahead {c : Cursor} {l : Letter} {rest : List Letter} (hc : c.ahead = l :: rest) :
    read c = if l.char.isDigit || l.char = '.' then readNumber l.offset l.char (c.past l rest)
      else if isNameStart l.char then readName l.offset l.char (c.past l rest)
      else readMark l.offset l.char (c.past l rest) := by
  rw [read, hc]

/-- A parenthesis begins a pair or is one of its own. -/
theorem brackets_read {c : Cursor} {l : Letter} {rest : List Letter} (hc : c.ahead = l :: rest)
    (h : l.char = '(') : (read c).1.lexeme.Brackets := by
  have hread : read c = readParen l.offset (c.past l rest) := by
    rw [read_of_ahead hc, h]
    rfl
  rw [hread]
  match readParen l.offset (c.past l rest), parenRead l.offset (c.past l rest) with
  | _, .pair _ | _, .single _ => trivial

theorem separates_readSeparators (start : Nat) (first : Char) (c : Cursor) :
    (readSeparators start first c).1.lexeme.Separates := by
  match readSeparators start first c, separatorsRead start first c with
  | _, .brace .. => trivial
  | _, .run _ => exact endsStatement_separatorOf first c

theorem read_of_separator {c : Cursor} {l : Letter} {rest : List Letter} (hc : c.ahead = l :: rest)
    (h : l.char = ',' ∨ l.char = '\n' ∨ l.char = ':') :
    read c = readSeparators l.offset l.char (c.past l rest) := by
  rw [read_of_ahead hc]
  rcases h with h | h | h <;>
  · rw [h]
    rfl

theorem separates_read {c : Cursor} {l : Letter} {rest : List Letter} (hc : c.ahead = l :: rest)
    (h : l.char = ',' ∨ l.char = '\n' ∨ l.char = ':') : (read c).1.lexeme.Separates := by
  rw [read_of_separator hc h]
  exact separates_readSeparators _ _ _

/-- A name that takes something behind it has it there. -/
theorem admits_kindOfName (name : String) (place : Span) {after : Cursor} {next : Letter}
    {rest : List Letter} (hahead : after.ahead = next :: rest) :
    (Token.mk name (kindOfName name next.char) place).lexeme.Admits (read after).1.lexeme := by
  unfold kindOfName
  split
  · split
    · exact brackets_read hahead (by assumption)
    · trivial
  · rename_i w _ _
    by_cases hw : w.takesCondition = true
    · rw [if_pos hw]
      split
      · show if w.takesCondition then _ else _
        rw [if_pos hw]
        exact brackets_read hahead (by assumption)
      · trivial
    · rw [if_neg hw]
      split
      · show if w.takesCondition then _ else _
        rw [if_neg hw]
        exact separates_read hahead (by assumption)
      · trivial
  · repeat' split
    all_goals trivial

theorem admits_readName (start : Nat) (first : Char) (c : Cursor) :
    (readName start first c).1.lexeme.Admits (read (readName start first c).2).1.lexeme := by
  match readName start first c, nameRead start first c with
  | _, .ended _ | _, .dotted .. | _, .tooLong _ => trivial
  | _, .name .. => exact admits_kindOfName _ _ (pastAll_ahead _ _ _)

theorem admits_readNumber (start : Nat) (first : Char) (c : Cursor) (l : Lexeme) :
    (readNumber start first c).1.lexeme.Admits l := by
  match readNumber start first c, numberRead start first c with
  | _, .number _ | _, .fault _ => trivial

/-! ## Operators of one letter -/

theorem ne_operator_readName (start : Nat) (first : Char) (c : Cursor) (o : Operator) :
    (readName start first c).1.lexeme ≠ .operator o := by
  have named (name : String) (next : Char) (place : Span) :
      (Token.mk name (kindOfName name next) place).lexeme ≠ .operator o := by
    unfold kindOfName
    repeat' split
    all_goals exact nofun
  match readName start first c, nameRead start first c with
  | _, .ended _ | _, .dotted .. | _, .tooLong _ => exact nofun
  | _, .name .. => exact named _ _ _

theorem ne_operator_readNumber (start : Nat) (first : Char) (c : Cursor) (o : Operator) :
    (readNumber start first c).1.lexeme ≠ .operator o := by
  match readNumber start first c, numberRead start first c with
  | _, .number _ | _, .fault _ => exact nofun

theorem symbol_of_find? {text : String} {o : Operator} (h : Operator.find? text = some o) :
    o.symbol = text := by
  have hsame := List.find?_some h
  exact beq_iff_eq.mp hsame

theorem symbol_of_kindOfOperator {start : Nat} {text : String} {c : Cursor} {o : Operator}
    (h : (upTo start text (kindOfOperator text) c).1.lexeme = .operator o) : o.symbol = text := by
  rcases kindOfOperator_cases text with ⟨o', hfind, hkind⟩ | hkind
  · rw [hkind] at h
    obtain rfl := Lexeme.operator.inj h
    exact symbol_of_find? hfind
  · rw [hkind] at h
    cases h

/-- An operator that ends no statement begins with its own first letter. -/
theorem head_symbol_readMark {start : Nat} {mark : Char} {c : Cursor} {o : Operator}
    (h : (readMark start mark c).1.lexeme = .operator o) (ho : o.endsStatement = false) :
    o.symbol.toList.head? = some mark := by
  match readMark start mark c, markRead start mark c, h with
  | _, .two .., h =>
    rw [symbol_of_kindOfOperator h, String.toList_ofList]
    rfl
  | _, .one .., h =>
    rw [symbol_of_kindOfOperator h, ofChar, String.toList_singleton]
    rfl
  | _, .leftParen _, h =>
    match readParen start c, parenRead start c, h with
    | _, .pair _, h | _, .single _, h => cases h
  | _, .separator _, h =>
    match readSeparators start mark c, separatorsRead start mark c, h with
    | _, .brace .., h => cases h
    | _, .run _, h =>
      obtain rfl := Lexeme.operator.inj h
      exact absurd (endsStatement_separatorOf mark c) (Bool.eq_false_iff.mp ho)
  | _, .operator _ _ _ hfind, h =>
    obtain rfl := Lexeme.operator.inj h
    rw [symbol_of_find? hfind, ofChar, String.toList_singleton]
    rfl
  | _, .brace _, h | _, .rightParen _, h | _, .other .., h => cases h

theorem head_symbol_read {c : Cursor} {o : Operator} (h : (read c).1.lexeme = .operator o)
    (ho : o.endsStatement = false) :
    ∃ l rest, c.ahead = l :: rest ∧ o.symbol.toList.head? = some l.char := by
  cases hc : c.ahead with
  | nil =>
    rw [read, hc] at h
    cases h
  | cons l rest =>
    refine ⟨l, rest, rfl, ?_⟩
    rw [read_of_ahead hc] at h
    split at h
    · exact absurd h (ne_operator_readNumber _ _ _ _)
    · split at h
      · exact absurd h (ne_operator_readName _ _ _ _)
      · exact head_symbol_readMark h ho

/-- A letter that would double the operator before it is not left for the next token. -/
theorem ne_of_after?_eq_none {c : Cursor} {o : Operator} {mark : Char} (h : after? mark c = none)
    (ho : o.symbol = ofChar mark) (hends : o.endsStatement = false) :
    (read c).1.lexeme ≠ .operator o := by
  intro hread
  obtain ⟨l, rest, hc, hhead⟩ := head_symbol_read hread hends
  rw [ho, ofChar, String.toList_singleton] at hhead
  rw [after?, hc] at h
  dsimp only at h
  rw [if_pos (Option.some.inj hhead).symm] at h
  cases h

theorem admits_operator {o : Operator} {l : Lexeme} (hassign : o = .assign → l ≠ .operator .assign)
    (hmodulus : o = .modulus → l ≠ .operator .modulus) : (Lexeme.operator o).Admits l := by
  cases o with
  | assign => exact hassign rfl
  | modulus => exact hmodulus rfl
  | _ => trivial

/-- Both letters of an operator of two are read, so it is none that could be doubled. -/
theorem admits_two {start : Nat} {first second : Char} {after : Cursor} (l : Lexeme) :
    (upTo start (String.ofList [first, second]) (kindOfOperator (String.ofList [first, second]))
      after).1.lexeme.Admits l := by
  rcases kindOfOperator_cases (String.ofList [first, second]) with ⟨o, hfind, hkind⟩ | hkind
  · have hletters : o.symbol.toList = [first, second] := by
      rw [symbol_of_find? hfind, String.toList_ofList]
    rw [hkind]
    refine admits_operator ?_ ?_ <;>
    · rintro rfl
      exact absurd (congrArg List.length hletters) (Nat.ne_of_lt (Nat.lt_succ_self 1))
  · rw [hkind]
    trivial

/-- An operator of one letter that could be doubled is not by what is left. -/
theorem admits_one {start : Nat} {mark second : Char} {c : Cursor}
    (hsecond : secondOf mark = some second) (hafter : after? second c = none) :
    (upTo start (ofChar mark) (kindOfOperator (ofChar mark)) c).1.lexeme.Admits
      (read c).1.lexeme := by
  rcases kindOfOperator_cases (ofChar mark) with ⟨o, hfind, hkind⟩ | hkind
  · have hsymbol := symbol_of_find? hfind
    have hletters : o.symbol.toList = [mark] := by
      rw [hsymbol, ofChar, String.toList_singleton]
    rw [hkind]
    refine admits_operator ?_ ?_ <;>
    · rintro rfl
      obtain rfl := (List.cons.inj hletters).1
      obtain rfl := Option.some.inj hsecond
      exact ne_of_after?_eq_none hafter hsymbol rfl
  · rw [hkind]
    trivial

/-- A mark that would be longer with what comes next takes that up. -/
theorem admits_readMark (start : Nat) (mark : Char) (c : Cursor) :
    (readMark start mark c).1.lexeme.Admits (read (readMark start mark c).2).1.lexeme := by
  match readMark start mark c, markRead start mark c with
  | _, .two .. => exact admits_two _
  | _, .one hsecond hafter => exact admits_one hsecond hafter
  | _, .leftParen _ =>
    match readParen start c, parenRead start c with
    | _, .pair _ | _, .single _ => trivial
  | _, .separator _ =>
    have hsep := separates_readSeparators start mark c
    generalize (readSeparators start mark c).1.lexeme = l at hsep
    cases l with
    | operator o => cases o <;> trivial
    | close => trivial
    | _ => cases hsep
  | _, .operator hsecond _ _ hfind =>
    refine admits_operator ?_ ?_ <;>
    · rintro rfl
      have hmark := congrArg String.toList (symbol_of_find? hfind)
      rw [ofChar, String.toList_singleton] at hmark
      obtain rfl := (List.cons.inj hmark).1
      cases hsecond
  | _, .brace _ | _, .rightParen _ | _, .other .. => trivial

theorem admits_read (c : Cursor) : (read c).1.lexeme.Admits (read (read c).2).1.lexeme := by
  cases hc : c.ahead with
  | nil =>
    rw [read, hc]
    trivial
  | cons l rest =>
    rw [read_of_ahead hc]
    split
    · exact admits_readNumber _ _ _ _
    · split
      · exact admits_readName _ _ _
      · exact admits_readMark _ _ _

theorem isChain_stream (c : Cursor) : ((stream c).map Token.lexeme).IsChain Admits := by
  fun_induction stream c with
  | case1 c hlast => exact .singleton _
  | case2 c hlast ih =>
    rw [List.map_cons]
    refine List.isChain_cons.mpr ⟨fun l hl => ?_, ih⟩
    have hhead : ((stream (read c).2).map lexeme).head? = some (read (read c).2).1.lexeme := by
      rw [stream]
      split <;> rfl
    rw [hhead] at hl
    exact Option.some.inj hl ▸ admits_read c

end Token
end FractalFormula
