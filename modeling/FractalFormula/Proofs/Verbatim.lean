/-
Tokens are read again from their own texts.

The text of a token is made of the letters that it was read from, and the same letters make the same
token anywhere else (`Token.Verbatim`), if others follow that end it alike.  A parenthesis is the
exception: it is one token if what follows is no rest of a pair (`Token.Lone`).  A separator has its
symbol for a text, whatever letters it was read from (`Token.spelling_of_endsStatement`).
-/
import FractalFormula.Proofs.Numerals

namespace FractalFormula
namespace Token

variable {c c' : Cursor}

/-- A letter that can be seen and is not skipped where a text is read. -/
def isPlain (k : Char) : Bool :=
  decide (32 < k.toNat) && decide (k.toNat < 127) && k != ';' && k != '\\'

theorem isPlain_of_isNameChar {k : Char} (h : isNameChar k = true) : isPlain k = true := by
  have hne {c : Char} (h : k.toNat ≠ c.toNat) : k ≠ c := by
    rintro rfl
    exact h rfl
  have hrange : (65 ≤ k.toNat ∧ k.toNat ≤ 90 ∨ 97 ≤ k.toNat ∧ k.toNat ≤ 122) ∨
      48 ≤ k.toNat ∧ k.toNat ≤ 57 ∨ k.toNat = '_'.toNat := by
    rcases Bool.or_eq_true_iff.mp h with h | h
    · rcases Bool.or_eq_true_iff.mp h with halpha | hdigit
      · have halpha : (decide (k.val ≥ 'A'.val ∧ k.val ≤ 'Z'.val) ||
            decide (k.val ≥ 'a'.val) && decide (k.val ≤ 'z'.val)) = true := halpha
        simp [UInt32.le_iff_toNat_le] at halpha
        omega
      · simp [Char.isDigit, UInt32.le_iff_toNat_le] at hdigit
        omega
    · exact .inr (.inr (congrArg Char.toNat (eq_of_beq h)))
  have hunderscore : '_'.toNat = 95 := rfl
  have hsemicolon : k ≠ ';' := hne (by rw [show ';'.toNat = 59 from rfl]; omega)
  have hbackslash : k ≠ '\\' := hne (by rw [show '\\'.toNat = 92 from rfl]; omega)
  have hlow : 32 < k.toNat := by omega
  have hhigh : k.toNat < 127 := by omega
  simp [isPlain, hsemicolon, hbackslash, hlow, hhigh]

theorem isPlain_of_isNumeric {k : Char} (h : isNumeric k = true) : isPlain k = true := by
  simp only [isNumeric, Bool.or_eq_true, beq_iff_eq] at h
  rcases h with (((h | rfl) | rfl) | rfl) | rfl
  · refine isPlain_of_isNameChar ?_
    rw [isNameChar, Char.isAlphanum, h, Bool.or_true]
    rfl
  · decide
  · decide
  · decide
  · decide

/-! ## Tokens -/

/-- A parenthesis before letters that are no rest of a pair stands alone. -/
def Lone (tail : List Char) : Prop :=
  ∀ d : Cursor, d.chars = tail → pair? d = none

/-- What `reader` makes of the letters ahead of `c`, when the letters `before` have been read, is the
token and the place `r`, and the text of the token has the letters used for it.  It makes the same of
these letters anywhere else, if others follow that end the token alike. -/
structure Verbatim (reader : Nat → Cursor → Token × Cursor) (before : List Char) (c : Cursor)
    (r : Token × Cursor) (used : List Char) : Prop where
  text : r.1.text.toList = before ++ used
  chars : c.chars = used ++ r.2.chars
  plain : ∀ k ∈ used, isPlain k = true
  again : ∀ (start : Nat) (d : Cursor) (tail : List Char), Abreast r.2.chars tail →
    (r.1.kind = .leftParen → Lone tail) → d.chars = used ++ tail →
      (reader start d).1.spelling = r.1.spelling ∧ (reader start d).2.chars = tail

theorem readNumber_verbatim {start : Nat} {first : Char}
    (h : ∀ f, (readNumber start first c).1.kind ≠ .fault f) :
    ∃ used, Verbatim (readNumber · first) [first] c (readNumber start first c) used := by
  match readNumber start first c, numberRead start first c, h with
  | _, .fault _, h => exact absurd rfl (h _)
  | _, .number hvalue, _ =>
    obtain ⟨used, htext, hchars, hnumeric, hagain⟩ := numeral_verbatim hvalue
    rw [htext]
    refine ⟨used, String.toList_ofList, hchars, fun k hk => isPlain_of_isNumeric (hnumeric k hk),
      fun n d tail habreast _ hd => ?_⟩
    obtain ⟨htext', hvalue', hcursor⟩ := hagain d tail habreast hd
    rw [readNumber, hvalue', htext']
    exact ⟨rfl, hcursor⟩

/-- Before a separator a name is what it is before any other letter that ends it. -/
theorem kindOfName_of_isBreak {name : String} {k k' : Char} (hk : isBreak k = true)
    (hk' : isSeparator k' = true) (h : ∀ f, kindOfName name k ≠ .fault f) :
    kindOfName name k' = kindOfName name k := by
  have hparen : ¬ k = '(' := by
    rintro rfl
    cases hk
  have hparen' : ¬ k' = '(' := by
    rintro rfl
    cases hk'
  unfold kindOfName at h ⊢
  split at h
  · exact absurd (if_neg hparen) (h _)
  · split at h
    · exact absurd rfl (h _)
    · rename_i hcondition
      split at h
      · rename_i hseparator
        rw [if_neg hcondition, if_neg hcondition, if_pos hseparator, if_pos (eq_of_isSeparator hk')]
      · exact absurd rfl (h _)
  · rw [if_neg hparen, if_neg hparen']

/-- A name that is no fault is all the letters ahead that names are made of. -/
theorem readName_of_append (start : Nat) (first : Char) {more rest : List Letter} {next : Letter}
    (hc : c.ahead = more ++ next :: rest) (hmore : ∀ l ∈ more, isNameChar l.char = true)
    (hnext : isNameChar next.char = false) (hpoint : next.char ≠ '.')
    (hlong : ¬ lengthLimit < (first :: more.map Letter.char).length) :
    readName start first c = upTo start (String.ofList (first :: more.map Letter.char))
      (kindOfName (String.ofList (first :: more.map Letter.char)) next.char)
      (pastAll c more (next :: rest)) := by
  have htake : c.ahead.takeWhile (isNameChar ·.char) = more := by
    rw [hc, List.takeWhile_append_of_pos hmore, List.takeWhile_cons, hnext]
    exact List.append_nil more
  have hdrop : c.ahead.dropWhile (isNameChar ·.char) = next :: rest := by
    rw [hc, List.dropWhile_append_of_pos hmore, List.dropWhile_cons, hnext]
    rfl
  have hkept : (first :: more.map Letter.char).take keptNameLength =
      first :: more.map Letter.char :=
    List.take_of_length_le (Nat.le_trans (Nat.le_of_not_lt hlong) (by decide))
  unfold readName
  rw [hdrop, htake]
  dsimp only
  rw [if_neg hpoint, if_neg hlong, hkept]

/-- A name that is no fault ends before a letter that is none of its own and no point. -/
theorem exists_next_of_readName {start : Nat} {first : Char}
    (h : ∀ f, (readName start first c).1.kind ≠ .fault f) :
    ∃ next rest, c.ahead.dropWhile (isNameChar ·.char) = next :: rest ∧ next.char ≠ '.' ∧
      ¬ lengthLimit <
        (first :: (c.ahead.takeWhile (isNameChar ·.char)).map Letter.char).length := by
  match readName start first c, nameRead start first c, h with
  | _, .ended _, h | _, .dotted .., h | _, .tooLong _, h => exact absurd rfl (h _)
  | _, .name hend hpoint hlong, _ => exact ⟨_, _, hend, hpoint, hlong⟩

theorem readName_verbatim {start : Nat} {first : Char}
    (h : ∀ f, (readName start first c).1.kind ≠ .fault f) :
    ∃ used, Verbatim (readName · first) [first] c (readName start first c) used := by
  obtain ⟨next, rest, hdrop, hpoint, hlong⟩ := exists_next_of_readName h
  let more := c.ahead.takeWhile (isNameChar ·.char)
  have hmore : ∀ l ∈ more, isNameChar l.char = true :=
    fun l hl => List.all_eq_true.mp List.all_takeWhile l hl
  have hahead : more ++ next :: rest = c.ahead := by
    rw [← hdrop]
    exact List.takeWhile_append_dropWhile
  have hnext : isNameChar next.char = false := by
    have hhead := List.head?_dropWhile_not (isNameChar ·.char) c.ahead
    rw [hdrop] at hhead
    exact hhead
  have hread := readName_of_append start first hahead.symm hmore hnext hpoint hlong
  have hchars : (pastAll c more (next :: rest)).chars = next.char :: rest.map Letter.char :=
    Cursor.chars_of_ahead (pastAll_ahead c more (next :: rest))
  rw [hread] at h ⊢
  refine ⟨more.map Letter.char, String.toList_ofList, ?_, fun k hk => ?_, ?_⟩
  · rw [Cursor.chars, ← hahead, List.map_append]
    exact congrArg (more.map Letter.char ++ ·) hchars.symm
  · obtain ⟨l, hl, rfl⟩ := List.mem_map.mp hk
    exact isPlain_of_isNameChar (hmore l hl)
  · rintro n d tail ⟨k, ks, k', rest', hk, rfl, habreast⟩ - hd
    obtain ⟨rfl, -⟩ := List.cons.inj (hchars.symm.trans hk)
    obtain ⟨more', after, hahead', hsame, hafter⟩ := List.map_eq_append_iff.mp hd
    obtain ⟨next', rest', rfl, rfl, rfl⟩ := List.map_eq_cons_iff.mp hafter
    obtain ⟨hnext', hpoint', hkind⟩ : isNameChar next'.char = false ∧ next'.char ≠ '.' ∧
        kindOfName (String.ofList (first :: more.map Letter.char)) next'.char =
          kindOfName (String.ofList (first :: more.map Letter.char)) next.char := by
      rcases habreast with heq | ⟨hbreak, hseparator⟩
      · rw [heq]
        exact ⟨hnext, hpoint, rfl⟩
      · have hbreak' := isBreak_of_isSeparator hseparator
        have hpoint' := eq_false_of_isBreak (p := (· == '.')) hbreak' (by decide)
        exact ⟨eq_false_of_isBreak hbreak' (by decide), ne_of_beq_false hpoint',
          kindOfName_of_isBreak hbreak hseparator h⟩
    have hmore' : ∀ l ∈ more', isNameChar l.char = true := by
      intro l hl
      have hmem : l.char ∈ more.map Letter.char := hsame ▸ List.mem_map_of_mem hl
      obtain ⟨m, hm, heq⟩ := List.mem_map.mp hmem
      exact heq ▸ hmore m hm
    rw [← hsame] at hlong hkind ⊢
    rw [readName_of_append n first hahead' hmore' hnext' hpoint' hlong, hkind]
    exact ⟨rfl, Cursor.chars_of_ahead (pastAll_ahead d more' (next' :: rest'))⟩

/-- Before what ends an operator alike its second letter is missing as well. -/
theorem after?_of_abreast {second : Char} {d : Cursor} {tail : List Char}
    (hsecond : isSeparator second = false) (hafter : after? second c = none)
    (habreast : Abreast c.chars tail) (hd : d.chars = tail) : after? second d = none := by
  obtain ⟨k, rest, k', rest', hk, rfl, habreast⟩ := habreast
  obtain ⟨l, rest, hl, rfl, -⟩ := ahead_of_chars hk
  obtain ⟨l', rest', hl', rfl, -⟩ := ahead_of_chars hd
  have hne : l.char ≠ second := by
    intro heq
    rw [after?, hl] at hafter
    dsimp only at hafter
    rw [if_pos heq] at hafter
    cases hafter
  rw [after?, hl']
  refine if_neg fun heq => ?_
  rcases habreast with hsame | ⟨-, hseparator⟩
  · exact hne (hsame ▸ heq)
  · rw [heq, hsecond] at hseparator
    cases hseparator

theorem readDoubled_verbatim {start : Nat} {first second : Char} (hplain : isPlain second = true)
    (hsecond : isSeparator second = false) :
    ∃ used, Verbatim (readDoubled · first second) [first] c (readDoubled start first second c)
      used := by
  cases hafter : after? second c with
  | some c' =>
    obtain ⟨hchars, hagain⟩ := after?_verbatim hafter
    rw [readDoubled_of_some hafter]
    refine ⟨[second], String.toList_ofList, hchars, by simpa using hplain, fun n d tail _ _ hd => ?_⟩
    obtain ⟨d', hd', htail⟩ := hagain d tail hd
    rw [readDoubled_of_some hd']
    exact ⟨rfl, htail⟩
  | none =>
    rw [readDoubled_of_none hafter]
    refine ⟨[], String.toList_singleton first, rfl, nofun, fun n d tail habreast _ hd => ?_⟩
    rw [readDoubled_of_none (after?_of_abreast hsecond hafter habreast hd)]
    exact ⟨rfl, hd⟩

theorem readParen_verbatim (start : Nat) :
    ∃ used, Verbatim readParen ['('] c (readParen start c) used := by
  have lone (n : Nat) {d : Cursor} (hd : pair? d = none) :
      readParen n d = upTo n "(" .leftParen d := by
    rw [readParen, hd]
  have paired (n : Nat) {d d' : Cursor} {text : String} {x y : Float}
      (hd : pair? d = some (text, x, y, d')) : readParen n d = upTo n text (.pair x y) d' := by
    rw [readParen, hd]
  cases hpair : pair? c with
  | none =>
    rw [lone start hpair]
    have htext : "(".toList = ['('] := by decide
    refine ⟨[], htext, rfl, nofun, fun n d tail _ hlone hd => ?_⟩
    rw [lone n (hlone rfl d hd)]
    exact ⟨rfl, hd⟩
  | some r =>
    obtain ⟨text, x, y, c'⟩ := r
    obtain ⟨used, htext, hused, hchars, hagain⟩ := pair?_verbatim hpair
    rw [paired start hpair]
    refine ⟨used ++ [')'], htext, ?_, fun k hk => ?_, fun n d tail _ _ hd => ?_⟩
    · rw [hchars, List.append_assoc]
      rfl
    · rcases List.mem_append.mp hk with hk | hk
      · rcases hused k hk with hk | rfl
        · exact isPlain_of_isNumeric hk
        · decide
      · rw [List.mem_singleton.mp hk]
        decide
    · rw [List.append_assoc] at hd
      obtain ⟨d', hd', htail⟩ := hagain d tail hd
      rw [paired n hd']
      exact ⟨rfl, htail⟩

theorem plain_of_secondOf {mark second : Char} (h : secondOf mark = some second) :
    isPlain mark = true ∧ isBreak mark = false ∧ isPlain second = true ∧
      isSeparator second = false := by
  unfold secondOf at h
  split at h
  all_goals first
    | (cases h; decide)
    | cases h

theorem plain_of_find? {mark : Char} {o : Operator} (h : Operator.find? (ofChar mark) = some o) :
    isPlain mark = true := by
  have hsymbol : o.symbol.toList = [mark] := by
    rw [symbol_of_find? h, ofChar, String.toList_singleton]
  cases o <;>
  · obtain rfl := (List.cons.inj hsymbol).1
    decide

/-- A mark that neither ends a statement nor the body. -/
theorem readMark_verbatim {start : Nat} {mark : Char}
    (h : ∀ f, (readMark start mark c).1.kind ≠ .fault f)
    (hends : ¬ (readMark start mark c).1.lexeme.Separates) :
    isPlain mark = true ∧ isBreak mark = false ∧
      ∃ used, Verbatim (readMark · mark) [mark] c (readMark start mark c) used := by
  cases hsecond : secondOf mark with
  | some second =>
    have hread : (readMark · mark) = (readDoubled · mark second) := by
      funext n d
      rw [readMark, hsecond]
    obtain ⟨hmark, hbreak, hplain, hseparator⟩ := plain_of_secondOf hsecond
    rw [congrFun (congrFun hread start) c, hread]
    exact ⟨hmark, hbreak, readDoubled_verbatim hplain hseparator⟩
  | none =>
    have alone {text : String} {kind : Kind} (htext : text.toList = [mark])
        (hread : ∀ n d, readMark n mark d = upTo n text kind d) :
        Verbatim (readMark · mark) [mark] c (readMark start mark c) [] := by
      rw [hread]
      refine ⟨htext, rfl, fun k hk => absurd hk List.not_mem_nil, fun n d tail _ _ hd => ?_⟩
      rw [hread]
      exact ⟨rfl, hd⟩
    have hbrace : mark ≠ '}' := by
      rintro rfl
      exact hends trivial
    by_cases hright : mark = ')'
    · subst hright
      exact ⟨by decide, by decide, [], alone (by decide) fun _ _ => rfl⟩
    by_cases hleft : mark = '('
    · subst hleft
      exact ⟨by decide, by decide, readParen_verbatim start⟩
    unfold readMark at h hends
    rw [hsecond] at h hends
    dsimp only at h hends
    rw [if_neg hbrace, if_neg hright, if_neg hleft] at h hends
    have hseparator : ¬ isSeparator mark = true := by
      intro hseparator
      rw [if_pos hseparator] at hends
      exact hends (separates_readSeparators start mark c)
    rw [if_neg hseparator] at h
    cases hfind : Operator.find? (ofChar mark) with
    | none =>
      rw [hfind] at h
      exact absurd rfl (h _)
    | some o =>
      have hread (n : Nat) (d : Cursor) :
          readMark n mark d = upTo n (ofChar mark) (.operator o) d := by
        unfold readMark
        rw [hsecond]
        dsimp only
        rw [if_neg hbrace, if_neg hright, if_neg hleft, if_neg hseparator, hfind]
      have hbreak : isBreak mark = false := by
        rw [isBreak, Bool.eq_false_iff.mpr hseparator, beq_eq_false_iff_ne.mpr hbrace]
        rfl
      exact ⟨plain_of_find? hfind, hbreak, [], alone (String.toList_singleton mark) hread⟩

/-- A token is read by its first letter. -/
theorem Verbatim.cons {reader : Nat → Cursor → Token × Cursor} {l : Letter} {rest : List Letter}
    {used : List Char} (hc : c.ahead = l :: rest)
    (h : Verbatim reader [l.char] (c.past l rest) (read c) used)
    (hreader : ∀ {d m after}, d.ahead = m :: after → m.char = l.char →
      read d = reader m.offset (d.past m after)) (hplain : isPlain l.char = true) :
    Verbatim (fun _ => read) [] c (read c) (l.char :: used) := by
  refine ⟨h.text, ?_, List.forall_mem_cons.mpr ⟨hplain, h.plain⟩,
    fun _ d tail habreast hlone hd => ?_⟩
  · rw [Cursor.chars_of_ahead hc]
    exact congrArg (l.char :: ·) h.chars
  · obtain ⟨m, after, hd, hm, hafter⟩ := ahead_of_chars hd
    rw [hreader hd hm]
    exact h.again m.offset (d.past m after) tail habreast hlone hafter

/-- A token that is no fault and separates nothing is made of the letters it was read from, and the
first is no break. -/
theorem read_verbatim (h : ∀ f, (read c).1.kind ≠ .fault f) (hends : ¬ (read c).1.lexeme.Separates) :
    ∃ first used, isBreak first = false ∧
      Verbatim (fun _ => read) [] c (read c) (first :: used) := by
  cases hc : c.ahead with
  | nil =>
    rw [read, hc] at h
    exact absurd rfl (h _)
  | cons l rest =>
    by_cases hnumber : (l.char.isDigit || decide (l.char = '.')) = true
    · have hreader {d : Cursor} {m : Letter} {after : List Letter} (hd : d.ahead = m :: after)
          (hm : m.char = l.char) : read d = readNumber m.offset l.char (d.past m after) := by
        rw [read_of_ahead hd, hm, if_pos hnumber]
      have hbreak : isBreak l.char = false :=
        isBreak_eq_false (p := fun k => k.isDigit || decide (k = '.')) hnumber (by decide)
      have hplain : isPlain l.char = true := by
        rcases Bool.or_eq_true_iff.mp hnumber with hdigit | hpoint
        · refine isPlain_of_isNumeric ?_
          rw [isNumeric, hdigit]
          rfl
        · rw [of_decide_eq_true hpoint]
          decide
      rw [hreader hc rfl] at h
      obtain ⟨used, hverbatim⟩ := readNumber_verbatim h
      rw [← hreader hc rfl] at hverbatim
      exact ⟨l.char, used, hbreak, hverbatim.cons hc hreader hplain⟩
    by_cases hname : isNameStart l.char = true
    · have hreader {d : Cursor} {m : Letter} {after : List Letter} (hd : d.ahead = m :: after)
          (hm : m.char = l.char) : read d = readName m.offset l.char (d.past m after) := by
        rw [read_of_ahead hd, hm, if_neg hnumber, if_pos hname]
      have hplain : isPlain l.char = true := by
        refine isPlain_of_isNameChar ?_
        rcases Bool.or_eq_true_iff.mp hname with halpha | hunderscore
        · rw [isNameChar, Char.isAlphanum, halpha]
          rfl
        · rw [isNameChar, hunderscore, Bool.or_true]
      rw [hreader hc rfl] at h
      obtain ⟨used, hverbatim⟩ := readName_verbatim h
      rw [← hreader hc rfl] at hverbatim
      exact ⟨l.char, used, isBreak_eq_false hname (by decide), hverbatim.cons hc hreader hplain⟩
    · have hreader {d : Cursor} {m : Letter} {after : List Letter} (hd : d.ahead = m :: after)
          (hm : m.char = l.char) : read d = readMark m.offset l.char (d.past m after) := by
        rw [read_of_ahead hd, hm, if_neg hnumber, if_neg hname]
      rw [hreader hc rfl] at h hends
      obtain ⟨hplain, hbreak, used, hverbatim⟩ := readMark_verbatim h hends
      rw [← hreader hc rfl] at hverbatim
      exact ⟨l.char, used, hbreak, hverbatim.cons hc hreader hplain⟩

/-! ## Separators -/

/-- The symbol of what ends a statement is one separator, and tells which it is. -/
theorem exists_symbol {o : Operator} (ho : o.endsStatement = true) : ∃ s, o.symbol.toList = [s] ∧
    isSeparator s = true ∧ (if s == ':' then Operator.colon else Operator.comma) = o := by
  cases o with
  | comma => exact ⟨',', by decide, rfl, rfl⟩
  | colon => exact ⟨':', by decide, rfl, rfl⟩
  | _ => cases ho

theorem isSeparator_of_find? {text : String} {o : Operator} {mark : Char} {more : List Char}
    (h : Operator.find? text = some o) (htext : text.toList = mark :: more)
    (ho : o.endsStatement = true) : isSeparator mark = true := by
  obtain ⟨s, hs, hseparator, -⟩ := exists_symbol ho
  rw [symbol_of_find? h, htext] at hs
  exact (List.cons.inj hs).1 ▸ hseparator

theorem not_separates_kindOfName (name : String) (next : Char) (place : Span) :
    ¬ (Token.mk name (kindOfName name next) place).lexeme.Separates := by
  intro h
  unfold kindOfName at h
  repeat' split at h
  all_goals exact h.elim

theorem not_separates_readName (start : Nat) (first : Char) (c : Cursor) :
    ¬ (readName start first c).1.lexeme.Separates := by
  match readName start first c, nameRead start first c with
  | _, .ended _ | _, .dotted .. | _, .tooLong _ => exact False.elim
  | _, .name .. => exact not_separates_kindOfName _ _ _

theorem not_separates_readNumber (start : Nat) (first : Char) (c : Cursor) :
    ¬ (readNumber start first c).1.lexeme.Separates := by
  match readNumber start first c, numberRead start first c with
  | _, .number _ | _, .fault _ => exact False.elim

theorem isSeparator_of_kindOfOperator {start : Nat} {text : String} {mark : Char}
    {more : List Char} (htext : text.toList = mark :: more)
    (h : (upTo start text (kindOfOperator text) c).1.lexeme.Separates) :
    isSeparator mark = true := by
  rcases kindOfOperator_cases text with ⟨o, hfind, hkind⟩ | hkind
  · rw [hkind] at h
    exact isSeparator_of_find? hfind htext h
  · rw [hkind] at h
    exact h.elim

/-- A mark that separates is the brace or a separator. -/
theorem readMark_of_separates {start : Nat} {mark : Char}
    (h : (readMark start mark c).1.lexeme.Separates) :
    mark = '}' ∧ readMark start mark c = upTo start "\x7d" .close c ∨
      isSeparator mark = true ∧ readMark start mark c = readSeparators start mark c := by
  have doubled {second : Char} (hsecond : secondOf mark = some second) :
      ¬ isSeparator mark = true := by
    intro hseparator
    have hbreak := (plain_of_secondOf hsecond).2.1
    rw [isBreak_of_isSeparator hseparator] at hbreak
    cases hbreak
  match readMark start mark c, markRead start mark c, h with
  | _, .two hsecond _, h =>
    exact absurd (isSeparator_of_kindOfOperator String.toList_ofList h) (doubled hsecond)
  | _, .one hsecond _, h =>
    exact absurd (isSeparator_of_kindOfOperator (String.toList_singleton mark) h) (doubled hsecond)
  | _, .brace hmark, _ => exact .inl ⟨hmark, rfl⟩
  | _, .leftParen _, h =>
    match readParen start c, parenRead start c, h with
    | _, .pair _, h | _, .single _, h => exact h.elim
  | _, .separator hmark, _ => exact .inr ⟨hmark, rfl⟩
  | _, .operator _ _ hmark hfind, h =>
    have hseparator := isSeparator_of_find? hfind (String.toList_singleton mark) h
    exact absurd hseparator (Bool.eq_false_iff.mp hmark)
  | _, .rightParen _, h | _, .other .., h => exact h.elim

/-- What separates begins with the brace or with a separator. -/
theorem read_of_separates (h : (read c).1.lexeme.Separates) : ∃ l rest, c.ahead = l :: rest ∧
    (l.char = '}' ∧ read c = upTo l.offset "\x7d" .close (c.past l rest) ∨
      isSeparator l.char = true ∧ read c = readSeparators l.offset l.char (c.past l rest)) := by
  cases hc : c.ahead with
  | nil =>
    rw [read, hc] at h
    exact h.elim
  | cons l rest =>
    refine ⟨l, rest, rfl, ?_⟩
    rw [read_of_ahead hc] at h ⊢
    split at h
    · exact absurd h (not_separates_readNumber _ _ _)
    rename_i hnumber
    split at h
    · exact absurd h (not_separates_readName _ _ _)
    rename_i hname
    rw [if_neg hnumber, if_neg hname]
    exact readMark_of_separates h

/-- A token that separates begins with a break. -/
theorem exists_break_of_separates (h : (read c).1.lexeme.Separates) :
    ∃ k rest, c.chars = k :: rest ∧ isBreak k = true := by
  obtain ⟨l, rest, hc, hl⟩ := read_of_separates h
  refine ⟨l.char, _, Cursor.chars_of_ahead hc, ?_⟩
  rcases hl with ⟨hbrace, -⟩ | ⟨hseparator, -⟩
  · rw [hbrace]
    rfl
  · exact isBreak_of_isSeparator hseparator

/-- No break follows a run of separators. -/
theorem not_isBreak_behind {k : Char} {rest : List Char}
    (hend : ∀ next rest, c.ahead.dropWhile (isSeparator ·.char) = next :: rest → next.char ≠ '}')
    (hd : (pastAll c (c.ahead.takeWhile (isSeparator ·.char))
      (c.ahead.dropWhile (isSeparator ·.char))).chars = k :: rest) : isBreak k = false := by
  have hbehind := List.head?_dropWhile_not (isSeparator ·.char) c.ahead
  rw [Cursor.chars, pastAll_ahead] at hd
  obtain ⟨next, rest', hdrop, rfl, -⟩ := List.map_eq_cons_iff.mp hd
  rw [hdrop] at hbehind
  rw [isBreak, hbehind, beq_eq_false_iff_ne.mpr (hend next rest' hdrop)]
  rfl

/-- The token that closes a body is spelled with its brace. -/
theorem spelling_of_close (h : (read c).1.kind = .close) :
    (read c).1.spelling = ("\x7d", .close) := by
  have hends : (read c).1.lexeme.Separates := by
    rw [lexeme, h]
    trivial
  obtain ⟨l, rest, -, ⟨-, hread⟩ | ⟨-, hread⟩⟩ := read_of_separates hends
  · rw [hread]
    rfl
  · rw [hread] at h ⊢
    match readSeparators l.offset l.char (c.past l rest),
      separatorsRead l.offset l.char (c.past l rest), h with
    | _, .brace .., _ => rfl
    | _, .run _, h => cases h

/-- A token that ends a statement has its symbol for a text, and no separator follows it. -/
theorem spelling_of_endsStatement {o : Operator} (h : (read c).1.kind = .operator o)
    (ho : o.endsStatement = true) :
    (read c).1.spelling = (o.symbol, .operator o) ∧
      ∀ k rest, (read c).2.chars = k :: rest → isBreak k = false := by
  have hends : (read c).1.lexeme.Separates := by
    rw [lexeme, h]
    exact ho
  obtain ⟨l, rest, -, ⟨-, hread⟩ | ⟨-, hread⟩⟩ := read_of_separates hends
  · rw [hread] at h
    cases h
  · rw [hread] at h ⊢
    match readSeparators l.offset l.char (c.past l rest),
      separatorsRead l.offset l.char (c.past l rest), h with
    | _, .brace .., h => cases h
    | _, .run hend, h =>
      obtain rfl := Kind.operator.inj h
      exact ⟨rfl, fun k rest hd => not_isBreak_behind hend hd⟩

/-- The symbol of a separator is read again as that separator. -/
theorem read_symbol {d : Cursor} {o : Operator} {k : Char} {rest : List Char}
    (ho : o.endsStatement = true) (hk : isBreak k = false)
    (hd : d.chars = o.symbol.toList ++ k :: rest) :
    (read d).1.spelling = (o.symbol, .operator o) ∧ (read d).2.chars = k :: rest := by
  obtain ⟨hseparator, hbrace⟩ := Bool.or_eq_false_iff.mp hk
  obtain ⟨s, hs, hseparates, hsame⟩ := exists_symbol ho
  rw [hs] at hd
  obtain ⟨l, behind, hl, rfl, hbehind⟩ := ahead_of_chars hd
  obtain ⟨m, after, rfl, rfl, rfl⟩ := List.map_eq_cons_iff.mp hbehind
  have hread : readSeparators l.offset l.char (d.past l (m :: after)) =
      upTo l.offset o.symbol (.operator o) (d.past l (m :: after)) := by
    have htake : (m :: after).takeWhile (isSeparator ·.char) = [] := by
      rw [List.takeWhile_cons, hseparator]
      rfl
    have hdrop : (m :: after).dropWhile (isSeparator ·.char) = m :: after := by
      rw [List.dropWhile_cons, hseparator]
      rfl
    have hahead : (d.past l (m :: after)).ahead = m :: after := rfl
    unfold readSeparators
    rw [hahead, htake, hdrop]
    dsimp only
    rw [if_neg (ne_of_beq_false hbrace), List.any_nil, Bool.or_false, hsame]
    rfl
  rw [read_of_separator hl (eq_of_isSeparator hseparates), hread]
  exact ⟨rfl, rfl⟩

end Token
end FractalFormula
