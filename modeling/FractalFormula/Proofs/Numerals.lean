/-
Numbers are read again from their own texts.

Behind the letters of a number a reader looks at one letter more, and only to see that the number is
over.  So other letters may follow, as long as they begin alike or a separator has come in place of a
break (`Token.Abreast`).  A pair ends with its own parenthesis, and anything may follow that.
-/
import FractalFormula.Proofs.Letters
import FractalFormula.Proofs.Separators

namespace FractalFormula
namespace Token

/-- A separator or the closing brace. -/
def isBreak (k : Char) : Bool :=
  isSeparator k || k == '}'

/-- Letters that end the token before them alike: they begin with the same letter, or a separator
stands where a statement ends. -/
def Abreast (tail tail' : List Char) : Prop :=
  ∃ k rest k' rest', tail = k :: rest ∧ tail' = k' :: rest' ∧
    (k' = k ∨ isBreak k = true ∧ isSeparator k' = true)

theorem isBreak_of_isSeparator {k : Char} (h : isSeparator k = true) : isBreak k = true := by
  rw [isBreak, h]
  rfl

theorem eq_of_isSeparator {k : Char} (h : isSeparator k = true) : k = ',' ∨ k = '\n' ∨ k = ':' := by
  simpa [isSeparator, or_assoc] using h

/-- What a separator is not and the brace is not no break is. -/
theorem eq_false_of_isBreak {p : Char → Bool} {k : Char} (h : isBreak k = true)
    (hp : p ',' = false ∧ p '\n' = false ∧ p ':' = false ∧ p '}' = false) : p k = false := by
  obtain ⟨hcomma, hline, hcolon, hbrace⟩ := hp
  rcases Bool.or_eq_true_iff.mp h with h | h
  · rcases eq_of_isSeparator h with rfl | rfl | rfl
    · exact hcomma
    · exact hline
    · exact hcolon
  · rw [eq_of_beq h]
    exact hbrace

theorem isBreak_eq_false {p : Char → Bool} {k : Char} (h : p k = true)
    (hp : p ',' = false ∧ p '\n' = false ∧ p ':' = false ∧ p '}' = false) : isBreak k = false := by
  refine Bool.eq_false_iff.mpr fun hbreak => ?_
  rw [eq_false_of_isBreak hbreak hp] at h
  cases h

/-- The letters of number literals. -/
def isNumeric (k : Char) : Bool :=
  k.isDigit || k == '.' || k == 'e' || k == '+' || k == '-'

/-! ## Numbers -/

namespace Numeral

/-- A number takes in its own letters only. -/
theorem isNumeric_of_grow {d d' : Draft} {k : Char} {rest : List Letter}
    (h : d.turn k rest = .grow d') (hsign : d.sign = true → isNumeric k = true) :
    isNumeric k = true ∧ d'.text = k :: d.text ∧
      (d'.sign = true → ∃ s rest', rest = s :: rest' ∧ isNumeric s.char = true) := by
  unfold Draft.turn at h
  by_cases hs : d.sign = true
  · rw [if_pos hs] at h
    cases h
    exact ⟨hsign hs, rfl, fun h => Bool.noConfusion h⟩
  rw [if_neg hs] at h
  by_cases hdigit : k.isDigit = true
  · rw [if_pos hdigit] at h
    cases h
    refine ⟨?_, rfl, fun h => absurd h hs⟩
    rw [isNumeric, hdigit]
    rfl
  rw [if_neg hdigit] at h
  by_cases hpoint : k = '.'
  · rw [if_pos hpoint] at h
    split at h
    · cases h
    · cases h
      rw [hpoint]
      exact ⟨rfl, rfl, fun h => absurd h hs⟩
  rw [if_neg hpoint] at h
  by_cases hexponent : (decide (k = 'e') && d.takesExponent) = true
  · rw [if_pos hexponent] at h
    cases h
    have he : k = 'e' := by simpa using (Bool.and_eq_true_iff.mp hexponent).1
    rw [he]
    refine ⟨rfl, rfl, fun hahead => ?_⟩
    cases rest with
    | nil => cases hahead
    | cons s rest =>
      refine ⟨s, rest, rfl, ?_⟩
      have hsign : (s.char == '+' || s.char == '-') = true := hahead
      rw [isNumeric, Bool.or_assoc, hsign, Bool.or_true]
  · rw [if_neg hexponent] at h
    split at h <;> cases h

theorem signAhead_eq {rest : List Letter} {k : Char} {ks : List Char}
    (h : rest.map Letter.char = k :: ks) : signAhead rest = (k == '+' || k == '-') := by
  obtain ⟨l, rest, rfl, rfl, -⟩ := List.map_eq_cons_iff.mp h
  rfl

/-- What a letter does to a draft that awaits no exponent does not depend on the letters behind. -/
theorem turn_of_signAhead {d : Draft} {k : Char} {rest rest' : List Letter}
    (h : k = 'e' → d.takesExponent = true → signAhead rest = signAhead rest') :
    d.turn k rest = d.turn k rest' := by
  unfold Draft.turn
  by_cases hexponent : (decide (k = 'e') && d.takesExponent) = true
  · obtain ⟨hk, htakes⟩ := Bool.and_eq_true_iff.mp hexponent
    rw [h (of_decide_eq_true hk) htakes]
  · rw [if_neg hexponent, if_neg hexponent]

/-- A number is over at a letter that is part of no name and no number. -/
theorem turn_eq_complete {d : Draft} {k : Char} {rest : List Letter} :
    d.turn k rest = .complete ↔
      d.sign = false ∧ d.incomplete = false ∧ (isNameChar k || k == '.') = false := by
  have hkind : (isNameChar k || k == '.') = (k.isDigit || k == '.' || (k.isAlpha || k == '_')) := by
    rw [isNameChar, Char.isAlphanum]
    cases k.isAlpha <;> cases k.isDigit <;> cases k == '_' <;> cases k == '.' <;> rfl
  rw [hkind]
  unfold Draft.turn
  by_cases hs : d.sign = true
  · simp [hs]
  by_cases hdigit : k.isDigit = true
  · simp [hs, hdigit]
  by_cases hpoint : k = '.'
  · rw [if_neg hs, if_neg hdigit, if_pos hpoint]
    split <;> simp [hpoint]
  by_cases hexponent : (decide (k = 'e') && d.takesExponent) = true
  · have he : k = 'e' := of_decide_eq_true (Bool.and_eq_true_iff.mp hexponent).1
    rw [if_neg hs, if_neg hdigit, if_neg hpoint, if_pos hexponent, he]
    simp
  · rw [if_neg hs, if_neg hdigit, if_neg hpoint, if_neg hexponent]
    cases k.isAlpha <;> cases hi : d.incomplete <;> by_cases hu : k = '_' <;> simp_all

/-- Where a number is over it is over before any letter that ends tokens alike. -/
theorem turn_of_abreast {d : Draft} {k k' : Char} {rest rest' : List Letter}
    (h : d.turn k rest = .complete) (hk : k' = k ∨ isBreak k = true ∧ isSeparator k' = true) :
    d.turn k' rest' = .complete := by
  rw [turn_eq_complete] at h ⊢
  obtain ⟨hsign, hincomplete, hstop⟩ := h
  refine ⟨hsign, hincomplete, ?_⟩
  rcases hk with rfl | ⟨-, hk⟩
  · exact hstop
  · exact eq_false_of_isBreak (p := fun k => isNameChar k || k == '.') (isBreak_of_isSeparator hk)
      (by decide)

/-- The letters that a number is made of are read again before any that end it alike. -/
theorem readFrom_verbatim {d : Draft} {place : Cursor} {ahead : List Letter} {x : Float}
    (h : (readFrom d place ahead).value = .ok x)
    (hsign : d.sign = true → ∃ k rest, ahead = k :: rest ∧ isNumeric k.char = true) :
    ∃ used, (readFrom d place ahead).text = d.text.reverse ++ used ∧
      ahead.map Letter.char = used ++ (readFrom d place ahead).cursor.chars ∧
      (∀ k ∈ used, isNumeric k = true) ∧ (d.incomplete = true → used ≠ []) ∧
      ∀ (place' : Cursor) (ahead' : List Letter) (tail : List Char),
        Abreast (readFrom d place ahead).cursor.chars tail →
        ahead'.map Letter.char = used ++ tail →
        (readFrom d place' ahead').text = (readFrom d place ahead).text ∧
          (readFrom d place' ahead').value = .ok x ∧
          (readFrom d place' ahead').cursor.chars = tail := by
  induction ahead generalizing d place with
  | nil => simp [readFrom, Draft.fail] at h
  | cons l rest ih =>
    rw [readFrom] at h ⊢
    cases hturn : d.turn l.char rest with
    | spoil d' =>
      rw [hturn] at h
      simp [Draft.fail] at h
    | complete =>
      rw [hturn] at h
      refine ⟨[], by rw [List.append_nil]; rfl, rfl,
        fun k hk => absurd hk List.not_mem_nil, ?_, ?_⟩
      · intro hincomplete
        rw [(turn_eq_complete.mp hturn).2.1] at hincomplete
        cases hincomplete
      · rintro place' ahead' tail ⟨k, ks, k', ks', hk, rfl, habreast⟩ hahead'
        obtain ⟨l', rest', rfl, hl', hrest'⟩ := List.map_eq_cons_iff.mp hahead'
        obtain ⟨rfl, -⟩ := List.cons.inj hk
        rw [readFrom, hl', turn_of_abreast hturn habreast]
        exact ⟨rfl, h, congrArg₂ List.cons hl' hrest'⟩
    | grow d' =>
      obtain ⟨hl, htext, hsign'⟩ := isNumeric_of_grow hturn fun hs => by
        obtain ⟨k, ks, hk, hnumeric⟩ := hsign hs
        obtain ⟨rfl, -⟩ := List.cons.inj hk
        exact hnumeric
      rw [hturn] at h
      dsimp only at h ⊢
      by_cases hlong : (d'.tooLong && !d'.sign) = true
      · rw [if_pos hlong] at h
        simp [Draft.fail] at h
      · rw [if_neg hlong] at h ⊢
        obtain ⟨used, hresult, hrest, hused, hgoes, hagain⟩ := ih h hsign'
        refine ⟨l.char :: used, ?_, congrArg (l.char :: ·) hrest, ?_,
          fun _ => List.cons_ne_nil _ _, ?_⟩
        · rw [hresult, htext, List.reverse_cons, List.append_assoc]
          rfl
        · exact List.forall_mem_cons.mpr ⟨hl, hused⟩
        · intro place' ahead' tail habreast hahead'
          obtain ⟨l', rest', rfl, hl', hrest'⟩ := List.map_eq_cons_iff.mp hahead'
          have hsame : d.turn l'.char rest' = .grow d' := by
            rw [hl', ← hturn]
            refine turn_of_signAhead fun he _ => ?_
            have hincomplete : d'.incomplete = true := by
              rw [Draft.incomplete, htext, he]
              rfl
            obtain ⟨k, used, rfl⟩ := List.exists_cons_of_ne_nil (hgoes hincomplete)
            rw [signAhead_eq hrest', signAhead_eq hrest]
          rw [readFrom, hsame]
          dsimp only
          rw [if_neg hlong]
          exact hagain _ _ tail habreast hrest'

end Numeral

variable {c c' : Cursor}

theorem numeral_verbatim {first : Char} {x : Float} (h : (Numeral.read first c).value = .ok x) :
    ∃ used, (Numeral.read first c).text = first :: used ∧
      c.chars = used ++ (Numeral.read first c).cursor.chars ∧
      (∀ k ∈ used, isNumeric k = true) ∧
      ∀ (d : Cursor) (tail : List Char), Abreast (Numeral.read first c).cursor.chars tail →
        d.chars = used ++ tail →
        (Numeral.read first d).text = first :: used ∧ (Numeral.read first d).value = .ok x ∧
          (Numeral.read first d).cursor.chars = tail := by
  obtain ⟨used, htext, hchars, hused, -, hagain⟩ :=
    Numeral.readFrom_verbatim h fun hsign => Bool.noConfusion hsign
  refine ⟨used, htext, hchars, hused, fun d tail habreast hd => ?_⟩
  obtain ⟨htext', hvalue, hcursor⟩ := hagain d d.ahead tail habreast hd
  exact ⟨htext'.trans htext, hvalue, hcursor⟩

/-! ## Pairs -/

theorem ahead_of_chars {k : Char} {ks : List Char} (h : c.chars = k :: ks) :
    ∃ l rest, c.ahead = l :: rest ∧ l.char = k ∧ rest.map Letter.char = ks :=
  List.map_eq_cons_iff.mp h

/-- The number that begins with the first letter of `ahead`. -/
def numberAt (place : Cursor) (l : Letter) (rest : List Letter) : Numeral :=
  Numeral.read l.char (place.past l rest)

theorem numberAt_verbatim {l : Letter} {rest : List Letter} {x : Float}
    (hl : (l.char.isDigit || decide (l.char = '.')) = true)
    (h : (numberAt c l rest).value = .ok x) :
    l.char :: rest.map Letter.char = (numberAt c l rest).text ++ (numberAt c l rest).cursor.chars ∧
      (∀ k ∈ (numberAt c l rest).text, isNumeric k = true) ∧
      ∀ (d : Cursor) (ahead : List Letter) (tail : List Char),
        Abreast (numberAt c l rest).cursor.chars tail →
        ahead.map Letter.char = (numberAt c l rest).text ++ tail →
        ∃ l' rest', ahead = l' :: rest' ∧ l'.char = l.char ∧
          (numberAt d l' rest').text = (numberAt c l rest).text ∧
          (numberAt d l' rest').value = .ok x ∧ (numberAt d l' rest').cursor.chars = tail := by
  obtain ⟨used, htext, hchars, hused, hagain⟩ := numeral_verbatim h
  have hfirst : isNumeric l.char = true := by
    rcases Bool.or_eq_true_iff.mp hl with hdigit | hpoint
    · rw [isNumeric, hdigit]
      rfl
    · rw [of_decide_eq_true hpoint]
      rfl
  have htext : (numberAt c l rest).text = l.char :: used := htext
  rw [htext]
  refine ⟨congrArg (l.char :: ·) hchars, List.forall_mem_cons.mpr ⟨hfirst, hused⟩,
    fun d ahead tail habreast hahead => ?_⟩
  obtain ⟨l', rest', rfl, hl', hrest'⟩ := List.map_eq_cons_iff.mp hahead
  refine ⟨l', rest', rfl, hl', ?_⟩
  rw [numberAt, hl']
  exact hagain (d.past l' rest') tail habreast hrest'

theorem part?_of_minus {l m : Letter} {rest : List Letter} (hc : c.ahead = l :: m :: rest)
    (hl : l.char = '-') (hm : (m.char.isDigit || decide (m.char = '.')) = true) {x : Float}
    (hx : (numberAt c m rest).value = .ok x) :
    part? c = some ('-' :: (numberAt c m rest).text, -x, (numberAt c m rest).cursor) := by
  have hx : (Numeral.read m.char (c.past m rest)).value = .ok x := hx
  rw [part?, hc]
  dsimp only
  rw [if_pos hl, if_pos hm, hx]
  rfl

theorem part?_of_number {l : Letter} {rest : List Letter} (hc : c.ahead = l :: rest)
    (hl : (l.char.isDigit || decide (l.char = '.')) = true) {x : Float}
    (hx : (numberAt c l rest).value = .ok x) :
    part? c = some ((numberAt c l rest).text, x, (numberAt c l rest).cursor) := by
  have hx : (Numeral.read l.char (c.past l rest)).value = .ok x := hx
  have hminus : l.char ≠ '-' := by
    intro h
    rw [h] at hl
    exact absurd hl (by decide)
  rw [part?, hc]
  dsimp only
  rw [if_neg hminus, if_pos hl, hx]
  rfl

/-- A part of a pair is a number, perhaps with a minus sign before it. -/
theorem number_of_part? {text : List Char} {x : Float} (h : part? c = some (text, x, c')) :
    (∃ l m rest y, c.ahead = l :: m :: rest ∧ l.char = '-' ∧
      (m.char.isDigit || decide (m.char = '.')) = true ∧ (numberAt c m rest).value = .ok y) ∨
    ∃ l rest y, c.ahead = l :: rest ∧ (l.char.isDigit || decide (l.char = '.')) = true ∧
      (numberAt c l rest).value = .ok y := by
  unfold part? at h
  split at h
  · cases h
  · rename_i l rest hc
    split at h
    · rename_i hminus
      split at h
      · cases h
      · rename_i m rest
        split at h
        · rename_i hm
          dsimp only at h
          split at h
          · rename_i y hvalue
            exact .inl ⟨l, m, rest, y, hc, hminus, hm, hvalue⟩
          · cases h
        · cases h
    · split at h
      · rename_i hl
        dsimp only at h
        split at h
        · rename_i y hvalue
          exact .inr ⟨l, rest, y, hc, hl, hvalue⟩
        · cases h
      · cases h

theorem part?_verbatim {text : List Char} {x : Float} (h : part? c = some (text, x, c')) :
    c.chars = text ++ c'.chars ∧ (∀ k ∈ text, isNumeric k = true) ∧
      ∀ (d : Cursor) (tail : List Char), Abreast c'.chars tail → d.chars = text ++ tail →
        ∃ d', part? d = some (text, x, d') ∧ d'.chars = tail := by
  rcases number_of_part? h with ⟨l, m, rest, y, hc, hl, hm, hvalue⟩ | ⟨l, rest, y, hc, hl, hvalue⟩
  · obtain ⟨hchars, hnumeric, hagain⟩ := numberAt_verbatim hm hvalue
    rw [part?_of_minus hc hl hm hvalue] at h
    obtain ⟨rfl, rfl, rfl⟩ : _ ∧ _ ∧ _ := by simpa using h
    refine ⟨?_, List.forall_mem_cons.mpr ⟨rfl, hnumeric⟩, fun d tail habreast hd => ?_⟩
    · rw [Cursor.chars_of_ahead hc, hl]
      exact congrArg ('-' :: ·) hchars
    · obtain ⟨l', ahead, hd, hl', hahead⟩ := ahead_of_chars hd
      obtain ⟨m', rest', rfl, hm', htext, hvalue', hcursor⟩ := hagain d ahead tail habreast hahead
      refine ⟨_, ?_, hcursor⟩
      rw [part?_of_minus hd hl' (hm' ▸ hm) hvalue', htext]
  · obtain ⟨hchars, hnumeric, hagain⟩ := numberAt_verbatim hl hvalue
    rw [part?_of_number hc hl hvalue] at h
    obtain ⟨rfl, rfl, rfl⟩ : _ ∧ _ ∧ _ := by simpa using h
    refine ⟨?_, hnumeric, fun d tail habreast hd => ?_⟩
    · rw [Cursor.chars_of_ahead hc]
      exact hchars
    · obtain ⟨l', rest', hd, hl', htext, hvalue', hcursor⟩ := hagain d d.ahead tail habreast hd
      refine ⟨_, ?_, hcursor⟩
      rw [part?_of_number hd (hl' ▸ hl) hvalue', htext]

theorem after?_verbatim {want : Char} (h : after? want c = some c') :
    c.chars = want :: c'.chars ∧ ∀ (d : Cursor) (tail : List Char), d.chars = want :: tail →
      ∃ d', after? want d = some d' ∧ d'.chars = tail := by
  obtain ⟨l, rest, hc, hl, rfl⟩ := after?_eq_some h
  refine ⟨by rw [Cursor.chars_of_ahead hc, hl]; rfl, fun d tail hd => ?_⟩
  obtain ⟨l', rest', hd, hl', hrest'⟩ := ahead_of_chars hd
  exact ⟨d.past l' rest', by rw [after?, hd]; exact if_pos hl', hrest'⟩

/-- Letters that begin with the same letter end a token alike. -/
theorem abreast_cons (k : Char) (rest rest' : List Char) : Abreast (k :: rest) (k :: rest') :=
  ⟨k, rest, k, rest', rfl, rfl, .inl rfl⟩

/-- The text of a pair ends with its only closing parenthesis. -/
theorem pair?_verbatim {text : String} {x y : Float} (h : pair? c = some (text, x, y, c')) :
    ∃ used, text.toList = '(' :: (used ++ [')']) ∧
      (∀ k ∈ used, isNumeric k = true ∨ k = ',') ∧
      c.chars = used ++ ')' :: c'.chars ∧
      ∀ (d : Cursor) (tail : List Char), d.chars = used ++ ')' :: tail →
        ∃ d', pair? d = some (text, x, y, d') ∧ d'.chars = tail := by
  simp only [pair?, Option.bind_eq_bind, Option.bind_eq_some_iff, Prod.exists, Option.pure_def,
    Option.some.injEq, Prod.mk.injEq] at h
  obtain ⟨re, _, c₁, h₁, c₂, h₂, im, _, c₃, h₃, c₄, h₄, rfl, rfl, rfl, rfl⟩ := h
  obtain ⟨hre, hrenumeric, hreagain⟩ := part?_verbatim h₁
  obtain ⟨hcomma, hcommaagain⟩ := after?_verbatim h₂
  obtain ⟨him, himnumeric, himagain⟩ := part?_verbatim h₃
  obtain ⟨hclose, hcloseagain⟩ := after?_verbatim h₄
  refine ⟨re ++ ',' :: im, ?_, ?_, ?_, fun d tail hd => ?_⟩
  · rw [String.toList_ofList]
    simp
  · intro k hk
    rcases List.mem_append.mp hk with hk | hk
    · exact .inl (hrenumeric k hk)
    · rcases List.mem_cons.mp hk with hk | hk
      · exact .inr hk
      · exact .inl (himnumeric k hk)
  · rw [hre, hcomma, him, hclose, List.append_assoc]
    rfl
  · rw [List.append_assoc] at hd
    obtain ⟨d₁, hd₁, hchars₁⟩ := hreagain d _ (hcomma ▸ abreast_cons ',' _ _) hd
    obtain ⟨d₂, hd₂, hchars₂⟩ := hcommaagain d₁ _ hchars₁
    obtain ⟨d₃, hd₃, hchars₃⟩ := himagain d₂ _ (hclose ▸ abreast_cons ')' _ _) hchars₂
    obtain ⟨d₄, hd₄, hchars₄⟩ := hcloseagain d₃ _ hchars₃
    refine ⟨d₄, ?_, hchars₄⟩
    simp only [pair?, Option.bind_eq_bind, hd₁, hd₂, hd₃, hd₄, Option.bind_some, Option.pure_def]

end Token
end FractalFormula
