/-
The closing brace.

A token that is read where a closing brace stands ahead is read over letters before that brace, or it
ends with it (`Token.read_to_brace`).  It ends with it if it is the closing brace, and also if it is
a number that lacks its digits: only then does reading go on behind the brace.
-/
import FractalFormula.Proofs.Separators

namespace FractalFormula

namespace Text

/-- The offset of the first closing brace in bytes that begin at `offset`.  A comment goes from a
semicolon to the end of its line. -/
def braceFrom (comment : Bool) (offset : Nat) : List UInt8 → Option Nat
  | [] => none
  | b :: rest =>
    let c := latin1 b
    if c = '\n' then braceFrom false (offset + 1) rest
    else if comment then braceFrom true (offset + 1) rest
    else if c = ';' then braceFrom true (offset + 1) rest
    else if c = '}' then some offset
    else braceFrom false (offset + 1) rest

/-- The closing brace of the formula body that begins at `offset`, if it has one. -/
def closingBrace? (text : String) (offset : Nat) : Option Nat :=
  braceFrom false offset ((bytes text).drop offset)

theorem toLower_eq_brace {c : Char} (h : c.toLower = '}') : c = '}' := by
  unfold Char.toLower at h
  split at h
  · rename_i hupper
    have hval := congrArg (fun c : Char => c.val.toNat) h
    simp only [ge_iff_le, UInt32.le_iff_toNat_le] at hupper
    simp [UInt32.toNat_add] at hval hupper
    omega
  · exact h

end Text

namespace Letter

/-- The letters, which come behind the offset `pos`, are in order, and the first closing brace of
them stands at `n`. -/
def Closed (n : Nat) : Nat → List Letter → Prop
  | _, [] => False
  | pos, l :: ls => pos ≤ l.offset ∧ if l.char = '}' then l.offset = n else Closed n l.after ls

variable {n pos pos' : Nat} {l : Letter} {ls : List Letter}

theorem Closed.mono (h : Closed n pos' ls) (hle : pos ≤ pos') : Closed n pos ls := by
  cases ls with
  | nil => exact h
  | cons l ls => exact ⟨Nat.le_trans hle h.1, h.2⟩

theorem Closed.exists_brace (h : Closed n pos ls) : ∃ l ∈ ls, l.char = '}' := by
  induction ls generalizing pos with
  | nil => exact h.elim
  | cons l ls ih =>
    by_cases hl : l.char = '}'
    · exact ⟨l, List.mem_cons_self, hl⟩
    · obtain ⟨k, hk, hbrace⟩ := ih (if_neg hl ▸ h.2)
      exact ⟨k, List.mem_cons_of_mem _ hk, hbrace⟩

theorem Closed.pos_le (h : Closed n pos ls) : pos ≤ n := by
  induction ls generalizing pos with
  | nil => exact h.elim
  | cons l ls ih =>
    obtain ⟨hpos, hrest⟩ := h
    by_cases hl : l.char = '}'
    · rw [if_pos hl] at hrest
      exact hrest ▸ hpos
    · rw [if_neg hl] at hrest
      exact Nat.le_trans (Nat.le_succ_of_le hpos) (ih hrest)

theorem Closed.offset_le (h : Closed n pos (l :: ls)) : l.offset ≤ n := by
  obtain ⟨-, hrest⟩ := h
  by_cases hl : l.char = '}'
  · rw [if_pos hl] at hrest
    exact Nat.le_of_eq hrest
  · rw [if_neg hl] at hrest
    exact Nat.le_of_succ_le hrest.pos_le

/-- The letters of a text have its closing brace. -/
theorem closed_listFrom {bs : List UInt8} {joined comment : Bool} {offset : Nat}
    (h : Text.braceFrom comment offset bs = some n) :
    Closed n offset (listFrom joined comment offset bs) := by
  induction bs generalizing joined comment offset with
  | nil => cases h
  | cons b bs ih =>
    unfold Text.braceFrom at h
    unfold listFrom
    dsimp only at h ⊢
    have next {joined comment : Bool} (h : Text.braceFrom comment (offset + 1) bs = some n) :
        Closed n offset (listFrom joined comment (offset + 1) bs) :=
      (ih h).mono (Nat.le_succ _)
    by_cases hline : Text.latin1 b = '\n'
    · rw [if_pos hline] at h ⊢
      split
      · exact next h
      · refine ⟨Nat.le_refl _, ?_⟩
        have hne : Text.latin1 b ≠ '}' := fun hbrace => absurd (hline.symm.trans hbrace) (by decide)
        rw [if_neg hne]
        exact ih h
    rw [if_neg hline] at h ⊢
    by_cases hcomment : comment = true
    · rw [if_pos hcomment] at h ⊢
      exact next h
    rw [if_neg hcomment] at h ⊢
    by_cases hsemicolon : Text.latin1 b = ';'
    · rw [if_pos hsemicolon] at h
      rw [hsemicolon]
      exact next h
    rw [if_neg hsemicolon] at h
    by_cases hbrace : Text.latin1 b = '}'
    · rw [if_pos hbrace] at h
      rw [hbrace]
      exact ⟨Nat.le_refl _, Option.some.inj h⟩
    rw [if_neg hbrace] at h
    split
    · exact next h
    · split
      · exact next h
      · refine ⟨Nat.le_refl _, ?_⟩
        rw [if_neg fun hlower => hbrace (Text.toLower_eq_brace hlower)]
        exact ih h

end Letter

namespace Token

open Letter

/-- From `c` to `c'` letter by letter, none of which is a closing brace. -/
inductive Walks : Cursor → Cursor → Prop
  | refl (c : Cursor) : Walks c c
  | step {c c' : Cursor} {l : Letter} {rest : List Letter} : c.ahead = l :: rest → l.char ≠ '}' →
    Walks (c.past l rest) c' → Walks c c'

/-- From `c` to `c'`, which is the place just past a closing brace, the first of all letters between
them. -/
def Shuts (c c' : Cursor) : Prop :=
  ∃ d l rest, Walks c d ∧ d.ahead = l :: rest ∧ l.char = '}' ∧ c' = d.past l rest

def Braced (c : Cursor) : Prop :=
  ∃ l ∈ c.ahead, l.char = '}'

variable {c c' d : Cursor} {l : Letter} {rest : List Letter}

theorem Walks.past (hc : c.ahead = l :: rest) (hl : l.char ≠ '}') : Walks c (c.past l rest) :=
  .step hc hl (.refl _)

theorem Walks.trans (h : Walks c d) (h' : Walks d c') : Walks c c' := by
  induction h with
  | refl => exact h'
  | step hc hl _ ih => exact .step hc hl (ih h')

theorem Walks.shuts (h : Walks c d) (h' : Shuts d c') : Shuts c c' := by
  obtain ⟨e, l, rest, hd, he⟩ := h'
  exact ⟨e, l, rest, h.trans hd, he⟩

theorem Braced.past (h : Braced c) (hc : c.ahead = l :: rest) (hl : l.char ≠ '}') :
    Braced (c.past l rest) := by
  obtain ⟨k, hk, hbrace⟩ := h
  rw [hc] at hk
  rcases List.mem_cons.mp hk with rfl | hk
  · exact absurd hbrace hl
  · exact ⟨k, hk, hbrace⟩

theorem Walks.braced (h : Walks c c') (hc : Braced c) : Braced c' := by
  induction h with
  | refl => exact hc
  | step hc' hl _ ih => exact ih (hc.past hc' hl)

/-- Reading letters before the brace leaves it where it is. -/
theorem Walks.closed {n : Nat} (h : Walks c c') (hc : Closed n c.pos c.ahead) :
    c.pos ≤ c'.pos ∧ Closed n c'.pos c'.ahead := by
  induction h with
  | refl => exact ⟨Nat.le_refl _, hc⟩
  | step hc' hl _ ih =>
    rw [hc'] at hc
    obtain ⟨hpos, hrest⟩ := hc
    rw [if_neg hl] at hrest
    obtain ⟨hle, hclosed⟩ := ih hrest
    exact ⟨Nat.le_trans (Nat.le_succ_of_le hpos) hle, hclosed⟩

theorem Shuts.pos {n : Nat} (h : Shuts c c') (hc : Closed n c.pos c.ahead) : c'.pos = n + 1 := by
  obtain ⟨d, l, rest, hwalks, hd, hl, rfl⟩ := h
  have hclosed := (hwalks.closed hc).2
  rw [hd] at hclosed
  have hn := hclosed.2
  rw [if_pos hl] at hn
  exact congrArg (· + 1) hn

/-! ## Numbers and pairs -/

/-- A number that fails at a closing brace takes it in. -/
theorem Numeral.readFrom_to_brace {d : Numeral.Draft} {place : Cursor} {ahead : List Letter}
    (hahead : place.ahead = ahead) (hbrace : Braced place)
    (hsign : d.sign = true → ∀ l ∈ ahead.head?, l.Inner) :
    let numeral := Numeral.readFrom d place ahead
    Walks place numeral.cursor ∧ numeral.value ≠ .error .endOfText ∨
      Shuts place numeral.cursor ∧ numeral.value = .error .malformedNumber := by
  induction ahead generalizing d place with
  | nil =>
    obtain ⟨l, hl, -⟩ := hbrace
    rw [hahead] at hl
    cases hl
  | cons l rest ih =>
    rw [Numeral.readFrom]
    cases hturn : d.turn l.char rest with
    | grow d' =>
      obtain ⟨hl, hsign'⟩ := Numeral.inner_of_grow hturn fun hs => hsign hs l rfl
      have hwalks := Walks.past hahead hl.2
      dsimp only
      split
      · exact .inl ⟨hwalks, by simp [Draft.fail]⟩
      · rcases ih rfl (hbrace.past hahead hl.2) hsign' with ⟨hinner, hvalue⟩ | ⟨hshuts, hvalue⟩
        · exact .inl ⟨hwalks.trans hinner, hvalue⟩
        · exact .inr ⟨hwalks.shuts hshuts, hvalue⟩
    | spoil d' =>
      by_cases hl : l.char = '}'
      · exact .inr ⟨⟨place, l, rest, .refl _, hahead, hl, rfl⟩, rfl⟩
      · exact .inl ⟨.past hahead hl, by simp [Draft.fail]⟩
    | complete =>
      have hplace : { place with ahead := l :: rest } = place := by rw [← hahead]
      refine .inl ⟨?_, by simp [Draft.complete]⟩
      show Walks place { place with ahead := l :: rest }
      rw [hplace]
      exact .refl _

theorem Numeral.read_to_brace (first : Char) (hbrace : Braced c) :
    Walks c (Numeral.read first c).cursor ∧ (Numeral.read first c).value ≠ .error .endOfText ∨
      Shuts c (Numeral.read first c).cursor ∧
        (Numeral.read first c).value = .error .malformedNumber :=
  Numeral.readFrom_to_brace rfl hbrace fun hsign => absurd hsign Bool.false_ne_true

theorem walks_part? {text : List Char} {x : Float} (h : part? c = some (text, x, c'))
    (hbrace : Braced c) : Walks c c' := by
  obtain ⟨d, l, rest, hd, hahead, hl, ⟨x, hvalue⟩, rfl⟩ := part?_eq_some h
  have hsign : Walks c d := by
    rcases hd with rfl | ⟨m, hm, hc, rfl⟩
    · exact .refl d
    · exact .past hc (by rw [hm]; decide)
  have hfirst := hsign.trans
    (.past hahead (inner_of (p := fun c => c.isDigit || decide (c = '.')) rfl rfl hl).2)
  rcases Numeral.read_to_brace l.char (hfirst.braced hbrace) with ⟨hwalks, -⟩ | ⟨-, hfault⟩
  · exact hfirst.trans hwalks
  · rw [hvalue] at hfault
    cases hfault

theorem walks_after? {want : Char} (hwant : want ≠ '}') (h : after? want c = some c') :
    Walks c c' := by
  obtain ⟨l, rest, hc, hl, rfl⟩ := after?_eq_some h
  exact .past hc (hl ▸ hwant)

/-! ## Tokens -/

/-- A token that was read before the closing brace, or that ends with it. -/
def ReadTo (c : Cursor) (r : Token × Cursor) : Prop :=
  Walks c r.2 ∧ r.1.isLast = false ∨
    Shuts c r.2 ∧ (r.1.kind = .close ∨ r.1.kind = .fault .malformedNumber)

theorem ReadTo.of_walks {r : Token × Cursor} (h : ReadTo d r) (hwalks : Walks c d) : ReadTo c r :=
  h.imp (.imp_left hwalks.trans) (.imp_left hwalks.shuts)

theorem readNumber_to_brace (start : Nat) (first : Char) (hbrace : Braced c) :
    ReadTo c (readNumber start first c) := by
  rcases Numeral.read_to_brace first hbrace with ⟨hwalks, hgood⟩ | ⟨hshuts, hbad⟩
  · match readNumber start first c, numberRead start first c with
    | _, .number _ => exact .inl ⟨hwalks, rfl⟩
    | _, .fault (f := f) hvalue =>
      refine .inl ⟨hwalks, ?_⟩
      cases f with
      | endOfText => exact absurd hvalue hgood
      | _ => rfl
  · rw [readNumber, hbad]
    exact .inr ⟨hshuts, .inr rfl⟩

theorem readParen_to_brace (start : Nat) (hbrace : Braced c) : ReadTo c (readParen start c) := by
  match readParen start c, parenRead start c with
  | _, .pair hpair =>
    obtain ⟨_, _, c₁, c₂, c₃, h₁, h₂, h₃, h₄⟩ := pair?_eq_some hpair
    have hw₁ := walks_part? h₁ hbrace
    have hw₂ := hw₁.trans (walks_after? (by decide) h₂)
    have hw₃ := hw₂.trans (walks_part? h₃ (hw₂.braced hbrace))
    exact .inl ⟨hw₃.trans (walks_after? (by decide) h₄), rfl⟩
  | _, .single _ => exact .inl ⟨.refl c, rfl⟩

theorem walks_pastAll {run rest : List Letter} (hc : c.ahead = run ++ rest)
    (hrun : ∀ l ∈ run, l.char ≠ '}') : Walks c (pastAll c run rest) := by
  induction run generalizing c with
  | nil =>
    have hsame : pastAll c [] rest = c := by
      rw [List.nil_append] at hc
      rw [← hc]
      rfl
    rw [hsame]
    exact .refl c
  | cons l run ih =>
    obtain ⟨hl, hrun⟩ := List.forall_mem_cons.mp hrun
    have hnext : pastAll c (l :: run) rest = pastAll (c.past l (run ++ rest)) run rest := by
      cases run <;> rfl
    rw [hnext]
    exact .step hc hl (ih rfl hrun)

theorem past_pastAll (c : Cursor) (run ahead rest : List Letter) (l : Letter) :
    (pastAll c run ahead).past l rest = c.past l rest := by
  unfold pastAll
  split <;> rfl

/-- Over letters of a kind to which the closing brace does not belong. -/
theorem walks_takeWhile {p : Char → Bool} (hp : p '}' = false) (c : Cursor) :
    Walks c (pastAll c (c.ahead.takeWhile (p ·.char)) (c.ahead.dropWhile (p ·.char))) := by
  refine walks_pastAll List.takeWhile_append_dropWhile.symm fun l hl hbrace => ?_
  have hyes := List.all_eq_true.mp List.all_takeWhile l hl
  rw [hbrace, hp] at hyes
  cases hyes

/-- Over letters of such a kind and the one behind them. -/
theorem walks_past {p : Char → Bool} (hp : p '}' = false) {next : Letter} {rest : List Letter}
    (hend : c.ahead.dropWhile (p ·.char) = next :: rest) (hnext : next.char ≠ '}') :
    Walks c (c.past next rest) := by
  have hrun := walks_takeWhile hp c
  have hstep := Walks.past (pastAll_ahead c (c.ahead.takeWhile (p ·.char)) (next :: rest)) hnext
  rw [hend] at hrun
  rw [past_pastAll] at hstep
  exact hrun.trans hstep

theorem readSeparators_to_brace (start : Nat) (first : Char) (c : Cursor) :
    ReadTo c (readSeparators start first c) := by
  have hwalks := walks_takeWhile (p := isSeparator) rfl c
  match readSeparators start first c, separatorsRead start first c with
  | _, .run _ => exact .inl ⟨hwalks, rfl⟩
  | _, .brace hend hbrace =>
    rw [hend] at hwalks
    exact .inr ⟨⟨_, _, _, hwalks, pastAll_ahead _ _ _, hbrace, (past_pastAll _ _ _ _ _).symm⟩,
      .inl rfl⟩

theorem isLast_kindOfName (text name : String) (next : Char) (place : Span) :
    (Token.mk text (kindOfName name next) place).isLast = false := by
  unfold kindOfName
  repeat' split
  all_goals rfl

theorem readName_to_brace (start : Nat) (first : Char) (hbrace : Braced c) :
    ReadTo c (readName start first c) := by
  have hwalks := walks_takeWhile (p := isNameChar) (by decide) c
  match readName start first c, nameRead start first c with
  | _, .ended hend =>
    obtain ⟨l, hl, hbrace⟩ := hwalks.braced hbrace
    rw [pastAll_ahead, hend] at hl
    cases hl
  | _, .dotted hend hpoint =>
    exact .inl ⟨walks_past (by decide) hend (by rw [hpoint]; decide), rfl⟩
  | _, .tooLong hend =>
    rw [hend] at hwalks
    exact .inl ⟨hwalks, rfl⟩
  | _, .name hend _ _ =>
    rw [hend] at hwalks
    exact .inl ⟨hwalks, isLast_kindOfName _ _ _ _⟩

theorem isLast_kindOfOperator (text : String) (place : Span) :
    (Token.mk text (kindOfOperator text) place).isLast = false := by
  rcases kindOfOperator_cases text with ⟨o, -, hkind⟩ | hkind <;>
  · rw [hkind]
    rfl

theorem readMark_to_brace {start : Nat} {mark : Char} (hmark : mark ≠ '}') (hbrace : Braced c) :
    ReadTo c (readMark start mark c) := by
  match readMark start mark c, markRead start mark c with
  | _, .two hsecond hafter =>
    exact .inl ⟨walks_after? (inner_of_secondOf hsecond).2.2 hafter, isLast_kindOfOperator _ _⟩
  | _, .one .. => exact .inl ⟨.refl c, isLast_kindOfOperator _ _⟩
  | _, .brace h => exact absurd h hmark
  | _, .leftParen _ => exact readParen_to_brace start hbrace
  | _, .separator _ => exact readSeparators_to_brace start mark c
  | _, .rightParen _ | _, .operator .. | _, .other .. => exact .inl ⟨.refl c, rfl⟩

/-- Where a closing brace stands ahead, the next token is read before it or ends with it. -/
theorem read_to_brace (hbrace : Braced c) : ReadTo c (read c) := by
  obtain ⟨k, hk, hkbrace⟩ := hbrace
  cases hc : c.ahead with
  | nil =>
    rw [hc] at hk
    cases hk
  | cons l rest =>
    rw [read_of_ahead hc]
    by_cases hl : l.char = '}'
    · rw [hl]
      exact .inr ⟨⟨c, l, rest, .refl c, hc, hl, rfl⟩, .inl rfl⟩
    · have hrest := Braced.past ⟨k, hk, hkbrace⟩ hc hl
      refine ReadTo.of_walks ?_ (.past hc hl)
      split
      · exact readNumber_to_brace _ _ hrest
      · split
        · exact readName_to_brace _ _ hrest
        · exact readMark_to_brace hl hrest

/-! ## Where tokens stand -/

/-- A token goes from its first letter up to where reading goes on. -/
theorem span_read (hc : c.ahead = l :: rest) :
    (read c).1.span = ⟨l.offset, max (read c).2.pos l.offset⟩ := by
  rw [read_of_ahead hc]
  split
  · match readNumber l.offset l.char (c.past l rest),
      numberRead l.offset l.char (c.past l rest) with
    | _, .number _ | _, .fault _ => rfl
  split
  · match readName l.offset l.char (c.past l rest), nameRead l.offset l.char (c.past l rest) with
    | _, .ended _ | _, .dotted .. | _, .tooLong _ | _, .name .. => rfl
  match readMark l.offset l.char (c.past l rest), markRead l.offset l.char (c.past l rest) with
  | _, .leftParen _ =>
    match readParen l.offset (c.past l rest), parenRead l.offset (c.past l rest) with
    | _, .pair _ | _, .single _ => rfl
  | _, .separator _ =>
    match readSeparators l.offset l.char (c.past l rest),
      separatorsRead l.offset l.char (c.past l rest) with
    | _, .brace .. | _, .run _ => rfl
  | _, .two .. | _, .one .. | _, .brace _ | _, .rightParen _ | _, .operator .. | _, .other .. =>
    rfl

/-- Where the closing brace at `n` stands ahead, a token does not go on behind it, and it stands
ahead of the next token as well unless the token ends with it. -/
theorem read_closed {n : Nat} (h : Closed n c.pos c.ahead) :
    c.pos ≤ (read c).1.span.start ∧ (read c).1.span.stop ≤ n + 1 ∧
      ((read c).1.isLast = false ∧ c.pos ≤ (read c).2.pos ∧
          Closed n (read c).2.pos (read c).2.ahead ∨
        (read c).1.kind = .close ∨
          (read c).1.kind = .fault .malformedNumber ∧ (read c).1.span.stop = n + 1) := by
  have hread := read_to_brace h.exists_brace
  cases hc : c.ahead with
  | nil =>
    rw [hc] at h
    exact h.elim
  | cons l rest =>
    have hl : c.pos ≤ l.offset ∧ l.offset ≤ n := by
      rw [hc] at h
      exact ⟨h.1, h.offset_le⟩
    rw [span_read hc]
    dsimp only
    rcases hread with ⟨hwalks, hlast⟩ | ⟨hshuts, hkind⟩
    · obtain ⟨hle, hclosed⟩ := hwalks.closed h
      have hpos := hclosed.pos_le
      exact ⟨hl.1, by omega, .inl ⟨hlast, hle, hclosed⟩⟩
    · have hpos := hshuts.pos h
      exact ⟨hl.1, by omega, .inr (hkind.imp_right fun hfault => ⟨hfault, by omega⟩)⟩

/-- Tokens up to the closing brace at `n` stand before it or end with it if no number takes it in. -/
theorem stream_closed {n : Nat} (h : Closed n c.pos c.ahead)
    (hnumber : ∀ t ∈ stream c, t.kind = .fault .malformedNumber → t.span.stop ≠ n + 1) :
    ∀ t ∈ stream c, c.pos ≤ t.span.start ∧ t.span.stop ≤ n + 1 ∧ t.kind ≠ .fault .endOfText := by
  induction hlength : c.ahead.length using Nat.strongRecOn generalizing c with
  | ind k ih =>
    obtain ⟨hstart, hstop, hnext⟩ := read_closed h
    have hmem : (read c).1 ∈ stream c := by
      rw [stream]
      split <;> exact List.mem_cons_self
    have hkind : (read c).1.kind ≠ .fault .endOfText := by
      rcases hnext with ⟨hlast, -⟩ | hclose | ⟨hfault, -⟩
      · intro hend
        rw [isLast, hend] at hlast
        cases hlast
      · simp [hclose]
      · simp [hfault]
    intro t ht
    rw [stream] at ht hnumber
    split at ht
    · rw [List.mem_singleton.mp ht]
      exact ⟨hstart, hstop, hkind⟩
    · rename_i hlast
      rw [dif_neg hlast] at hnumber
      rcases List.mem_cons.mp ht with rfl | ht
      · exact ⟨hstart, hstop, hkind⟩
      · rcases hnext with ⟨hinner, hle, hclosed⟩ | hclose | ⟨hfault, htaken⟩
        · have hshorter : (read c).2.ahead.length < k :=
            hlength ▸ read_ahead_lt (ahead_ne_nil_of_not_isLast hinner)
          obtain ⟨hstart', hrest⟩ := ih _ hshorter hclosed
            (fun u hu => hnumber u (List.mem_cons_of_mem _ hu)) rfl t ht
          exact ⟨Nat.le_trans hle hstart', hrest⟩
        · rw [isLast, hclose] at hlast
          exact absurd rfl hlast
        · exact absurd htaken (hnumber _ List.mem_cons_self hfault)

/-- The tokens of a body with a closing brace, unless a number takes it in. -/
theorem stream_to_brace {text : String} {offset n : Nat}
    (h : Text.closingBrace? text offset = some n)
    (hnumber : ∀ t ∈ stream (Cursor.seek text offset),
      t.kind = .fault .malformedNumber → t.span.stop ≠ n + 1) :
    ∀ t ∈ stream (Cursor.seek text offset),
      offset ≤ t.span.start ∧ t.span.stop ≤ n + 1 ∧ t.kind ≠ .fault .endOfText := by
  have hpos : min offset (Text.bytes text).length = offset := by
    refine Nat.min_eq_left (Nat.le_of_not_lt fun hlt => ?_)
    rw [Text.closingBrace?, List.drop_eq_nil_of_le (Nat.le_of_lt hlt)] at h
    cases h
  have hseek : Cursor.seek text offset =
      ⟨offset, Letter.listFrom false false offset ((Text.bytes text).drop offset),
        (Text.bytes text).length⟩ := by
    rw [Cursor.seek, hpos]
  rw [hseek] at hnumber ⊢
  exact stream_closed (closed_listFrom h) hnumber

end Token
end FractalFormula
