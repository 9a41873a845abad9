/-
Where a colon goes.

A run of separators with a colon in it is one colon, and a run that reaches the closing brace is that
brace.  No other token takes up a colon or a brace (`Token.passes_read`), so a body has the colon
token if something else than separators stands behind a colon of its letters
(`Token.exists_colon`).
-/
import FractalFormula.Proofs.Adjacency

namespace FractalFormula

namespace Letter

/-- Neither a colon nor the closing brace. -/
def Inner (l : Letter) : Prop :=
  l.char ≠ ':' ∧ l.char ≠ '}'

theorem inner_of {p : Char → Bool} (hcolon : p ':' = false) (hbrace : p '}' = false) {l : Letter}
    (h : p l.char = true) : l.Inner := by
  constructor
  · rintro hl
    rw [hl, hcolon] at h
    cases h
  · rintro hl
    rw [hl, hbrace] at h
    cases h

theorem inner_of_eq {c : Char} (hcolon : c ≠ ':') (hbrace : c ≠ '}') {l : Letter} (h : l.char = c) :
    l.Inner := by
  rw [Inner, h]
  exact ⟨hcolon, hbrace⟩

/-- The letters of the formula body that begins at `offset`, up to its closing brace.  What stands in
a comment is no letter. -/
def ofBody (text : String) (offset : Nat) : List Letter :=
  (Cursor.seek text offset).ahead.takeWhile (·.char != '}')

/-- Some colon has something else than separators behind it. -/
def HasColon (letters : List Letter) : Prop :=
  ∃ a l b, letters = a ++ l :: b ∧ l.char = ':' ∧ ∃ k ∈ b, Token.isSeparator k.char = false

/-- A colon is not among letters that are none. -/
theorem HasColon.of_append {used letters : List Letter} (h : HasColon (used ++ letters))
    (hused : ∀ l ∈ used, l.char ≠ ':') : HasColon letters := by
  obtain ⟨a, l, b, hsplit, hl, hb⟩ := h
  rcases List.append_eq_append_iff.mp hsplit with ⟨a', -, hletters⟩ | ⟨c', hc, hrest⟩
  · exact ⟨a', l, b, hletters, hl, hb⟩
  · cases c' with
    | nil => exact ⟨[], l, b, hrest.symm, hl, hb⟩
    | cons k c' =>
      obtain ⟨rfl, -⟩ := List.cons.inj hrest
      exact absurd hl (hused l (by rw [hc]; simp))

end Letter

namespace Token

open Letter

/-- Between the two places stand neither colons nor closing braces. -/
def Passes (c c' : Cursor) : Prop :=
  ∃ used, c.ahead = used ++ c'.ahead ∧ ∀ l ∈ used, l.Inner

namespace Passes

variable {c c' c'' : Cursor}

theorem of_ahead (h : c.ahead = c'.ahead) : Passes c c' :=
  ⟨[], h, fun _ hl => absurd hl List.not_mem_nil⟩

theorem trans (h : Passes c c') (h' : Passes c' c'') : Passes c c'' := by
  obtain ⟨used, hc, hused⟩ := h
  obtain ⟨used', hc', hused'⟩ := h'
  refine ⟨used ++ used', by rw [hc, hc', List.append_assoc], fun l hl => ?_⟩
  exact (List.mem_append.mp hl).elim (hused l) (hused' l)

theorem past {l : Letter} {rest : List Letter} (h : c.ahead = l :: rest) (hl : l.Inner) :
    Passes c (c.past l rest) :=
  ⟨[l], h, fun _ hk => List.mem_singleton.mp hk ▸ hl⟩

end Passes

/-! ## Numbers and pairs -/

/-- What a number takes in is part of it, and a sign is awaited only if it is there. -/
theorem Numeral.inner_of_grow {d d' : Numeral.Draft} {l : Letter} {rest : List Letter}
    (h : d.turn l.char rest = .grow d') (hsign : d.sign = true → l.Inner) :
    l.Inner ∧ (d'.sign = true → ∀ k ∈ rest.head?, k.Inner) := by
  unfold Numeral.Draft.turn at h
  by_cases hs : d.sign = true
  · rw [if_pos hs] at h
    cases h
    exact ⟨hsign hs, fun h => Bool.noConfusion h⟩
  rw [if_neg hs] at h
  by_cases hdigit : l.char.isDigit = true
  · rw [if_pos hdigit] at h
    cases h
    exact ⟨inner_of rfl rfl hdigit, fun h => absurd h hs⟩
  rw [if_neg hdigit] at h
  by_cases hpoint : l.char = '.'
  · rw [if_pos hpoint] at h
    split at h
    · cases h
    · cases h
      exact ⟨inner_of_eq (by decide) (by decide) hpoint, fun h => absurd h hs⟩
  rw [if_neg hpoint] at h
  by_cases hexponent : (decide (l.char = 'e') && d.takesExponent) = true
  · rw [if_pos hexponent] at h
    cases h
    have he : l.char = 'e' := by simpa using (Bool.and_eq_true_iff.mp hexponent).1
    refine ⟨inner_of_eq (by decide) (by decide) he, fun hahead k hk => ?_⟩
    cases rest with
    | nil => cases hk
    | cons s rest =>
      obtain rfl := Option.some.inj hk
      exact inner_of (p := fun c => c == '+' || c == '-') rfl rfl hahead
  · rw [if_neg hexponent] at h
    split at h <;> cases h

theorem Numeral.passes_readFrom {d : Numeral.Draft} {place : Cursor} {ahead : List Letter}
    {x : Float} (hsign : d.sign = true → ∀ l ∈ ahead.head?, l.Inner)
    (h : (Numeral.readFrom d place ahead).value = .ok x) :
    Passes { place with ahead := ahead } (Numeral.readFrom d place ahead).cursor := by
  induction ahead generalizing d place with
  | nil => simp [Numeral.readFrom, Numeral.Draft.fail] at h
  | cons l rest ih =>
    rw [Numeral.readFrom] at h ⊢
    cases hturn : d.turn l.char rest with
    | grow d' =>
      obtain ⟨hl, hsign'⟩ := Numeral.inner_of_grow hturn fun hs => hsign hs l rfl
      rw [hturn] at h
      dsimp only at h ⊢
      by_cases hlong : (d'.tooLong && !d'.sign) = true
      · rw [if_pos hlong] at h
        simp [Numeral.Draft.fail] at h
      · rw [if_neg hlong] at h ⊢
        exact (Passes.past rfl hl).trans (ih hsign' h)
    | spoil d' =>
      rw [hturn] at h
      simp [Numeral.Draft.fail] at h
    | complete => exact .of_ahead rfl

theorem Numeral.passes_read {first : Char} {c : Cursor} {x : Float}
    (h : (Numeral.read first c).value = .ok x) : Passes c (Numeral.read first c).cursor :=
  Numeral.passes_readFrom (fun hs => Bool.noConfusion hs) h

/-- A part of a pair is a number, perhaps with a minus sign before it. -/
theorem part?_eq_some {c c' : Cursor} {text : List Char} {x : Float}
    (h : part? c = some (text, x, c')) : ∃ d l rest,
      (d = c ∨ ∃ m, m.char = '-' ∧ c.ahead = m :: l :: rest ∧ d = c.past m (l :: rest)) ∧
        d.ahead = l :: rest ∧ (l.char.isDigit || decide (l.char = '.')) = true ∧
          (∃ x, (Numeral.read l.char (d.past l rest)).value = .ok x) ∧
            c' = (Numeral.read l.char (d.past l rest)).cursor := by
  unfold part? at h
  split at h
  · cases h
  · rename_i l rest hc
    split at h
    · rename_i hminus
      split at h
      · cases h
      · rename_i d rest'
        split at h
        · rename_i hd
          dsimp only at h
          split at h
          · rename_i hvalue
            simp only [Option.some.injEq, Prod.mk.injEq] at h
            exact ⟨_, d, rest', .inr ⟨l, hminus, hc, rfl⟩, rfl, hd, ⟨_, hvalue⟩, h.2.2.symm⟩
          · cases h
        · cases h
    · split at h
      · rename_i hl
        dsimp only at h
        split at h
        · rename_i hvalue
          simp only [Option.some.injEq, Prod.mk.injEq] at h
          exact ⟨c, l, rest, .inl rfl, hc, hl, ⟨_, hvalue⟩, h.2.2.symm⟩
        · cases h
      · cases h

theorem after?_eq_some {want : Char} {c c' : Cursor} (h : after? want c = some c') :
    ∃ l rest, c.ahead = l :: rest ∧ l.char = want ∧ c' = c.past l rest := by
  unfold after? at h
  split at h
  · cases h
  · rename_i l rest hc
    split at h
    · rename_i hl
      exact ⟨l, rest, hc, hl, (Option.some.inj h).symm⟩
    · cases h

/-- A pair is two parts with a comma between them and a parenthesis at the end. -/
theorem pair?_eq_some {c c' : Cursor} {text : String} {x y : Float}
    (h : pair? c = some (text, x, y, c')) : ∃ re im c₁ c₂ c₃,
      part? c = some (re, x, c₁) ∧ after? ',' c₁ = some c₂ ∧ part? c₂ = some (im, y, c₃) ∧
        after? ')' c₃ = some c' := by
  simp only [pair?, Option.bind_eq_bind, Option.bind_eq_some_iff, Prod.exists, Option.pure_def,
    Option.some.injEq, Prod.mk.injEq] at h
  obtain ⟨re, _, c₁, h₁, c₂, h₂, im, _, c₃, h₃, c₄, h₄, -, rfl, rfl, rfl⟩ := h
  exact ⟨re, im, c₁, c₂, c₃, h₁, h₂, h₃, h₄⟩

theorem passes_part? {c c' : Cursor} {text : List Char} {x : Float}
    (h : part? c = some (text, x, c')) : Passes c c' := by
  obtain ⟨d, l, rest, hd, hahead, hl, ⟨x, hvalue⟩, rfl⟩ := part?_eq_some h
  have hsign : Passes c d := by
    rcases hd with rfl | ⟨m, hm, hc, rfl⟩
    · exact .of_ahead rfl
    · exact .past hc (inner_of_eq (by decide) (by decide) hm)
  have hfirst : l.Inner := inner_of (p := fun c => c.isDigit || decide (c = '.')) rfl rfl hl
  exact (hsign.trans (.past hahead hfirst)).trans (Numeral.passes_read hvalue)

theorem passes_after? {want : Char} (hcolon : want ≠ ':') (hbrace : want ≠ '}') {c c' : Cursor}
    (h : after? want c = some c') : Passes c c' := by
  obtain ⟨l, rest, hc, hl, rfl⟩ := after?_eq_some h
  exact .past hc (inner_of_eq hcolon hbrace hl)

theorem passes_readParen (start : Nat) (c : Cursor) : Passes c (readParen start c).2 := by
  match readParen start c, parenRead start c with
  | _, .pair hpair =>
    obtain ⟨_, _, c₁, c₂, c₃, h₁, h₂, h₃, h₄⟩ := pair?_eq_some hpair
    exact (((passes_part? h₁).trans (passes_after? (by decide) (by decide) h₂)).trans
      (passes_part? h₃)).trans (passes_after? (by decide) (by decide) h₄)
  | _, .single _ => exact .of_ahead rfl

/-! ## Names and marks -/

theorem passes_readNumber {start : Nat} {first : Char} {c : Cursor}
    (h : ∀ f, (readNumber start first c).1.kind ≠ .fault f) :
    Passes c (readNumber start first c).2 := by
  match readNumber start first c, numberRead start first c, h with
  | _, .number hvalue, _ => exact Numeral.passes_read hvalue
  | _, .fault _, h => exact absurd rfl (h _)

theorem passes_readName {start : Nat} {first : Char} {c : Cursor}
    (h : ∀ f, (readName start first c).1.kind ≠ .fault f) : Passes c (readName start first c).2 := by
  match readName start first c, nameRead start first c, h with
  | _, .ended _, h | _, .dotted .., h | _, .tooLong _, h => exact absurd rfl (h _)
  | _, .name hend _ _, _ =>
    refine ⟨c.ahead.takeWhile (isNameChar ·.char), ?_, fun l hl => ?_⟩
    · rw [upTo_snd, pastAll_ahead, ← hend, List.takeWhile_append_dropWhile]
    · exact inner_of (p := isNameChar) (by decide) (by decide)
        (List.all_eq_true.mp List.all_takeWhile l hl)

/-- A run of separators that is a comma. -/
theorem passes_readSeparators {start : Nat} {first : Char} {c : Cursor}
    (hclose : (readSeparators start first c).1.kind ≠ .close)
    (hcolon : (readSeparators start first c).1.kind ≠ .operator .colon) :
    first ≠ ':' ∧ Passes c (readSeparators start first c).2 := by
  let run := c.ahead.takeWhile (isSeparator ·.char)
  let rest := c.ahead.dropWhile (isSeparator ·.char)
  match readSeparators start first c, separatorsRead start first c, hclose, hcolon with
  | _, .brace .., hclose, _ => exact absurd rfl hclose
  | _, .run _, _, hcolon =>
    have hno : ¬ (first == ':' || run.any (·.char == ':')) = true := by
      intro hyes
      have ho : separatorOf first c = .colon := if_pos hyes
      exact hcolon (congrArg Kind.operator ho)
    obtain ⟨hfirst, hrun⟩ := not_or.mp (mt Bool.or_eq_true_iff.mpr hno)
    refine ⟨by simpa using hfirst, run, ?_, fun l hl => ⟨fun hl' => hrun ?_, fun hl' => ?_⟩⟩
    · show _ = _ ++ (pastAll c run rest).ahead
      rw [pastAll_ahead, List.takeWhile_append_dropWhile]
    · exact List.any_eq_true.mpr ⟨l, hl, beq_iff_eq.mpr hl'⟩
    · have hseparator := List.all_eq_true.mp List.all_takeWhile l hl
      rw [hl'] at hseparator
      cases hseparator

theorem inner_of_secondOf {mark second : Char} (h : secondOf mark = some second) :
    (mark ≠ ':' ∧ mark ≠ '}') ∧ second ≠ ':' ∧ second ≠ '}' := by
  unfold secondOf at h
  split at h
  all_goals first
    | (cases h; decide)
    | cases h

theorem ne_colon_of_isSeparator {mark : Char} (h : isSeparator mark = false) : mark ≠ ':' := by
  rintro rfl
  cases h

theorem passes_readMark {start : Nat} {mark : Char} {c : Cursor}
    (hclose : (readMark start mark c).1.kind ≠ .close)
    (hcolon : (readMark start mark c).1.kind ≠ .operator .colon) :
    (mark ≠ ':' ∧ mark ≠ '}') ∧ Passes c (readMark start mark c).2 := by
  match readMark start mark c, markRead start mark c, hclose, hcolon with
  | _, .two hsecond hafter, _, _ =>
    obtain ⟨hmark, hcolon, hbrace⟩ := inner_of_secondOf hsecond
    exact ⟨hmark, passes_after? hcolon hbrace hafter⟩
  | _, .one hsecond _, _, _ => exact ⟨(inner_of_secondOf hsecond).1, .of_ahead rfl⟩
  | _, .brace _, hclose, _ => exact absurd rfl hclose
  | _, .rightParen hmark, _, _ => exact ⟨by rw [hmark]; decide, .of_ahead rfl⟩
  | _, .leftParen hmark, _, _ => exact ⟨by rw [hmark]; decide, passes_readParen start c⟩
  | _, .separator hmark, hclose, hcolon =>
    obtain ⟨hfirst, hpasses⟩ := passes_readSeparators hclose hcolon
    refine ⟨⟨hfirst, ?_⟩, hpasses⟩
    rintro rfl
    cases hmark
  | _, .operator _ hbrace hmark _, _, _ | _, .other hbrace hmark, _, _ =>
    exact ⟨⟨ne_colon_of_isSeparator hmark, hbrace⟩, .of_ahead rfl⟩

/-! ## Bodies -/

/-- A token that is neither a colon nor a brace stands where no colon and no brace is. -/
theorem passes_read {c : Cursor} (hfault : ∀ f, (read c).1.kind ≠ .fault f)
    (hclose : (read c).1.kind ≠ .close) (hcolon : (read c).1.kind ≠ .operator .colon) :
    Passes c (read c).2 := by
  cases hc : c.ahead with
  | nil =>
    rw [read, hc] at hfault
    exact absurd rfl (hfault .endOfText)
  | cons l rest =>
    rw [read_of_ahead hc] at hfault hclose hcolon ⊢
    by_cases hnumber : (l.char.isDigit || decide (l.char = '.')) = true
    · rw [if_pos hnumber] at hfault ⊢
      have hl : l.Inner := inner_of (p := fun c => c.isDigit || decide (c = '.')) rfl rfl hnumber
      exact (Passes.past hc hl).trans (passes_readNumber hfault)
    rw [if_neg hnumber] at hfault hclose hcolon ⊢
    by_cases hname : isNameStart l.char = true
    · rw [if_pos hname] at hfault ⊢
      exact (Passes.past hc (inner_of (p := isNameStart) (by decide) (by decide) hname)).trans
        (passes_readName hfault)
    · rw [if_neg hname] at hfault hclose hcolon ⊢
      obtain ⟨hl, hpasses⟩ := passes_readMark hclose hcolon
      exact (Passes.past hc hl).trans hpasses

theorem ne_close_readNumber (start : Nat) (first : Char) (c : Cursor) :
    (readNumber start first c).1.kind ≠ .close := by
  match readNumber start first c, numberRead start first c with
  | _, .number _ | _, .fault _ => exact nofun

theorem ne_close_readName (start : Nat) (first : Char) (c : Cursor) :
    (readName start first c).1.kind ≠ .close := by
  have named (name : String) (next : Char) : kindOfName name next ≠ .close := by
    unfold kindOfName
    repeat' split
    all_goals exact nofun
  match readName start first c, nameRead start first c with
  | _, .ended _ | _, .dotted .. | _, .tooLong _ => exact nofun
  | _, .name .. => exact named _ _

theorem ne_close_kindOfOperator (text : String) : kindOfOperator text ≠ .close := by
  rcases kindOfOperator_cases text with ⟨o, -, hkind⟩ | hkind <;>
  · rw [hkind]
    exact nofun

/-- A mark that closes the body is a brace or begins a run of separators up to one. -/
theorem close_readMark {start : Nat} {mark : Char} {c : Cursor}
    (h : (readMark start mark c).1.kind = .close) : mark = '}' ∨ isSeparator mark = true ∧
      ∃ next rest, c.ahead.dropWhile (isSeparator ·.char) = next :: rest ∧ next.char = '}' := by
  match readMark start mark c, markRead start mark c, h with
  | _, .two .., h | _, .one .., h => exact absurd h (ne_close_kindOfOperator _)
  | _, .brace hmark, _ => exact .inl hmark
  | _, .leftParen _, h =>
    match readParen start c, parenRead start c, h with
    | _, .pair _, h | _, .single _, h => cases h
  | _, .separator hmark, h =>
    match readSeparators start mark c, separatorsRead start mark c, h with
    | _, .brace hend hbrace, _ => exact .inr ⟨hmark, _, _, hend, hbrace⟩
    | _, .run _, h => cases h
  | _, .rightParen _, h | _, .operator .., h | _, .other .., h => cases h

/-- Before a closing brace that has come as a token stand separators at most. -/
theorem isSeparator_of_close {c : Cursor} (h : (read c).1.kind = .close) :
    ∀ l ∈ c.ahead.takeWhile (·.char != '}'), isSeparator l.char = true := by
  cases hc : c.ahead with
  | nil => exact fun _ hl => absurd hl List.not_mem_nil
  | cons l rest =>
    rw [read_of_ahead hc] at h
    split at h
    · exact absurd h (ne_close_readNumber _ _ _)
    · split at h
      · exact absurd h (ne_close_readName _ _ _)
      · rcases close_readMark h with hbrace | ⟨hl, next, rest', hrest, hnext⟩
        · rw [List.takeWhile_cons, hbrace]
          exact fun _ hl => absurd hl List.not_mem_nil
        · have hrest : rest.dropWhile (isSeparator ·.char) = next :: rest' := hrest
          have hrun : ∀ k ∈ l :: rest.takeWhile (isSeparator ·.char), isSeparator k.char = true :=
            List.forall_mem_cons.mpr ⟨hl, fun k => List.all_eq_true.mp List.all_takeWhile k⟩
          have hgo : ∀ k ∈ l :: rest.takeWhile (isSeparator ·.char), (k.char != '}') = true := by
            intro k hk
            refine bne_iff_ne.mpr fun hbrace => ?_
            have hyes := hrun k hk
            rw [hbrace] at hyes
            cases hyes
          have hsplit : l :: rest = (l :: rest.takeWhile (isSeparator ·.char)) ++ next :: rest' := by
            rw [← hrest, List.cons_append, List.takeWhile_append_dropWhile]
          rw [hsplit, List.takeWhile_append_of_pos hgo, List.takeWhile_cons, hnext]
          simpa using hrun

/-- A colon with something else than separators behind it becomes a token. -/
theorem exists_colon {c : Cursor} {pre rest : List Token} {t : Token}
    (h : stream c = pre ++ t :: rest) (ht : t.kind = .close)
    (hpre : ∀ u ∈ pre, (u.kind == .close || u.isFault) = false)
    (hcolon : HasColon (c.ahead.takeWhile (·.char != '}'))) :
    ∃ before u after, pre = before ++ u :: after ∧ u.kind = .operator .colon ∧
      ∀ v ∈ before, v.kind ≠ .operator .colon := by
  have hhead : (stream c).head? = some (read c).1 := by
    rw [stream]
    split <;> rfl
  induction pre generalizing c with
  | nil =>
    rw [h] at hhead
    obtain rfl := Option.some.inj hhead
    obtain ⟨a, l, b, hletters, -, k, hk, hno⟩ := hcolon
    have hyes := isSeparator_of_close ht k (by rw [hletters]; simp [hk])
    exact Bool.noConfusion (hno.symm.trans hyes)
  | cons u pre ih =>
    rw [h] at hhead
    obtain rfl := Option.some.inj hhead
    obtain ⟨hclose, hfault⟩ := Bool.or_eq_false_iff.mp (hpre _ List.mem_cons_self)
    have hclose : (read c).1.kind ≠ .close := by simpa using hclose
    have hfault (f : Fault) : (read c).1.kind ≠ .fault f := by
      intro hkind
      rw [isFault, hkind] at hfault
      cases hfault
    have hlast : ¬ (read c).1.isLast = true := by
      unfold isLast
      split
      · contradiction
      · rename_i hend
        exact absurd hend (hfault _)
      · exact Bool.false_ne_true
    rw [stream, dif_neg hlast] at h
    by_cases hkind : (read c).1.kind = .operator .colon
    · exact ⟨[], _, pre, rfl, hkind, fun _ hv => absurd hv List.not_mem_nil⟩
    · obtain ⟨used, hused, hinner⟩ := passes_read hfault hclose hkind
      have hgo : ∀ l ∈ used, (l.char != '}') = true := fun l hl => by simp [(hinner l hl).2]
      rw [hused, List.takeWhile_append_of_pos hgo] at hcolon
      obtain ⟨before, u, after, hsplit, hu, hbefore⟩ := ih (List.cons.inj h).2
        (fun u hu => hpre u (List.mem_cons_of_mem _ hu))
        (hcolon.of_append fun l hl => (hinner l hl).1)
        (by rw [stream]; split <;> rfl)
      exact ⟨_ :: before, u, after, congrArg (_ :: ·) hsplit, hu,
        List.forall_mem_cons.mpr ⟨hkind, hbefore⟩⟩

end Token
end FractalFormula
