/-
Statements without branches.

A statement of an accepted body in which there is no branch is empty or assigns an expression to
variables, unless it begins with a `=` or consists of minus signs alone (`ordinary_statement`): the
check takes neither for the beginning of anything, so what follows such a `=` need not be complete
and nothing need follow such a sign.
-/
import FractalFormula.Proofs.Body
import FractalFormula.Proofs.Phrase

namespace FractalFormula

open Check

namespace Lexeme

/-- `st` stands between two separators in `ls`, or between one of them and an end of `ls`. -/
structure Delimits (pre st post ls : List Lexeme) : Prop where
  split : ls = pre ++ st ++ post
  before : ∀ l ∈ pre.getLast?, l.Separates
  inner : ∀ l ∈ st, ¬ l.Separates
  after : ∀ l ∈ post.head?, l.Separates

theorem Separates.comma_or_colon {l : Lexeme} (h : l.Separates) (hend : l.isEnd = false) :
    l = .operator .comma ∨ l = .operator .colon := by
  cases l with
  | operator o =>
    cases o with
    | comma => exact .inl rfl
    | colon => exact .inr rfl
    | _ => exact absurd h Bool.false_ne_true
  | close => cases hend
  | _ => exact h.elim

/-- What leaves a statement as fresh as it was. -/
def IsSign (l : Lexeme) : Prop :=
  l = .operator .assign ∨ l = .operator .minus ∨ l = .operator .modulus

end Lexeme

/-! ## Steps within a statement -/

namespace Check.Stance

open Lexeme

variable {t t' u : Stance} {l : Lexeme} {ls : List Lexeme}

theorem Step.of_separates (h : t.Step t' l) (hsep : l.Separates) (hend : l.isEnd = false) :
    t.Ends ∧ t' = {} := by
  rcases hsep.comma_or_colon hend with rfl | rfl <;> exact h

/-- Only a variable can be assigned to, and only as long as nothing else has been read. -/
theorem Step.assignable (h : t.Step t' l) (hsep : ¬ l.Separates) (hassign : l ≠ .operator .assign)
    (hname : t.assignable = false ∨ ∀ v, l ≠ .name v) : t'.assignable = false := by
  cases l with
  | name v =>
    obtain ⟨-, rfl⟩ := h
    exact hname.resolve_right fun hname => hname v rfl
  | operator o =>
    cases o with
    | comma | colon => exact absurd rfl hsep
    | assign => exact absurd rfl hassign
    | _ =>
      obtain ⟨-, rfl⟩ := h
      rfl
  | close => exact absurd trivial hsep
  | fault => exact h.elim
  | _ =>
    simp only [Step] at h
    simp [h]

theorem Steps.assign_not_mem (h : t.Steps ls u) (hsep : ∀ l ∈ ls, ¬ l.Separates)
    (ht : t.assignable = false) : .operator .assign ∉ ls := by
  induction h with
  | nil => exact List.not_mem_nil
  | cons hstep _ ih =>
    rename_i t t' u l ls _
    have hl : l ≠ .operator .assign := by
      rintro rfl
      exact absurd (hstep.1.symm.trans ht) nofun
    have ht' := hstep.assignable (hsep _ List.mem_cons_self) hl (.inl ht)
    simp only [List.mem_cons, not_or]
    exact ⟨hl.symm, ih (fun l hl => hsep l (List.mem_cons_of_mem _ hl)) ht'⟩

/-- A statement that is no longer fresh takes no branch. -/
theorem Step.fresh (h : t.Step t' l) (hsep : ¬ l.Separates) (ht : t.fresh = false) :
    (∀ w, l ≠ .flow w) ∧ t'.fresh = false := by
  cases l with
  | flow => exact absurd (h.1.symm.trans ht) nofun
  | operator o =>
    cases o with
    | comma | colon => exact absurd rfl hsep
    | _ =>
      obtain ⟨-, rfl⟩ := h
      exact ⟨nofun, ht⟩
  | close => exact absurd trivial hsep
  | fault => exact h.elim
  | _ =>
    simp only [Step] at h
    simp [h]

theorem Steps.fresh (h : t.Steps ls u) (hsep : ∀ l ∈ ls, ¬ l.Separates) (ht : t.fresh = false) :
    (∀ w, .flow w ∉ ls) ∧ u.fresh = false := by
  induction h with
  | nil => exact ⟨fun _ => List.not_mem_nil, ht⟩
  | cons hstep _ ih =>
    obtain ⟨hl, ht'⟩ := hstep.fresh (hsep _ List.mem_cons_self) ht
    obtain ⟨hls, hu⟩ := ih (fun l hl => hsep l (List.mem_cons_of_mem _ hl)) ht'
    refine ⟨fun w hw => ?_, hu⟩
    rcases List.mem_cons.mp hw with rfl | hw
    · exact hl w rfl
    · exact hls w hw

/-- What leaves a statement fresh is a sign or a branch, and it leaves a bar open if it is one. -/
theorem Step.sign (h : t.Step t' l) (hsep : ¬ l.Separates) (hw : t.wantsOperand = true)
    (hfresh : t'.fresh = true) : (l.IsSign ∨ ∃ w, l = .flow w) ∧ t'.wantsOperand = true ∧
      (t.bars.isUp = true ∨ l = .operator .modulus → t'.bars.isUp = true) := by
  cases l with
  | flow w =>
    obtain ⟨-, rfl⟩ := h
    exact ⟨.inr ⟨w, rfl⟩, hw, fun hup => hup.resolve_right nofun⟩
  | operator o =>
    cases o with
    | comma | colon => exact absurd rfl hsep
    | assign =>
      obtain ⟨-, rfl⟩ := h
      exact ⟨.inl (.inl rfl), rfl, fun hup => hup.resolve_right nofun⟩
    | minus =>
      obtain ⟨-, rfl⟩ := h
      exact ⟨.inl (.inr (.inl rfl)), rfl, fun hup => hup.resolve_right nofun⟩
    | modulus =>
      obtain ⟨hside, rfl⟩ := h
      rw [hw] at hside
      refine ⟨.inl (.inr (.inr rfl)), hw, fun _ => ?_⟩
      show (!t.bars.isUp) = true
      rw [hside]
      rfl
    | _ => exact absurd (h.1.symm.trans hw) nofun
  | close => exact absurd trivial hsep
  | fault => exact h.elim
  | _ =>
    simp only [Step] at h
    simp [h] at hfresh

theorem Steps.signs (h : t.Steps ls u) (hsep : ∀ l ∈ ls, ¬ l.Separates)
    (hw : t.wantsOperand = true) (hfresh : u.fresh = true) :
    (∀ l ∈ ls, l.IsSign ∨ ∃ w, l = .flow w) ∧ u.wantsOperand = true ∧
      (t.bars.isUp = true ∨ .operator .modulus ∈ ls → u.bars.isUp = true) := by
  induction h with
  | nil => exact ⟨nofun, hw, fun hup => hup.resolve_right List.not_mem_nil⟩
  | cons hstep hsteps ih =>
    rename_i t t' u l ls
    have hsep' : ∀ l ∈ ls, ¬ l.Separates := fun l hl => hsep l (List.mem_cons_of_mem _ hl)
    have ht' : t'.fresh = true := by
      by_contra hno
      have hu := (hsteps.fresh hsep' (by simpa using hno)).2
      exact Bool.false_ne_true (hu.symm.trans hfresh)
    obtain ⟨hl, hw', hup⟩ := hstep.sign (hsep _ List.mem_cons_self) hw ht'
    obtain ⟨hls, hwu, hupu⟩ := ih hsep' hw' hfresh
    refine ⟨fun m hm => ?_, hwu, fun hbar => hupu ?_⟩
    · rcases List.mem_cons.mp hm with rfl | hm
      · exact hl
      · exact hls m hm
    · rcases hbar with hbar | hbar
      · exact .inl (hup (.inl hbar))
      · rcases List.mem_cons.mp hbar with hbar | hbar
        · exact .inl (hup (.inr hbar.symm))
        · exact .inr hbar

theorem anyUp_of_isUp {n : Nesting} (h : n.isUp = true) : n.anyUp = true := by
  obtain ⟨flags⟩ := n
  cases flags with
  | nil => exact absurd h nofun
  | cons f fs =>
    have hf : f = true := h
    simp [Nesting.anyUp, hf]

end Check.Stance

/-! ## One statement of a body -/

namespace Check

open Lexeme Stance

theorem Accepted.delimits {ls pre st post : List Lexeme} (h : Accepted ls)
    (hst : Delimits pre st post ls) :
    Steps {} pre {} ∧ (∃ u, Steps {} st u ∧ u.Ends) ∧
      ∃ m, m.Separates ∧ (st ++ [m]).IsChain Admits := by
  obtain ⟨hsplit, hbefore, hinner, hafter⟩ := hst
  obtain ⟨t, hsteps, hends⟩ := h.steps
  have hend := h.inner
  have hchain := h.adjacent
  rw [hsplit] at hsteps hend hchain
  obtain ⟨u, hfront, hpost⟩ := hsteps.append
  obtain ⟨v, hpre, hsteps⟩ := hfront.append
  have hv : v = {} := by
    rcases List.eq_nil_or_concat pre with rfl | ⟨pre, l, rfl⟩
    · cases hpre
      rfl
    · rw [List.concat_eq_append] at *
      obtain ⟨w, -, hstep⟩ := hpre.concat
      exact (hstep.of_separates (hbefore l (by simp)) (hend l (by simp))).2
  rw [List.append_assoc, List.append_assoc, ← List.append_assoc st] at hchain
  have hchain := (List.isChain_append.mp hchain).2.1
  subst hv
  refine ⟨hpre, ⟨u, hsteps, ?_⟩, ?_⟩
  · cases hpost with
    | nil => exact hends
    | cons hstep _ =>
      exact (hstep.of_separates (hafter _ rfl) (hend _ (by simp))).1
  · cases post with
    | nil => exact ⟨.close, trivial, by simpa using hchain⟩
    | cons m post =>
      refine ⟨m, hafter m rfl, ?_⟩
      rw [List.append_assoc, List.cons_append, List.append_cons] at hchain
      exact (List.isChain_append.mp hchain).1

/-- A statement begins with the variables that it assigns to. -/
theorem Stance.Steps.exists_targets {st : List Lexeme} {u : Stance} {b : Bool}
    (h : Steps { fresh := b } st u) (hchain : st.IsChain Admits)
    (hhead : st.head? ≠ some (.operator .assign)) (hsep : ∀ l ∈ st, ¬ l.Separates)
    (hflow : ∀ w, .flow w ∉ st) :
    ∃ (targets : List String) (rest : List Lexeme),
      st = targets.flatMap (fun v => [.name v, .operator .assign]) ++ rest ∧
      Steps { fresh := b && targets.isEmpty } rest u ∧ .operator .assign ∉ rest := by
  by_cases htarget : ∃ v rest, st = .name v :: .operator .assign :: rest
  · obtain ⟨v, rest, rfl⟩ := htarget
    cases h with
    | cons hname h =>
      cases h with
      | cons hassign h =>
        obtain ⟨-, rfl⟩ := hname
        obtain ⟨-, rfl⟩ := hassign
        have hsecond := (List.isChain_cons_cons.mp hchain).2
        obtain ⟨targets, rest, rfl, hsteps, hno⟩ := exists_targets (b := false) h
          (List.isChain_cons.mp hsecond).2
          (fun hhead => (List.isChain_cons.mp hsecond).1 _ hhead rfl)
          (fun l hl => hsep l (by simp [hl])) (fun w hw => hflow w (by simp [hw]))
        exact ⟨v :: targets, rest, rfl, by simpa using hsteps, hno⟩
  · refine ⟨[], st, rfl, by simpa using h, ?_⟩
    cases h with
    | nil => exact List.not_mem_nil
    | cons hstep h =>
      rename_i l ls
      have hl : l ≠ .operator .assign := fun hl => hhead (congrArg some hl)
      have hsep' : ∀ m ∈ ls, ¬ m.Separates := fun m hm => hsep m (List.mem_cons_of_mem _ hm)
      simp only [List.mem_cons, not_or]
      refine ⟨hl.symm, ?_⟩
      by_cases hname : ∃ v, l = .name v
      · obtain ⟨v, rfl⟩ := hname
        obtain ⟨-, rfl⟩ := hstep
        cases h with
        | nil => exact List.not_mem_nil
        | cons hstep h =>
          rename_i m ls
          have hm : m ≠ .operator .assign := by
            rintro rfl
            exact htarget ⟨v, ls, rfl⟩
          -- A second name would come where an operator is wanted.
          have hno := hstep.assignable (hsep' m List.mem_cons_self) hm
            (.inr fun v hv => by subst hv; exact Bool.noConfusion hstep.1)
          simp only [List.mem_cons, not_or]
          exact ⟨hm.symm, h.assign_not_mem (fun k hk => hsep' k (List.mem_cons_of_mem _ hk)) hno⟩
      · have hno := hstep.assignable (hsep l List.mem_cons_self) hl
          (.inr fun v hv => hname ⟨v, hv⟩)
        exact h.assign_not_mem hsep' hno
termination_by st.length

end Check

/-! ## Statements -/

theorem Expr.exists_mem_lexemes (e : Expr) : ∃ l ∈ e.lexemes, l ≠ .operator .minus := by
  induction e with
  | name | literal => simp [lexemes]
  | group e => exact ⟨.leftParen, by simp [lexemes], by simp⟩
  | call f e => exact ⟨.call f, by simp [lexemes], by simp⟩
  | modulus e => exact ⟨.operator .modulus, by simp [lexemes], by simp⟩
  | minus e ih =>
    obtain ⟨l, hl, hne⟩ := ih
    exact ⟨l, by simp [lexemes, hl], hne⟩
  | binary o l r ihl _ =>
    obtain ⟨m, hm, hne⟩ := ihl
    exact ⟨m, by simp [lexemes, hm], hne⟩

theorem Expr.head?_lexemes (e : Expr) :
    e.lexemes ≠ [] ∧ e.lexemes.head? ≠ some (.operator .assign) := by
  induction e with
  | binary o l r ihl _ =>
    rw [lexemes, List.head?_append_of_ne_nil _ ihl.1]
    exact ⟨by simp [ihl.1], ihl.2⟩
  | _ => simp [lexemes]

/-- Nothing is written, or a chain of assignments with an expression at its end. -/
def Lexeme.WellFormed (st : List Lexeme) : Prop :=
  st = [] ∨ ∃ s : Statement, s.value.Legible ∧ s.lexemes = st

namespace Lexeme

theorem expresses_of {l : Lexeme} (hsep : ¬ l.Separates) (hend : l.isEnd = false)
    (hflow : ∀ w, l ≠ .flow w) (hassign : l ≠ .operator .assign) : l.Expresses := by
  cases l with
  | flow w => exact absurd rfl (hflow w)
  | operator o =>
    cases o with
    | comma | colon => exact absurd rfl hsep
    | assign => exact absurd rfl hassign
    | _ => trivial
  | close | fault => exact absurd hend nofun
  | _ => trivial

theorem outside_targets (targets : List String) (ls : List Lexeme) :
    outside 0 (targets.flatMap (fun v => [.name v, .operator .assign]) ++ ls) =
      targets.flatMap (fun v => [.name v, .operator .assign]) ++ outside 0 ls := by
  induction targets with
  | nil => rfl
  | cons v targets ih => simpa [outside] using ih

/-- In the targets nothing is opened. -/
theorem remembered_of_targets {targets : List String} {rest : List Lexeme}
    (h : Remembered (targets.flatMap (fun v => [.name v, .operator .assign]) ++ rest)) :
    Remembered rest := by
  intro pre hpre hdepth
  have hnone (l : Lexeme) (hl : ∀ v, l ∉ [.name v, .operator .assign]) :
      (targets.flatMap fun v => [.name v, .operator .assign]).count l = 0 := by
    refine List.count_eq_zero.mpr fun hmem => ?_
    obtain ⟨v, -, hv⟩ := List.mem_flatMap.mp hmem
    exact hl v hv
  have heven := h _ ((List.prefix_append_right_inj _).mpr hpre) (by
    rw [List.count_append, List.count_append, hnone .leftParen (by simp),
      hnone .rightParen (by simp)]
    omega)
  rwa [outside_targets, List.count_append, hnone (.operator .modulus) (by simp),
    Nat.zero_add] at heven

end Lexeme

open Lexeme Check

/-- A statement of an accepted body without a branch in it is empty or a chain of assignments to
variables with an expression at its end, unless it begins with a `=` or has nothing but minus signs.
No bar is lost if none is open outside 64 parentheses. -/
theorem ordinary_statement {text : String} {offset : Nat} {tally : Tally}
    (h : check text offset = .ok tally) {pre st post : List Lexeme}
    (hst : Delimits pre st post (Lexeme.ofBody text offset)) (hflow : ∀ w, .flow w ∉ st)
    (hkept : Remembered st) :
    WellFormed st ↔
      st.head? ≠ some (.operator .assign) ∧ (st = [] ∨ ∃ l ∈ st, l ≠ .operator .minus) := by
  constructor
  · rintro (rfl | ⟨⟨targets, value⟩, -, rfl⟩)
    · exact ⟨nofun, .inl rfl⟩
    · obtain ⟨l, hl, hne⟩ := value.exists_mem_lexemes
      refine ⟨?_, .inr ⟨l, List.mem_append_right _ hl, hne⟩⟩
      cases targets with
      | nil => exact value.head?_lexemes.2
      | cons v targets => exact nofun
  · rintro ⟨hhead, hsigns⟩
    obtain ⟨haccepted, -⟩ := body_of_check h
    obtain ⟨-, ⟨u, hsteps, hends⟩, m, -, hchain⟩ := haccepted.delimits hst
    have hchain := (List.isChain_append.mp hchain).1
    have hinner : ∀ l ∈ st, l.isEnd = false := fun l hl =>
      haccepted.inner l (by rw [hst.split]; simp [hl])
    obtain ⟨targets, rest, rfl, hrest, hassign⟩ :=
      Stance.Steps.exists_targets (b := true) hsteps hchain hhead hst.inner hflow
    have hsep : ∀ l ∈ rest, ¬ l.Separates := fun l hl => hst.inner l (List.mem_append_right _ hl)
    have hflow : ∀ w, .flow w ∉ rest := fun w hw => hflow w (List.mem_append_right _ hw)
    have hexpresses : ∀ l ∈ rest, l.Expresses := fun l hl =>
      expresses_of (hsep l hl) (hinner l (List.mem_append_right _ hl))
        (fun w hw => hflow w (hw ▸ hl))
        fun ha => hassign (ha ▸ hl)
    have hphrase : Phrase rest u :=
      Phrase.run hrest (.start rfl rfl rfl) rfl (List.isChain_append.mp hchain).2.1 hexpresses
        (remembered_of_targets hkept)
    cases hw : u.wantsOperand with
    | false =>
      obtain ⟨e, he, rfl⟩ := hphrase.exists_expr hends hw
      exact .inr ⟨⟨targets, e⟩, he, rfl⟩
    | true =>
      have hfresh : u.fresh = true := hends.2.2 hw
      have htargets : targets = [] := by
        by_contra hne
        have hold : (true && targets.isEmpty) = false := by simp [hne]
        exact Bool.false_ne_true ((hrest.fresh hsep hold).2.symm.trans hfresh)
      obtain ⟨hsign, -, hbar⟩ := hrest.signs hsep rfl hfresh
      have hno : .operator .modulus ∉ rest := fun hmem =>
        Bool.false_ne_true (hends.2.1.symm.trans (Stance.anyUp_of_isUp (hbar (.inr hmem))))
      subst htargets
      refine .inl (hsigns.resolve_right ?_)
      rintro ⟨l, hl, hne⟩
      have hl : l ∈ rest := hl
      rcases hsign l hl with (rfl | rfl | rfl) | ⟨w, rfl⟩
      · exact hassign hl
      · exact hne rfl
      · exact hno hl
      · exact hflow w hl

theorem ordinary_statement_chain : ∃ text tally pre st post, check text 0 = .ok tally ∧
    Delimits pre st post (Lexeme.ofBody text 0) ∧ (∀ w, .flow w ∉ st) ∧ Remembered st ∧
      WellFormed st := by
  let text := "y,x=z=|-z|^p1+sin(c)\x7d"
  let st : List Lexeme :=
    [.name "x", .operator .assign, .name "z", .operator .assign, .operator .modulus,
      .operator .minus, .name "z", .operator .modulus, .operator .caret, .name "p1",
      .operator .plus, .call .sin, .leftParen, .name "c", .rightParen]
  have hstream : Token.stream (Cursor.seek text 0) = Token.firstTokens 40 (Cursor.seek text 0) :=
    Token.stream_eq_firstTokens (by decide +kernel)
  obtain ⟨tally, h⟩ : ∃ tally, check text 0 = .ok tally := by
    refine exists_check ?_
    rw [check, hstream]
    decide +kernel
  have hlexemes : Lexeme.ofBody text 0 = [.name "y", .operator .comma] ++ st ++ [] := by
    rw [Lexeme.ofBody, hstream]
    decide +kernel
  have hst : Delimits [.name "y", .operator .comma] st [] (Lexeme.ofBody text 0) := by
    refine ⟨hlexemes, ?_, ?_, nofun⟩
    · simp [Separates, Operator.endsStatement]
    · simp [st, Separates, Operator.endsStatement]
  have hflow : ∀ w, .flow w ∉ st := by simp [st]
  have hkept : Remembered st := remembered_of_count (by decide)
  have hsigns : st.head? ≠ some (.operator .assign) ∧
      (st = [] ∨ ∃ l ∈ st, l ≠ .operator .minus) := ⟨by decide, .inr ⟨.name "x", by decide⟩⟩
  exact ⟨text, tally, _, st, _, h, hst, hflow, hkept,
    (ordinary_statement h hst hflow hkept).mpr hsigns⟩

/-- Nothing comes after a minus sign. -/
theorem exists_lone_sign : ∃ text tally pre st post, check text 0 = .ok tally ∧
    Delimits pre st post (Lexeme.ofBody text 0) ∧ (∀ w, .flow w ∉ st) ∧ ¬ WellFormed st := by
  let text := "z=c,-\x7d"
  have hstream : Token.stream (Cursor.seek text 0) = Token.firstTokens 9 (Cursor.seek text 0) :=
    Token.stream_eq_firstTokens (by decide +kernel)
  obtain ⟨tally, h⟩ : ∃ tally, check text 0 = .ok tally := by
    refine exists_check ?_
    rw [check, hstream]
    decide +kernel
  have hlexemes : Lexeme.ofBody text 0 =
      [.name "z", .operator .assign, .name "c", .operator .comma] ++ [.operator .minus] ++ [] := by
    rw [Lexeme.ofBody, hstream]
    decide +kernel
  refine ⟨text, tally, _, [.operator .minus], _, h, ⟨hlexemes, ?_, ?_, nofun⟩, by simp, ?_⟩
  · simp [Separates, Operator.endsStatement]
  · simp [Separates, Operator.endsStatement]
  · rintro (hnil | ⟨⟨targets, value⟩, -, hlex⟩)
    · cases hnil
    · obtain ⟨l, hl, hne⟩ := value.exists_mem_lexemes
      have hmem : l ∈ [Lexeme.operator .minus] := hlex ▸ List.mem_append_right _ hl
      exact hne (List.mem_singleton.mp hmem)

end FractalFormula
