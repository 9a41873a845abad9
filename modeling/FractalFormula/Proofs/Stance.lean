/-
What a lexeme without a complaint does to the check.

Whether the check complains about a lexeme depends on its `Stance` in the statement and on the
branches that are open.  `Stance.Step` says of each lexeme when it is let through, as far as the
statement is concerned, and where the check stands then; `Check.steps_of_check` says that it goes
from step to step over an accepted body.
-/
import FractalFormula.Proofs.Adjacency
import FractalFormula.Proofs.Balance

namespace FractalFormula
namespace Check

/-- Where the check stands in a statement. -/
structure Stance where
  wantsOperand : Bool := true
  fresh : Bool := true
  assignable : Bool := true
  afterCaret : Bool := false
  openParens : Nat := 0
  bars : Nesting := .flat
  deriving DecidableEq, Repr

def State.stance (s : State) : Stance :=
  { wantsOperand := s.wantsOperand, fresh := s.fresh, assignable := s.assignable,
    afterCaret := s.afterCaret, openParens := s.openParens, bars := s.bars }

namespace Stance

/-- Everything that was opened in the statement is closed, and no operand is missing. -/
def Ends (t : Stance) : Prop :=
  t.openParens = 0 ∧ t.bars.anyUp = false ∧ (t.wantsOperand = true → t.fresh = true)

/-- Over a lexeme that is not complained about the check goes on from `t` to `t'`. -/
def Step (t t' : Stance) : Lexeme → Prop
  | .leftParen => t.wantsOperand = true ∧ t.openParens < parenLimit ∧
      t' = { t with
        fresh := false, assignable := false, afterCaret := false, openParens := t.openParens + 1,
        bars := t.bars.enter }
  | .rightParen => t.wantsOperand = false ∧ t.openParens ≠ 0 ∧ t.bars.isUp = false ∧
      t' = { t with
        fresh := false, assignable := false, afterCaret := false, openParens := t.openParens - 1,
        bars := t.bars.leave }
  | .name _ => t.wantsOperand = true ∧
      t' = { t with wantsOperand := false, fresh := false, afterCaret := false }
  | .literal _ _ _ => t.wantsOperand = true ∧
      t' = { t with
        wantsOperand := false, fresh := false, assignable := false, afterCaret := false }
  | .call _ => t.wantsOperand = true ∧
      t' = { t with fresh := false, assignable := false, afterCaret := false }
  | .flow _ => t.fresh = true ∧ t' = { t with assignable := false, afterCaret := false }
  | .operator .comma | .operator .colon => t.Ends ∧ t' = {}
  | .operator .assign => t.assignable = true ∧
      t' = { t with wantsOperand := true, afterCaret := false }
  | .operator .modulus => t.bars.isUp = !t.wantsOperand ∧
      t' = { t with assignable := false, afterCaret := false, bars := t.bars.toggle }
  | .operator .minus => t.afterCaret = false ∧
      t' = { t with wantsOperand := true, assignable := false }
  | .operator o => t.wantsOperand = false ∧
      t' = { t with wantsOperand := true, assignable := false, afterCaret := o == .caret }
  | .close => t.Ends ∧ t' = { t with afterCaret := false }
  | .fault _ => False

end Stance

/-! ## Steps of the check -/

theorem stance_note (s : State) (c : Complaint) (place : Span) :
    (s.note c place).stance = s.stance := by
  unfold State.note
  repeat' split
  all_goals rfl

theorem stance_noteIf (s : State) (b : Bool) (c : Complaint) (place : Span) :
    (s.noteIf b c place).stance = s.stance := by
  cases b with
  | false => rfl
  | true => exact stance_note s c place

/-- What is not complained about is not the case. -/
theorem noteIf_of_nil {s : State} {b : Bool} {c : Complaint} {place : Span}
    (h : (s.noteIf b c place).findings = []) : b = false ∧ s.noteIf b c place = s := by
  obtain rfl := noteIf_eq_nil h
  exact ⟨rfl, rfl⟩

theorem closeGroups_of_nil {s : State} {place : Span} (h : (s.closeGroups place).findings = []) :
    s.openParens = 0 ∧ s.bars.anyUp = false ∧ s.closeGroups place = s := by
  unfold State.closeGroups at h ⊢
  obtain ⟨hup, hsecond⟩ := noteIf_of_nil h
  rw [hsecond] at h ⊢
  obtain ⟨hopen, hfirst⟩ := noteIf_of_nil h
  rw [hfirst] at hup ⊢
  exact ⟨by simpa using hopen, hup, rfl⟩

variable {s : State} {place : Span}

theorem step_leftParen (h : (s.leftParen place).findings = []) (hcaret : s.afterCaret = false) :
    s.stance.Step (s.leftParen place).stance .leftParen := by
  unfold State.leftParen at h ⊢
  dsimp only at h ⊢
  by_cases hlimit : parenLimit < s.openParens + 1
  · rw [if_pos hlimit] at h
    exact absurd h (Keeps.note_ne_nil _ _ _)
  · rw [if_neg hlimit] at h ⊢
    obtain ⟨hw, heq⟩ := noteIf_of_nil h
    rw [heq]
    have hw : s.wantsOperand = true := by simpa using hw
    have hlimit : s.openParens < parenLimit := Nat.lt_of_succ_le (Nat.not_lt.mp hlimit)
    refine ⟨hw, hlimit, ?_⟩
    simp only [State.stance, hcaret]

theorem step_rightParen (h : (s.rightParen place).findings = []) (hcaret : s.afterCaret = false) :
    s.stance.Step (s.rightParen place).stance .rightParen := by
  unfold State.rightParen at h ⊢
  obtain ⟨hw, heq⟩ := noteIf_of_nil h
  rw [heq] at h ⊢
  dsimp only at h hw ⊢
  by_cases hopen : s.openParens = 0
  · rw [if_pos hopen] at h
    split at h
    · exact absurd h (Keeps.note_ne_nil _ _ _)
    · exact absurd h (Keeps.note_ne_nil _ _ _)
  · rw [if_neg hopen] at h hw ⊢
    dsimp only at h hw ⊢
    by_cases hup : s.bars.isUp = true
    · rw [if_pos hup] at h
      exact absurd h (Keeps.note_ne_nil _ _ _)
    · rw [if_neg hup] at hw ⊢
      refine ⟨hw, hopen, Bool.eq_false_iff.mpr hup, ?_⟩
      simp only [State.stance, hcaret]

theorem step_operand {isVariable : Bool} (h : (s.operand isVariable place).findings = []) :
    s.wantsOperand = true ∧ (s.operand isVariable place).stance = { s.stance with
      wantsOperand := false, fresh := false, assignable := s.assignable && isVariable } := by
  unfold State.operand at h ⊢
  dsimp only at h ⊢
  obtain ⟨hw, heq⟩ := @noteIf_of_nil _ _ .operatorExpected place h
  have hw : (!s.wantsOperand) = false := hw
  rw [heq]
  exact ⟨by simpa using hw, rfl⟩

theorem step_call (h : (s.call place).findings = []) :
    s.wantsOperand = true ∧
      (s.call place).stance = { s.stance with fresh := false, assignable := false } := by
  unfold State.call at h ⊢
  obtain ⟨hw, heq⟩ := noteIf_of_nil h
  have hw : (!s.wantsOperand) = false := hw
  rw [heq]
  exact ⟨by simpa using hw, rfl⟩

theorem stance_branch : (s.branch place).stance = s.stance := by
  unfold State.branch
  split
  · exact stance_note _ _ _
  · exact stance_noteIf _ _ _ _

theorem step_flow {w : FlowWord} (h : (s.flow w place).findings = []) :
    s.fresh = true ∧ (s.flow w place).stance = { s.stance with assignable := false } := by
  by_cases hfresh : (!s.fresh) = true
  · have hnote : s.flow w place = _ := if_pos hfresh
    rw [hnote] at h
    exact absurd h (Keeps.note_ne_nil _ _ _)
  · have hflow : s.flow w place = _ := if_neg hfresh
    refine ⟨by simpa using hfresh, ?_⟩
    rw [hflow]
    cases w with
    | «if» => rfl
    | elseIf | «else» => exact stance_branch
    | endIf =>
      dsimp only
      split
      · exact stance_note _ _ _
      · rfl

theorem step_colon (h : (s.colon place).findings = []) :
    s.findings = [] ∧ (s.colon place).stance = s.stance := by
  let t := { s.noteIf (s.openIfs ≠ 0) .ifOpenAtColon place with openIfs := 0 }
  have ht : Keeps s (s.noteIf (s.openIfs ≠ 0) .ifOpenAtColon place) := (Keeps.refl s).noteIf _ _ _
  have hnil : t.findings = [] := ((Keeps.refl t).noteIf t.colonSeen .secondColon place).findings h
  exact ⟨ht.findings hnil, (stance_noteIf t _ _ _).trans (stance_noteIf s _ _ _)⟩

theorem step_separator {isColon : Bool} (h : (s.separator isColon place).findings = []) :
    s.stance.Ends ∧ (s.separator isColon place).stance = { afterCaret := s.afterCaret } := by
  let t := { (s.addOps 2).closeGroups place with openParens := 0, bars := .flat }
  let u := endOfStatement s isColon place
  have hu : u.findings = [] ∧ (if isColon then u.colon place else u).stance = u.stance := by
    cases isColon with
    | false => exact ⟨h, rfl⟩
    | true => exact step_colon h
  have hclose : ((s.addOps 2).closeGroups place).findings = [] ∧
      (t.wantsOperand = true → t.fresh = true) ∧ u.stance = t.stance := by
    have hnil : u.findings = [] := hu.1
    by_cases hw : (!t.wantsOperand) = true
    · have hu : u = t.addOps (if isColon then 2 else 1) := if_pos hw
      rw [hu] at hnil ⊢
      exact ⟨hnil, fun hw' => by simp [hw'] at hw, rfl⟩
    · have hu : u = t.noteIf (!t.fresh) .argumentExpected place := if_neg hw
      rw [hu] at hnil ⊢
      obtain ⟨hfresh, heq⟩ := noteIf_of_nil hnil
      rw [heq] at hnil ⊢
      exact ⟨hnil, fun _ => by simpa using hfresh, rfl⟩
  obtain ⟨hnil, hfresh, hstance⟩ := hclose
  obtain ⟨hopen, hup, heq⟩ := closeGroups_of_nil hnil
  have ht : t = { s.addOps 2 with openParens := 0, bars := .flat } := by rw [← heq]
  refine ⟨⟨hopen, hup, ?_⟩, ?_⟩
  · rw [ht] at hfresh
    exact hfresh
  · have hend := hu.2.trans hstance
    rw [ht] at hend
    exact congrArg (fun t : Stance => { t with
      fresh := true, wantsOperand := true, assignable := true }) hend

theorem step_operator {o : Operator} (hcaret : s.afterCaret = false)
    (h : (s.operator o place).findings = []) :
    s.stance.Step (s.operator o place).stance (.operator o) := by
  have infixed (h : (s.infixOperator place).findings = []) : s.wantsOperand = false ∧
      (s.infixOperator place).stance = { s.stance with
        wantsOperand := true, assignable := false } := by
    unfold State.infixOperator at h ⊢
    dsimp only at h ⊢
    obtain ⟨hw, heq⟩ := @noteIf_of_nil _ _ .argumentExpected place h
    rw [heq]
    exact ⟨hw, rfl⟩
  cases o with
  | comma | colon =>
    obtain ⟨hends, hstance⟩ := step_separator h
    refine ⟨hends, hstance.trans ?_⟩
    rw [hcaret]
  | assign =>
    have h : (s.assign place).findings = [] := h
    unfold State.assign at h
    dsimp only at h
    obtain ⟨ha, heq⟩ := @noteIf_of_nil _ _ .illegalAssignment place h
    have ha : s.assignable = true := by simpa using ha
    refine ⟨ha, ?_⟩
    show (s.assign place).stance = _
    unfold State.assign
    dsimp only
    rw [heq]
    simp only [State.stance, hcaret]
  | modulus =>
    have h : (s.modulus place).findings = [] := h
    show _ ∧ (s.modulus place).stance = _
    unfold State.modulus at h ⊢
    dsimp only at h ⊢
    by_cases hup : s.bars.isUp = true
    · rw [if_pos hup] at h ⊢
      obtain ⟨hw, heq⟩ := @noteIf_of_nil _ _ .argumentExpected place h
      have hw : s.wantsOperand = false := hw
      rw [heq]
      refine ⟨?_, ?_⟩
      · show s.bars.isUp = !s.wantsOperand
        rw [hup, hw]
        rfl
      · simp only [State.stance, State.addOps, hcaret]
    · rw [if_neg hup] at h ⊢
      obtain ⟨hw, heq⟩ := @noteIf_of_nil _ _ .operatorExpected place h
      rw [heq]
      refine ⟨?_, ?_⟩
      · show s.bars.isUp = !s.wantsOperand
        exact (Bool.eq_false_iff.mpr hup).trans hw.symm
      · simp only [State.stance, hcaret]
  | minus =>
    refine ⟨hcaret, rfl⟩
  | caret =>
    obtain ⟨hw, hstance⟩ := infixed h
    refine ⟨hw, ?_⟩
    show { (s.infixOperator place).stance with afterCaret := true } = _
    rw [hstance]
    rfl
  | _ =>
    obtain ⟨hw, hstance⟩ := infixed h
    refine ⟨hw, hstance.trans ?_⟩
    simp only [State.stance, hcaret]
    rfl

theorem step_close (h : (s.close place).findings = []) :
    s.stance.Ends ∧ (s.close place).stance = s.stance := by
  let t := (s.addOps 3).closeGroups place
  let u := t.noteIf (t.openIfs ≠ 0) .ifOpenAtEnd place
  let v := if u.wantsOperand && !u.fresh then
      { u.note .argumentExpected place with statement := place.stop }
    else u
  have hv : v.findings = [] :=
    ((Keeps.refl v).noteIf (jumpLimit ≤ v.tally.jumps) .tooManyJumps place).findings h
  have hu : (u.wantsOperand = true → u.fresh = true) ∧ v = u := by
    by_cases hmissing : (u.wantsOperand && !u.fresh) = true
    · have hnote : v = _ := if_pos hmissing
      rw [hnote] at hv
      exact absurd hv (Keeps.note_ne_nil u .argumentExpected place)
    · have hv' : v = u := if_neg hmissing
      exact ⟨fun hw => by simpa [hw] using hmissing, hv'⟩
  obtain ⟨hfresh, hv'⟩ := hu
  rw [hv'] at hv
  have heq : u = t := (noteIf_of_nil hv).2
  rw [heq] at hv hfresh
  obtain ⟨hopen, hup, ht⟩ := closeGroups_of_nil hv
  have ht : t = s.addOps 3 := ht
  rw [ht] at hfresh
  refine ⟨⟨hopen, hup, hfresh⟩, ?_⟩
  refine (stance_noteIf v (jumpLimit ≤ v.tally.jumps) .tooManyJumps place).trans ?_
  rw [hv', heq, ht]
  rfl

/-- But for a minus sign, what came before does not matter to a lexeme. -/
theorem Stance.Step.of_caret {t t' : Stance} {l : Lexeme} (hl : l ≠ .operator .minus)
    (h : Step { t with afterCaret := false } t' l) : t.Step t' l := by
  cases l with
  | operator o =>
    cases o with
    | minus => exact absurd rfl hl
    | _ => exact h
  | _ => exact h

theorem step_take {l : Lexeme} {size : Nat} (h : (s.take l size place).findings = []) :
    s.stance.Step (s.take l size place).stance l := by
  unfold State.take at h ⊢
  by_cases hcaret : (s.afterCaret && l == .operator .minus) = true
  · rw [if_pos hcaret] at h
    exact absurd h (Keeps.note_ne_nil _ _ _)
  · rw [if_neg hcaret] at h ⊢
    dsimp only at h ⊢
    have hstance : ({ s with afterCaret := false }.addChars size).stance =
        { s.stance with afterCaret := false } := rfl
    have hafter : ({ s with afterCaret := false }.addChars size).afterCaret = false := rfl
    generalize { s with afterCaret := false }.addChars size = t at h hstance hafter ⊢
    cases l with
    | operator o =>
      have hstep := step_operator hafter h
      rw [hstance] at hstep
      by_cases ho : o = .minus
      · subst ho
        have hcaret : s.stance.afterCaret = false := by simpa [State.stance] using hcaret
        refine ⟨hcaret, hstep.2.trans ?_⟩
        rw [hcaret]
      · exact hstep.of_caret fun h => ho (Lexeme.operator.inj h)
    | flow w =>
      obtain ⟨hfresh, hflow⟩ := step_flow h
      rw [hflow]
      rw [show t.fresh = t.stance.fresh from rfl, hstance] at hfresh
      exact ⟨hfresh, by rw [hstance]⟩
    | leftParen =>
      have hstep := step_leftParen h hafter
      rw [hstance] at hstep
      exact hstep.of_caret nofun
    | rightParen =>
      have hstep := step_rightParen h hafter
      rw [hstance] at hstep
      exact hstep.of_caret nofun
    | name =>
      obtain ⟨hw, hstep⟩ := step_operand h
      rw [show t.wantsOperand = t.stance.wantsOperand from rfl, hstance] at hw
      refine ⟨hw, ?_⟩
      rw [hstep, Bool.and_true, show t.assignable = t.stance.assignable from rfl, hstance]
    | literal =>
      obtain ⟨hw, hstep⟩ := step_operand h
      rw [show t.wantsOperand = t.stance.wantsOperand from rfl, hstance] at hw
      refine ⟨hw, ?_⟩
      rw [hstep, Bool.and_false, hstance]
    | call =>
      obtain ⟨hw, hstep⟩ := step_call h
      rw [show t.wantsOperand = t.stance.wantsOperand from rfl, hstance] at hw
      refine ⟨hw, ?_⟩
      rw [hstep, hstance]
    | close =>
      obtain ⟨hends, hclose⟩ := step_close h
      rw [hstance] at hends
      exact ⟨hends, hclose.trans hstance⟩
    | fault => exact absurd h (Keeps.note_ne_nil _ _ _)

/-! ## Accepted bodies -/

namespace Stance

/-- Where the check goes on depends on the lexeme alone. -/
theorem Step.unique {t u u' : Stance} {l : Lexeme} (h : t.Step u l) (h' : t.Step u' l) : u = u' := by
  cases l with
  | rightParen =>
    obtain ⟨-, -, -, rfl⟩ := h
    obtain ⟨-, -, -, rfl⟩ := h'
    rfl
  | leftParen =>
    obtain ⟨-, -, rfl⟩ := h
    obtain ⟨-, -, rfl⟩ := h'
    rfl
  | operator o =>
    cases o <;>
    · obtain ⟨-, rfl⟩ := h
      obtain ⟨-, rfl⟩ := h'
      rfl
  | fault => exact h.elim
  | _ =>
    obtain ⟨-, rfl⟩ := h
    obtain ⟨-, rfl⟩ := h'
    rfl

/-- From `t` the check goes on to `t'` over lexemes that it does not complain about. -/
inductive Steps : Stance → List Lexeme → Stance → Prop
  | nil (t : Stance) : Steps t [] t
  | cons {t t' t'' : Stance} {l : Lexeme} {ls : List Lexeme} :
    t.Step t' l → Steps t' ls t'' → Steps t (l :: ls) t''

theorem Steps.append {t t' : Stance} {a b : List Lexeme} (h : Steps t (a ++ b) t') :
    ∃ u, Steps t a u ∧ Steps u b t' := by
  induction a generalizing t with
  | nil => exact ⟨t, .nil t, h⟩
  | cons l a ih =>
    cases h with
    | cons hl hls =>
      obtain ⟨u, ha, hb⟩ := ih hls
      exact ⟨u, .cons hl ha, hb⟩

/-- The last step. -/
theorem Steps.concat {t t' : Stance} {ls : List Lexeme} {l : Lexeme} (h : Steps t (ls ++ [l]) t') :
    ∃ u, Steps t ls u ∧ u.Step t' l := by
  obtain ⟨u, hls, hl⟩ := h.append
  cases hl with
  | cons hstep hnil =>
    cases hnil
    exact ⟨u, hls, hstep⟩

theorem Steps.unique {t u u' : Stance} {ls : List Lexeme} (h : t.Steps ls u) (h' : t.Steps ls u') :
    u = u' := by
  induction h with
  | nil => cases h'; rfl
  | cons hl _ ih =>
    cases h' with
    | cons hl' hls' => exact ih (hl.unique hl' ▸ hls')

theorem Steps.trans {t u t' : Stance} {a b : List Lexeme} (ha : Steps t a u) (hb : Steps u b t') :
    Steps t (a ++ b) t' := by
  induction ha with
  | nil => exact hb
  | cons hl _ ih => exact .cons hl (ih hb)

end Stance

theorem findings_of_run {tokens : List Token} {tally : Tally} : ∀ {s : State},
    run s tokens = .ok tally → s.findings = [] := by
  induction tokens with
  | nil => exact findings_of_verdict
  | cons t rest ih =>
    intro s hrun
    rcases run_cons_ok hrun with ⟨-, hnil⟩ | ⟨-, -, hrun⟩
    · exact (passes_take hnil).findings
    · exact (passes_take (ih hrun)).findings

/-- The check steps over the tokens of an accepted body up to its closing brace. -/
theorem steps_of_run {pre rest : List Token} {t : Token} (ht : t.kind = .close)
    (hpre : ∀ u ∈ pre, u.kind ≠ .close) {tally : Tally} :
    ∀ {s : State}, run s (pre ++ t :: rest) = .ok tally →
      ∃ u, s.stance.Steps (pre.map Token.lexeme) u ∧ u.Ends := by
  induction pre with
  | nil =>
    intro s hrun
    rcases run_cons_ok hrun with ⟨-, hnil⟩ | ⟨hclose, -⟩
    · have hstep := step_take hnil
      rw [Token.lexeme, ht] at hstep
      exact ⟨s.stance, .nil _, hstep.1⟩
    · exact absurd ht hclose
  | cons v pre ih =>
    intro s hrun
    rcases run_cons_ok hrun with ⟨hclose, -⟩ | ⟨-, -, hrun⟩
    · exact absurd hclose (hpre v List.mem_cons_self)
    · obtain ⟨u, hsteps, hends⟩ := ih (fun w hw => hpre w (List.mem_cons_of_mem _ hw)) hrun
      exact ⟨u, .cons (step_take (findings_of_run hrun)) hsteps, hends⟩

end Check
end FractalFormula
