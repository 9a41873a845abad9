/-
The tally of the check.

The check counts what the program of a body will hold (`Check.counts_take`), and the compiler has to
make do with that.  The two do not count alike: the check counts a bar when it closes, the compiler
puts it down when it opens; separators take up more room than they need, and signs that become part
of a literal none.  So the tables hold what was counted, and the code is no longer than that
(`tally_covers`).
-/
import FractalFormula.Proofs.Course

namespace FractalFormula

open Compile

/-! ## What the check counts -/

namespace Lexeme

/-- How many instructions the check counts for a lexeme that it reads at the stance `t`. -/
def ops (t : Check.Stance) : Lexeme → Nat
  | .name _ | .literal _ _ _ | .call _ => 1
  | .flow .elseIf => 4
  | .flow _ => 1
  | .operator .comma => if t.wantsOperand then 2 else 3
  | .operator .colon => if t.wantsOperand then 2 else 4
  | .operator .assign => 0
  | .operator .modulus => if t.bars.isUp then 1 else 0
  | .operator _ => 1
  | .close => 3
  | .leftParen | .rightParen | .fault _ => 0

/-- How many loads there are behind a lexeme, with `n` before it.  An assignment takes one back. -/
def loads (n : Nat) : Lexeme → Nat
  | .name _ | .literal _ _ _ => n + 1
  | .operator .assign => n - 1
  | _ => n

end Lexeme

namespace Check

/-- The check goes on from `tally` to `tally'` over a lexeme that it reads at the stance `t`. -/
structure Counts (t : Stance) (l : Lexeme) (tally tally' : Tally) : Prop where
  ops : tally'.ops = tally.ops + l.ops t
  loads : tally'.loads = l.loads tally.loads
  stores : tally'.stores = tally.stores + if l = .operator .assign then 1 else 0
  jumps : tally'.jumps = tally.jumps + l.words.length

variable {s : State} {place : Span}

@[simp] theorem tally_note (s : State) (c : Complaint) (place : Span) :
    (s.note c place).tally = s.tally := by
  unfold State.note
  repeat' split
  all_goals rfl

@[simp] theorem tally_noteIf (s : State) (b : Bool) (c : Complaint) (place : Span) :
    (s.noteIf b c place).tally = s.tally := by
  cases b with
  | false => rfl
  | true => exact tally_note s c place

theorem tally_leftParen : (s.leftParen place).tally = s.tally := by
  simp only [State.leftParen, apply_ite State.tally, tally_note, tally_noteIf, ite_self]

theorem tally_rightParen : (s.rightParen place).tally = s.tally := by
  simp only [State.rightParen, apply_ite State.tally, tally_note, tally_noteIf, ite_self]

theorem tally_operand {isVariable : Bool} : (s.operand isVariable place).tally =
    { s.tally with ops := s.tally.ops + 1, loads := s.tally.loads + 1 } := by
  simp only [State.operand, tally_noteIf, State.addOps]

theorem tally_call : (s.call place).tally = { s.tally with ops := s.tally.ops + 1 } := by
  simp only [State.call, tally_noteIf, State.addOps]

theorem tally_branch : (s.branch place).tally = s.tally := by
  simp only [State.branch, apply_ite State.tally, tally_note, tally_noteIf, ite_self]

theorem tally_closeGroups : (s.closeGroups place).tally = s.tally := by
  simp only [State.closeGroups, tally_noteIf]

theorem wantsOperand_closeGroups : (s.closeGroups place).wantsOperand = s.wantsOperand :=
  congrArg Stance.wantsOperand ((stance_noteIf _ _ _ _).trans (stance_noteIf _ _ _ _))

theorem tally_colon : (s.colon place).tally = s.tally := by
  simp only [State.colon, tally_noteIf]

theorem tally_separator {isColon : Bool} : (s.separator isColon place).tally =
    { s.tally with
      ops := s.tally.ops + if s.wantsOperand then 2 else if isColon then 4 else 3 } := by
  cases hw : s.wantsOperand <;> cases isColon <;>
    simp [State.separator, wantsOperand_closeGroups, tally_closeGroups, tally_colon, State.addOps, hw]

theorem tally_assign : (s.assign place).tally =
    { s.tally with loads := s.tally.loads - 1, stores := s.tally.stores + 1 } := by
  simp only [State.assign, tally_noteIf]

theorem tally_modulus : (s.modulus place).tally =
    { s.tally with ops := s.tally.ops + if s.bars.isUp then 1 else 0 } := by
  cases hup : s.bars.isUp <;> simp [State.modulus, State.addOps, hup]

theorem tally_infixOperator : (s.infixOperator place).tally =
    { s.tally with ops := s.tally.ops + 1 } := by
  simp only [State.infixOperator, tally_noteIf, State.addOps]

theorem tally_close : (s.close place).tally = { s.tally with ops := s.tally.ops + 3 } := by
  simp only [State.close, apply_ite State.tally, tally_note, tally_noteIf, tally_closeGroups,
    State.addOps, ite_self]

theorem counts_flow {w : FlowWord} (t : Stance) (h : (s.flow w place).findings = []) :
    Counts t (.flow w) s.tally (s.flow w place).tally := by
  unfold State.flow at h ⊢
  dsimp only at h ⊢
  split at h
  case isTrue => exact absurd h (Keeps.note_ne_nil _ _ _)
  case isFalse hfresh =>
    rw [if_neg hfresh]
    cases w with
    | «if» => exact ⟨rfl, rfl, rfl, rfl⟩
    | elseIf =>
      rw [tally_branch]
      exact ⟨rfl, rfl, rfl, rfl⟩
    | «else» =>
      dsimp only
      rw [tally_branch]
      exact ⟨rfl, rfl, rfl, rfl⟩
    | endIf =>
      simp only [apply_ite State.tally, tally_note, ite_self]
      exact ⟨rfl, rfl, rfl, rfl⟩

theorem counts_operator (o : Operator) :
    Counts s.stance (.operator o) s.tally (s.operator o place).tally := by
  cases o with
  | comma =>
    show Counts _ _ _ (s.separator false place).tally
    rw [tally_separator]
    exact ⟨rfl, rfl, rfl, rfl⟩
  | colon =>
    show Counts _ _ _ (s.separator true place).tally
    rw [tally_separator]
    exact ⟨rfl, rfl, rfl, rfl⟩
  | assign =>
    show Counts _ _ _ (s.assign place).tally
    rw [tally_assign]
    exact ⟨rfl, rfl, rfl, rfl⟩
  | modulus =>
    show Counts _ _ _ (s.modulus place).tally
    rw [tally_modulus]
    exact ⟨rfl, rfl, rfl, rfl⟩
  | minus => exact ⟨rfl, rfl, rfl, rfl⟩
  | _ =>
    show Counts _ _ _ (s.infixOperator place).tally
    rw [tally_infixOperator]
    exact ⟨rfl, rfl, rfl, rfl⟩

theorem counts_take {l : Lexeme} {size : Nat} (h : (s.take l size place).findings = []) :
    Counts s.stance l s.tally (s.take l size place).tally := by
  unfold State.take at h ⊢
  split at h
  case isTrue => exact absurd h (Keeps.note_ne_nil _ _ _)
  case isFalse hcaret =>
    rw [if_neg hcaret]
    dsimp only at h ⊢
    cases l with
    | leftParen =>
      rw [tally_leftParen]
      exact ⟨rfl, rfl, rfl, rfl⟩
    | rightParen =>
      rw [tally_rightParen]
      exact ⟨rfl, rfl, rfl, rfl⟩
    | name | literal =>
      rw [tally_operand]
      exact ⟨rfl, rfl, rfl, rfl⟩
    | call =>
      rw [tally_call]
      exact ⟨rfl, rfl, rfl, rfl⟩
    | flow w =>
      obtain ⟨hops, hloads, hstores, hjumps⟩ := counts_flow s.stance h
      exact ⟨hops, hloads, hstores, hjumps⟩
    | operator o =>
      obtain ⟨hops, hloads, hstores, hjumps⟩ :=
        @counts_operator ({ s with afterCaret := false }.addChars size) place o
      refine ⟨?_, hloads, hstores, hjumps⟩
      cases o <;> exact hops
    | close =>
      rw [tally_close]
      exact ⟨rfl, rfl, rfl, rfl⟩
    | fault => exact absurd h (Keeps.note_ne_nil _ _ _)

end Check

/-! ## What the compiler puts down -/

namespace Compile

variable {d : Draft} {l : Lexeme}

theorem tables_name (d : Draft) (text : String) :
    (d.take (.name text)).loads.length = d.loads.length + 1 ∧
      (d.take (.name text)).stores = d.stores := by
  match d.take (.name text), nameTaken d text with
  | _, .known _ | _, .fresh _ => exact ⟨rfl, rfl⟩

theorem tables_literal (d : Draft) (text : String) (z : Complex Float) (isPair : Bool) :
    (d.take (.literal text z isPair)).loads.length = d.loads.length + 1 ∧
      (d.take (.literal text z isPair)).stores = d.stores := by
  match isPair, d.take (.literal text z isPair), literalTaken d text z isPair with
  | _, _, .known _ | _, _, .plain .. | _, _, .signed .. => exact ⟨rfl, rfl⟩

theorem tables_take (d : Draft) (l : Lexeme) : (d.take l).loads.length = l.loads d.loads.length ∧
    (d.take l).stores.length ≤ d.stores.length + if l = .operator .assign then 1 else 0 := by
  cases l with
  | name text =>
    obtain ⟨hloads, hstores⟩ := tables_name d text
    exact ⟨hloads, Nat.le_of_eq (congrArg List.length hstores)⟩
  | literal text z isPair =>
    obtain ⟨hloads, hstores⟩ := tables_literal d text z isPair
    exact ⟨hloads, Nat.le_of_eq (congrArg List.length hstores)⟩
  | operator o =>
    cases o with
    | comma =>
      show (d.operator .comma).loads.length = _ ∧ (d.operator .comma).stores.length ≤ _
      unfold Draft.operator
      dsimp only
      split <;> exact ⟨rfl, Nat.le_refl _⟩
    | assign =>
      show d.assign.loads.length = d.loads.length - 1 ∧ d.assign.stores.length ≤ d.stores.length + 1
      unfold Draft.assign
      cases d.loads with
      | nil => exact ⟨rfl, Nat.le_succ _⟩
      | cons slot rest => exact ⟨rfl, Nat.le_refl _⟩
    | modulus =>
      show d.modulus.loads.length = _ ∧ d.modulus.stores.length ≤ _
      unfold Draft.modulus
      split <;> exact ⟨rfl, Nat.le_refl _⟩
    | minus =>
      show (d.operator .minus).loads.length = _ ∧ (d.operator .minus).stores.length ≤ _
      unfold Draft.operator
      dsimp only
      split <;> exact ⟨rfl, Nat.le_refl _⟩
    | _ => exact ⟨rfl, Nat.le_refl _⟩
  | flow w => cases w <;> exact ⟨rfl, Nat.le_refl _⟩
  | _ => exact ⟨rfl, Nat.le_refl _⟩

theorem length_jumps_take (d : Draft) (l : Lexeme) :
    (d.take l).jumps.length = d.jumps.length + l.words.length := by
  rw [(adds_take d l).jumps, List.length_append, List.length_reverse, List.length_map, Nat.add_comm]

/-! ## What is pending -/

/-- What was queued last has an instruction: a statement ends with its marker. -/
def Draft.Topped (d : Draft) : Prop :=
  ∀ p ∈ d.pending.head?, p.op ≠ none

theorem op_getLast?_queued (d : Draft) (l : Lexeme) : ∀ p ∈ (l.queued d).getLast?, p.op ≠ none := by
  have one (op : Opcode) (prec : Int) :
      ∀ p ∈ [(⟨some op, prec⟩ : Pending Opcode)].getLast?, p.op ≠ none := by
    simp
  cases l with
  | name | call | literal => exact one _ _
  | flow w => cases w <;> simp [Lexeme.queued, FlowWord.piece]
  | operator o =>
    cases o with
    | comma =>
      unfold Lexeme.queued
      dsimp only
      split <;> simp [Break.piece]
    | colon => simp [Lexeme.queued, Break.piece]
    | assign | modulus | minus =>
      unfold Lexeme.queued
      dsimp only
      split <;> simp
    | _ => exact one _ _
  | _ => simp [Lexeme.queued]

/-- A lexeme that queues nothing takes nothing away. -/
theorem kept_of_queued_eq_nil (h : l.queued d = []) : l.kept d = d.pending := by
  cases l with
  | literal => cases h
  | operator o =>
    cases o with
    | assign =>
      have hnil : d.pending = [] := by
        unfold Lexeme.queued at h
        dsimp only at h
        split at h
        · simpa using ‹d.pending.isEmpty = true›
        · cases h
      rw [Lexeme.kept, hnil]
      rfl
    | _ => rfl
  | _ => rfl

theorem topped_take (h : d.Topped) (l : Lexeme) : (d.take l).Topped := by
  intro p hp
  rw [pending_take] at hp
  cases hqueued : l.queued d with
  | nil =>
    rw [hqueued, kept_of_queued_eq_nil hqueued] at hp
    exact h p hp
  | cons q rest =>
    rw [List.head?_append_of_ne_nil _ (by simp [hqueued]), List.head?_reverse] at hp
    exact op_getLast?_queued d l p hp

theorem length_outputs_take (h : d.Topped) (l : Lexeme) :
    (Pending.outputs (d.take l).pending).length ≤ (Pending.outputs d.pending).length +
      if l = .operator .assign then 0 else (Pending.outputs (l.queued d)).length := by
  have hlength : (Pending.outputs (d.take l).pending).length =
      (Pending.outputs (l.queued d)).length + (Pending.outputs (l.kept d)).length := by
    rw [pending_take, Pending.outputs_append, List.length_append, Pending.outputs,
      List.filterMap_reverse, List.length_reverse]
    rfl
  rw [hlength]
  by_cases hl : l = .operator .assign
  · subst hl
    rw [if_pos rfl]
    unfold Lexeme.queued Lexeme.kept
    cases hpending : d.pending with
    | nil => exact Nat.le_refl _
    | cons p rest =>
      obtain ⟨op, hop⟩ := Option.ne_none_iff_exists'.mp (h p (by rw [hpending]; rfl))
      show 1 + (Pending.outputs rest).length ≤ _
      rw [Pending.outputs, Pending.outputs, List.filterMap_cons_some hop, List.length_cons]
      omega
  · rw [if_neg hl, Nat.add_comm]
    have hkept := ((kept_suffix d l).sublist.filterMap Pending.op).length_le
    exact Nat.add_le_add_right hkept _

/-! ## Step by step -/

/-- The tally of the check has room for what the draft holds.  A bar that is open is not counted yet,
but pending. -/
structure Covers (tally : Tally) (t : Check.Stance) (d : Draft) : Prop where
  loads : d.loads.length = tally.loads
  stores : d.stores.length ≤ tally.stores
  jumps : d.jumps.length = tally.jumps
  ops : (Pending.outputs d.pending).length ≤ tally.ops + t.levels.count true
  topped : d.Topped

/-- The end of a statement takes up one instruction at most, and no bar is open there. -/
theorem length_outputs_ended {o : Operator} {t t' : Check.Stance} (hroomy : t.Roomy)
    (hends : t.Ends) (ht' : t' = {}) (ho : o.endsStatement = true) :
    (Pending.outputs (Lexeme.queued d (.operator o))).length + t.levels.count true ≤
      Lexeme.ops t (.operator o) + t'.levels.count true := by
  rw [Check.Stance.levels_of_ends hends hroomy, ht']
  show _ + 0 ≤ _ + 0
  have hmarker : (Pending.outputs (Lexeme.queued d (.operator o))).length ≤ 1 := by
    cases o with
    | comma =>
      unfold Lexeme.queued
      dsimp only
      split <;> simp [Pending.outputs, Break.piece]
    | colon => simp [Lexeme.queued, Pending.outputs, Break.piece]
    | _ => cases ho
  have hcounted : 2 ≤ Lexeme.ops t (.operator o) := by
    cases o with
    | comma | colon =>
      simp only [Lexeme.ops]
      split <;> omega
    | _ => cases ho
  omega

/-- A bar is counted when it closes. -/
theorem length_outputs_modulus {t : Check.Stance} (hroomy : t.Roomy)
    (hcloses : d.bar = d.parens - 1 ↔ t.bars.isUp = true) :
    (Pending.outputs (Lexeme.queued d (.operator .modulus))).length + t.levels.count true ≤
      Lexeme.ops t (.operator .modulus) + ((!t.bars.isUp) :: t.levels.tail).count true := by
  rw [Check.Stance.levels_eq_cons hroomy, List.tail_cons]
  unfold Lexeme.queued Lexeme.ops
  dsimp only
  cases hup : t.bars.isUp with
  | true =>
    rw [if_pos (hcloses.mpr hup), if_pos rfl, List.count_cons_self, Bool.not_true,
      List.count_cons_of_ne Bool.false_ne_true, Nat.add_comm 1]
    exact Nat.le_of_eq (Nat.zero_add _)
  | false =>
    rw [if_neg fun hbar => Bool.false_ne_true (hup.symm.trans (hcloses.mp hbar)),
      if_neg Bool.false_ne_true, List.count_cons_of_ne Bool.false_ne_true, Bool.not_false,
      List.count_cons_self, Nat.zero_add]
    exact Nat.le_of_eq (Nat.add_comm 1 _)

theorem length_outputs_le_ops (t : Check.Stance) (hcomma : l ≠ .operator .comma)
    (hcolon : l ≠ .operator .colon) (hassign : l ≠ .operator .assign)
    (hbar : l ≠ .operator .modulus) : (Pending.outputs (l.queued d)).length ≤ l.ops t := by
  cases l with
  | name | literal | call | leftParen | rightParen | fault => exact Nat.le_refl _
  | close => exact Nat.zero_le _
  | flow w => cases w <;> simp [Lexeme.queued, FlowWord.piece, Pending.outputs, Lexeme.ops]
  | operator o =>
    cases o with
    | comma => exact absurd rfl hcomma
    | colon => exact absurd rfl hcolon
    | assign => exact absurd rfl hassign
    | modulus => exact absurd rfl hbar
    | minus =>
      unfold Lexeme.queued
      dsimp only
      split <;> exact Nat.le_refl _
    | _ => exact Nat.le_refl _

/-- What a lexeme queues is counted, or it opens a bar. -/
theorem length_outputs_queued {pre : List Lexeme} {t t' : Check.Stance} (h : Course pre t d)
    (hstep : t.Step t' l) (hshallow : t.openParens < Nesting.depth)
    (hshallow' : t'.openParens < Nesting.depth) (hassign : l ≠ .operator .assign) :
    (Pending.outputs (l.queued d)).length + t.levels.count true ≤
      l.ops t + t'.levels.count true := by
  have hroomy := h.aligned.roomy
  by_cases hcomma : l = .operator .comma
  · subst hcomma
    exact length_outputs_ended hroomy hstep.1 hstep.2 rfl
  by_cases hcolon : l = .operator .colon
  · subst hcolon
    exact length_outputs_ended hroomy hstep.1 hstep.2 rfl
  cases (Check.Stance.shift_of_step hstep hroomy hshallow' hcomma hcolon).1 with
  | «open» hlevels _ =>
    rw [hlevels, List.count_cons_of_ne Bool.false_ne_true]
    exact Nat.le_refl _
  | «close» hlevels _ =>
    rw [hlevels, List.count_cons_of_ne Bool.false_ne_true]
    exact Nat.le_refl _
  | bar hlevels _ =>
    rw [hlevels]
    exact length_outputs_modulus hroomy (h.aligned.closes_iff hshallow)
  | other hleft hright hbar hlevels _ =>
    rw [hlevels]
    exact Nat.add_le_add_right (length_outputs_le_ops t hcomma hcolon hassign hbar) _

theorem Covers.take {pre : List Lexeme} {t t' : Check.Stance} {tally tally' : Tally}
    (h : Covers tally t d) (hcourse : Course pre t d) (hstep : t.Step t' l)
    (hshallow : t.openParens < Nesting.depth) (hshallow' : t'.openParens < Nesting.depth)
    (hcounts : Check.Counts t l tally tally') : Covers tally' t' (d.take l) := by
  obtain ⟨hloads, hstores⟩ := tables_take d l
  have hjumps := length_jumps_take d l
  have hops := length_outputs_take h.topped l
  constructor
  case loads => rw [hloads, hcounts.loads, h.loads]
  case stores =>
    have := h.stores
    rw [hcounts.stores]
    omega
  case jumps => rw [hjumps, hcounts.jumps, h.jumps]
  case ops =>
    have hle := h.ops
    rw [hcounts.ops]
    by_cases hassign : l = .operator .assign
    · subst hassign
      obtain ⟨-, rfl⟩ := hstep
      rw [if_pos rfl] at hops
      exact Nat.le_trans hops hle
    · have hqueued := length_outputs_queued hcourse hstep hshallow hshallow' hassign
      rw [if_neg hassign] at hops
      omega
  case topped => exact topped_take h.topped l

theorem covers_start (offset : Nat) (env : Environment) :
    Covers (Check.State.start offset).tally {} (.start env) :=
  ⟨rfl, Nat.le_refl _, rfl, Nat.zero_le _, nofun⟩

/-- At the end of a body no bar is open. -/
theorem Covers.close {pre : List Lexeme} {t t' : Check.Stance} {tally tally' : Tally}
    (h : Covers tally t d) (hcourse : Course pre t d) (hstep : t.Step t' .close)
    (hcounts : Check.Counts t .close tally tally') : Covers tally' {} d := by
  have hlevels := Check.Stance.levels_of_ends hstep.1 hcourse.aligned.roomy
  have hops := h.ops
  constructor
  case loads => exact h.loads.trans hcounts.loads.symm
  case stores => exact hcounts.stores ▸ h.stores
  case jumps => exact h.jumps.trans hcounts.jumps.symm
  case ops =>
    rw [hlevels] at hops
    rw [hcounts.ops]
    exact Nat.le_trans hops (Nat.le_add_right _ 3)
  case topped => exact h.topped

end Compile

/-! ## Accepted bodies -/

namespace Check

theorem run_close_ok {s : State} {t : Token} {rest : List Token} {tally : Tally}
    (ht : t.kind = .close) (h : run s (t :: rest) = .ok tally) :
    (s.take .close t.size t.span).findings = [] ∧ tally = (s.take .close t.size t.span).tally := by
  have hlexeme : t.lexeme = .close := by rw [Token.lexeme, ht]
  rw [run, if_neg (by simp [ht]), if_pos (.inl ht), State.read_eq_take, hlexeme] at h
  refine ⟨findings_of_verdict h, ?_⟩
  unfold State.verdict at h
  split at h
  · exact (Except.ok.inj h).symm
  · cases h

/-- The draft of an accepted body is covered to the end. -/
theorem covers_of_run {pre rest : List Token} {t : Token} (ht : t.kind = .close)
    (hpre : ∀ u ∈ pre, u.kind ≠ .close) {tally : Tally} :
    ∀ {s : State} {before : List Lexeme} {d : Draft} {t' : Stance},
      run s (pre ++ t :: rest) = .ok tally → Covers s.tally s.stance d →
        Reading before s.stance d (pre.map Token.lexeme) t' →
          Covers tally {} (d.takeAll (pre.map Token.lexeme)) := by
  induction pre with
  | nil =>
    intro s before d t' hrun hcovers hreading
    obtain ⟨hnil, rfl⟩ := run_close_ok ht hrun
    exact hcovers.close hreading.course (step_take hnil) (counts_take hnil)
  | cons v pre ih =>
    intro s before d t' hrun hcovers hreading
    rcases run_cons_ok hrun with ⟨hclose, -⟩ | ⟨-, -, hrun⟩
    · exact absurd hclose (hpre v List.mem_cons_self)
    · have hnil := findings_of_run hrun
      obtain ⟨u, hstep, hrest⟩ := hreading.cons
      obtain rfl := hstep.unique (step_take hnil)
      have hnext := hcovers.take hreading.course hstep hreading.openParens_lt.1
        hrest.openParens_lt.1 (counts_take hnil)
      exact ih (fun w hw => hpre w (List.mem_cons_of_mem _ hw)) hrun hnext hrest

end Check

/-- The tables of the program of an accepted body hold what the check has counted, and the code is no
longer than that. -/
theorem tally_covers {text : String} {offset : Nat} {tally : Tally}
    (h : check text offset = .ok tally) (hshallow : Lexeme.Shallow (Lexeme.ofBody text offset))
    (env : Environment) :
    let p := compile (Token.body text offset) env
    p.loads.length = tally.loads ∧ p.jumps.length = tally.jumps ∧
      p.stores.length ≤ tally.stores ∧ p.code.length ≤ tally.ops := by
  intro p
  obtain ⟨hbody, hcompile⟩ := body_of_check h
  obtain ⟨formula, hp⟩ := hcompile env
  obtain ⟨pre, t, rest, hstream, ht, hpre, -⟩ := exists_of_check h
  have hclose : ∀ u ∈ pre, u.kind ≠ .close := fun u hu hclose => by simpa [hclose] using hpre u hu
  have hcovers : Covers tally {} ((Draft.start env).takeAll (Lexeme.ofBody text offset)) := by
    have hread : ∃ t', Reading [] {} (.start env) (Lexeme.ofBody text offset) t' :=
      exists_reading hbody hshallow env (.nil {})
    obtain ⟨t', hreading⟩ := hread
    rw [Lexeme.ofBody_of_stream hstream ht hpre] at hreading ⊢
    rw [check, hstream] at h
    exact Check.covers_of_run ht hclose h (covers_start offset env) hreading
  generalize (Draft.start env).takeAll (Lexeme.ofBody text offset) = d at hp hcovers
  have hcode : p.code.length = (Pending.outputs d.pending).length := by
    show (compile (Token.body text offset) env).code.length = _
    rw [hp, Draft.finish, (Pending.linearize_perm _).length_eq, Pending.outputs,
      List.filterMap_reverse, List.length_reverse]
    rfl
  refine ⟨?_, ?_, ?_, ?_⟩
  · show (compile (Token.body text offset) env).loads.length = _
    rw [hp, Draft.finish, List.length_reverse, hcovers.loads]
  · show (compile (Token.body text offset) env).jumps.length = _
    rw [hp, Draft.finish, List.length_reverse, hcovers.jumps]
  · show (compile (Token.body text offset) env).stores.length ≤ _
    rw [hp, Draft.finish, List.length_reverse]
    exact hcovers.stores
  · rw [hcode]
    exact hcovers.ops

theorem tally_covers_branch : ∃ text tally, check text 0 = .ok tally ∧
    Lexeme.Shallow (Lexeme.ofBody text 0) ∧ tally.ops = 26 ∧
      let p := compile (Token.body text 0) ({} : Settings).environment
      p.loads.length = tally.loads ∧ p.jumps.length = tally.jumps ∧
        p.stores.length ≤ tally.stores ∧ p.code.length ≤ tally.ops := by
  let text := "z=pixel:\nif(|z|<4)\nz=z*-1\nendif\n\x7d"
  have hstream : Token.stream (Cursor.seek text 0) = Token.firstTokens 40 (Cursor.seek text 0) :=
    Token.stream_eq_firstTokens (by decide +kernel)
  have h : check text 0 = .ok ⟨26, 5, 2, 2, 31, true⟩ := by
    rw [check, hstream]
    decide +kernel
  have hcount : (Lexeme.ofBody text 0).count .leftParen = 1 := by
    rw [Lexeme.ofBody, hstream]
    decide +kernel
  have hshallow : Lexeme.Shallow (Lexeme.ofBody text 0) :=
    Lexeme.shallow_of_count (by rw [hcount]; decide)
  exact ⟨text, _, h, hshallow, rfl, tally_covers h hshallow ({} : Settings).environment⟩

end FractalFormula
