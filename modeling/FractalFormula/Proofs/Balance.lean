/-
The balance of `if` and `endif`.

A body that the check accepts closes its branches in order and has at most one colon
(`Check.Threads`, `exists_of_check`).  In a table of balanced words every entry but that of an
`endif` leads to a later one (`leads_of_balanced`).
-/
import FractalFormula.Program.Jumps
import FractalFormula.Proofs.Acceptance

namespace FractalFormula

/-- The entries of the jump table that a lexeme brings. -/
def Lexeme.words : Lexeme → List FlowWord
  | .flow .elseIf => [.elseIf, .elseIf]
  | .flow w => [w]
  | _ => []

/-- `n` branches are open before `words` and none after them, and none is closed too early. -/
def Balanced : Nat → List FlowWord → Prop
  | n, [] => n = 0
  | n, .if :: words => Balanced (n + 1) words
  | n + 1, .elseIf :: .elseIf :: words => Balanced (n + 1) words
  | n + 1, .else :: words => Balanced (n + 1) words
  | n + 1, .endIf :: words => Balanced n words
  | _, _ => False

namespace Check

/-! ## What a lexeme without a complaint does -/

/-- `s'` has all the complaints of `s`, the same open branches and as many colons. -/
structure Keeps (s s' : State) : Prop where
  findings : s'.findings = [] → s.findings = []
  openIfs : s'.openIfs = s.openIfs
  colonSeen : s'.colonSeen = s.colonSeen

namespace Keeps

variable {s s' s'' : State}

theorem refl (s : State) : Keeps s s := ⟨id, rfl, rfl⟩

theorem trans (h : Keeps s s') (h' : Keeps s' s'') : Keeps s s'' :=
  ⟨fun hnil => h.findings (h'.findings hnil), h'.openIfs.trans h.openIfs,
    h'.colonSeen.trans h.colonSeen⟩

theorem note_ne_nil (s : State) (c : Complaint) (place : Span) : (s.note c place).findings ≠ [] := by
  unfold State.note
  split
  · rename_i f h
    split
    · intro hnil
      rw [hnil] at h
      cases h
    · simp
  · simp

theorem note (h : Keeps s s') (c : Complaint) (place : Span) : Keeps s (s'.note c place) := by
  refine h.trans ⟨fun hnil => absurd hnil (note_ne_nil s' c place), ?_, ?_⟩
  · unfold State.note
    split
    · split <;> rfl
    · rfl
  · unfold State.note
    split
    · split <;> rfl
    · rfl

theorem noteIf (h : Keeps s s') (b : Bool) (c : Complaint) (place : Span) :
    Keeps s (s'.noteIf b c place) := by
  cases b with
  | false => exact h
  | true => exact h.note c place

theorem ite (b : Prop) [Decidable b] (h : Keeps s s') (h' : Keeps s s'') :
    Keeps s (if b then s' else s'') := by
  split
  · exact h
  · exact h'

end Keeps

theorem noteIf_eq_nil {s : State} {b : Bool} {c : Complaint} {place : Span}
    (h : (s.noteIf b c place).findings = []) : b = false := by
  cases b with
  | false => rfl
  | true => exact absurd h (Keeps.note_ne_nil s c place)

theorem keeps_leftParen (s : State) (place : Span) : Keeps s (s.leftParen place) := by
  let t := { s with assignable := false, fresh := false, openParens := s.openParens + 1 }
  have ht : Keeps s t := ⟨id, rfl, rfl⟩
  have h : Keeps s (if parenLimit < t.openParens then t.note .nestingTooDeep place
      else t.noteIf (!t.wantsOperand) .operatorExpected place) :=
    .ite _ (ht.note _ _) (ht.noteIf _ _ _)
  exact ⟨h.findings, h.openIfs, h.colonSeen⟩

theorem keeps_rightParen (s : State) (place : Span) : Keeps s (s.rightParen place) := by
  let t := { s with assignable := false, fresh := false }
  let u := if t.openParens = 0 then t.note .unopenedParen place
    else { t with openParens := t.openParens - 1 }
  have ht : Keeps s t := ⟨id, rfl, rfl⟩
  have hu : Keeps s u := .ite _ (ht.note _ _) ⟨id, rfl, rfl⟩
  have hv : Keeps u (if u.bars.isUp then u.note .unmatchedModulus place
      else { u with bars := u.bars.leave }) := .ite _ ((Keeps.refl u).note _ _) ⟨id, rfl, rfl⟩
  exact (hu.trans hv).noteIf _ _ _

theorem keeps_operand (s : State) (isVariable : Bool) (place : Span) :
    Keeps s (s.operand isVariable place) := by
  let t := { s.addOps 1 with assignable := s.assignable && isVariable, fresh := false }
  let u := { t with tally := { t.tally with loads := t.tally.loads + 1 } }
  have hu : Keeps s u := ⟨id, rfl, rfl⟩
  have h := hu.noteIf (!u.wantsOperand) .operatorExpected place
  exact ⟨h.findings, h.openIfs, h.colonSeen⟩

theorem keeps_call (s : State) (place : Span) : Keeps s (s.call place) := by
  have h : Keeps s { s.addOps 1 with assignable := false, fresh := false } := ⟨id, rfl, rfl⟩
  exact h.noteIf _ _ _

theorem keeps_modulus (s : State) (place : Span) : Keeps s (s.modulus place) := by
  let t := { s with assignable := false }
  have ht : Keeps s t := ⟨id, rfl, rfl⟩
  have ht' : Keeps s (t.addOps 1) := ⟨id, rfl, rfl⟩
  have h : Keeps s (if t.bars.isUp then (t.addOps 1).noteIf t.wantsOperand .argumentExpected place
      else t.noteIf (!t.wantsOperand) .operatorExpected place) :=
    .ite _ (ht'.noteIf _ _ _) (ht.noteIf _ _ _)
  exact ⟨h.findings, h.openIfs, h.colonSeen⟩

theorem keeps_infixOperator (s : State) (place : Span) : Keeps s (s.infixOperator place) := by
  let t := { s.addOps 1 with assignable := false }
  have ht : Keeps s t := ⟨id, rfl, rfl⟩
  have h := ht.noteIf t.wantsOperand .argumentExpected place
  exact ⟨h.findings, h.openIfs, h.colonSeen⟩

theorem keeps_assign (s : State) (place : Span) : Keeps s (s.assign place) := by
  let tally := { s.tally with loads := s.tally.loads - 1, stores := s.tally.stores + 1 }
  have ht : Keeps s { s with tally } := ⟨id, rfl, rfl⟩
  have h := ht.noteIf (!s.assignable) .illegalAssignment place
  exact ⟨h.findings, h.openIfs, h.colonSeen⟩

theorem keeps_closeGroups (s : State) (place : Span) : Keeps s (s.closeGroups place) :=
  ((Keeps.refl s).noteIf _ _ _).noteIf _ _ _

/-- The end of a statement, up to what a colon does there. -/
def endOfStatement (s : State) (isColon : Bool) (place : Span) : State :=
  let s := { (s.addOps 2).closeGroups place with openParens := 0, bars := .flat }
  if !s.wantsOperand then s.addOps (if isColon then 2 else 1)
  else s.noteIf (!s.fresh) .argumentExpected place

theorem keeps_endOfStatement (s : State) (isColon : Bool) (place : Span) :
    Keeps s (endOfStatement s isColon place) := by
  let t := { (s.addOps 2).closeGroups place with openParens := 0, bars := .flat }
  have hclose := keeps_closeGroups (s.addOps 2) place
  have ht : Keeps s t := ⟨hclose.findings, hclose.openIfs, hclose.colonSeen⟩
  have ht' : Keeps s (t.addOps (if isColon then 2 else 1)) := ⟨ht.findings, ht.openIfs, ht.colonSeen⟩
  exact .ite _ ht' (ht.noteIf _ _ _)

/-- How the number of open branches, and whether there has been a colon, go on over a lexeme that
is not complained about. -/
def Follows (n : Nat) (seen : Bool) (n' : Nat) (seen' : Bool) : Lexeme → Prop
  | .flow .if => n' = n + 1 ∧ seen' = seen
  | .flow .endIf => n = n' + 1 ∧ seen' = seen
  | .flow _ => n ≠ 0 ∧ n' = n ∧ seen' = seen
  | .operator .colon => n' = 0 ∧ n = 0 ∧ seen = false ∧ seen' = true
  | .close => n' = n ∧ n = 0 ∧ seen' = seen
  | .fault _ => False
  | _ => n' = n ∧ seen' = seen

/-- A lexeme that may come after `s` and before `s'` without a complaint. -/
structure Passes (s s' : State) (l : Lexeme) : Prop where
  findings : s.findings = []
  follows : Follows s.openIfs s.colonSeen s'.openIfs s'.colonSeen l

theorem passes_operator {s : State} {o : Operator} {place : Span}
    (h : (s.operator o place).findings = []) : Passes s (s.operator o place) (.operator o) := by
  cases o with
  | comma =>
    have hk := keeps_endOfStatement s false place
    exact ⟨hk.findings h, hk.openIfs, hk.colonSeen⟩
  | colon =>
    let t := endOfStatement s true place
    let u := t.noteIf (t.openIfs ≠ 0) .ifOpenAtColon place
    have ht : Keeps s t := keeps_endOfStatement s true place
    have hu : Keeps t u := (Keeps.refl t).noteIf _ _ _
    have hk := (Keeps.refl { u with openIfs := 0 }).noteIf u.colonSeen .secondColon place
    have hunil : u.findings = [] := hk.findings h
    have hopen : t.openIfs = 0 := by simpa using noteIf_eq_nil hunil
    exact ⟨ht.findings (hu.findings hunil), hk.openIfs, ht.openIfs.symm.trans hopen,
      (ht.colonSeen.symm.trans hu.colonSeen.symm).trans (noteIf_eq_nil h), rfl⟩
  | assign =>
    have hk := keeps_assign s place
    exact ⟨hk.findings h, hk.openIfs, hk.colonSeen⟩
  | modulus =>
    have hk := keeps_modulus s place
    exact ⟨hk.findings h, hk.openIfs, hk.colonSeen⟩
  | minus => exact ⟨h, rfl, rfl⟩
  | caret =>
    have hk := keeps_infixOperator s place
    exact ⟨hk.findings h, hk.openIfs, hk.colonSeen⟩
  | _ =>
    have hk := keeps_infixOperator s place
    exact ⟨hk.findings h, hk.openIfs, hk.colonSeen⟩

theorem branch_keeps {s : State} {place : Span} (h : (s.branch place).findings = []) :
    Keeps s (s.branch place) ∧ s.openIfs ≠ 0 := by
  unfold State.branch at h ⊢
  split at h
  · exact absurd h (Keeps.note_ne_nil _ _ _)
  · rename_i hup
    rw [if_neg hup]
    exact ⟨.noteIf (.refl s) _ _ _, by simpa using noteIf_eq_nil h⟩

theorem passes_flow {s : State} {w : FlowWord} {place : Span}
    (h : (s.flow w place).findings = []) : Passes s (s.flow w place) (.flow w) := by
  by_cases hfresh : (!s.fresh) = true
  · have hnote : s.flow w place = _ := if_pos hfresh
    rw [hnote] at h
    exact absurd h (Keeps.note_ne_nil _ _ _)
  · have hflow : s.flow w place = _ := if_neg hfresh
    rw [hflow] at h ⊢
    cases w with
    | «if» => exact ⟨h, rfl, rfl⟩
    | elseIf =>
      obtain ⟨hk, hopen⟩ := branch_keeps h
      exact ⟨hk.findings h, hopen, hk.openIfs, hk.colonSeen⟩
    | «else» =>
      obtain ⟨hk, hopen⟩ := branch_keeps h
      exact ⟨hk.findings h, hopen, hk.openIfs, hk.colonSeen⟩
    | endIf =>
      dsimp only at h ⊢
      split at h
      · exact absurd h (Keeps.note_ne_nil _ _ _)
      · rename_i hopen
        rw [if_neg hopen]
        exact ⟨h, (Nat.succ_pred_eq_of_ne_zero hopen).symm, rfl⟩

theorem passes_close {s : State} {place : Span} (h : (s.close place).findings = []) :
    Passes s (s.close place) .close := by
  let t := (s.addOps 3).closeGroups place
  let u := t.noteIf (t.openIfs ≠ 0) .ifOpenAtEnd place
  let v := if u.wantsOperand && !u.fresh then
      { u.note .argumentExpected place with statement := place.stop }
    else u
  have hclose := keeps_closeGroups (s.addOps 3) place
  have ht : Keeps s t := ⟨hclose.findings, hclose.openIfs, hclose.colonSeen⟩
  have hu : Keeps t u := (Keeps.refl t).noteIf _ _ _
  have hnote := (Keeps.refl u).note .argumentExpected place
  have hv : Keeps u v := .ite _ ⟨hnote.findings, hnote.openIfs, hnote.colonSeen⟩ (.refl u)
  have hunil : u.findings = [] := (hv.noteIf _ _ _).findings h
  have hopen : t.openIfs = 0 := by simpa using noteIf_eq_nil hunil
  have hk := ((ht.trans hu).trans hv).noteIf (jumpLimit ≤ v.tally.jumps) .tooManyJumps place
  exact ⟨hk.findings h, hk.openIfs, ht.openIfs.symm.trans hopen, hk.colonSeen⟩

theorem passes_take {s : State} {l : Lexeme} {size : Nat} {place : Span}
    (h : (s.take l size place).findings = []) : Passes s (s.take l size place) l := by
  unfold State.take at h ⊢
  split at h
  · exact absurd h (Keeps.note_ne_nil _ _ _)
  · rename_i hcaret
    rw [if_neg hcaret]
    cases l with
    | flow w => exact ⟨(passes_flow h).findings, (passes_flow h).follows⟩
    | operator o => exact ⟨(passes_operator h).findings, (passes_operator h).follows⟩
    | close => exact ⟨(passes_close h).findings, (passes_close h).follows⟩
    | fault f => exact absurd h (Keeps.note_ne_nil _ _ _)
    | leftParen =>
      have hk := keeps_leftParen ({ s with afterCaret := false }.addChars size) place
      exact ⟨hk.findings h, hk.openIfs, hk.colonSeen⟩
    | rightParen =>
      have hk := keeps_rightParen ({ s with afterCaret := false }.addChars size) place
      exact ⟨hk.findings h, hk.openIfs, hk.colonSeen⟩
    | name =>
      have hk := keeps_operand ({ s with afterCaret := false }.addChars size) true place
      exact ⟨hk.findings h, hk.openIfs, hk.colonSeen⟩
    | literal =>
      have hk := keeps_operand ({ s with afterCaret := false }.addChars size) false place
      exact ⟨hk.findings h, hk.openIfs, hk.colonSeen⟩
    | call =>
      have hk := keeps_call ({ s with afterCaret := false }.addChars size) place
      exact ⟨hk.findings h, hk.openIfs, hk.colonSeen⟩

/-! ## Accepted bodies -/

/-- Lexemes that the check may go over without a complaint from `n` open branches to none. -/
def Threads : Nat → Bool → List Lexeme → Prop
  | n, _, [] => n = 0
  | n, seen, l :: ls => ∃ n' seen', Follows n seen n' seen' l ∧ Threads n' seen' ls

theorem findings_of_verdict {s : State} {tally : Tally} (h : s.verdict = .ok tally) :
    s.findings = [] := by
  unfold State.verdict at h
  split at h
  · rename_i hnil
    simpa using hnil
  · cases h

/-- The first token of an accepted body closes it, or the rest is accepted as well. -/
theorem run_cons_ok {s : State} {t : Token} {rest : List Token} {tally : Tally}
    (h : run s (t :: rest) = .ok tally) :
    let next := s.take t.lexeme t.size t.span
    (t.kind = .close ∧ next.findings = []) ∨
      (t.kind ≠ .close ∧ t.kind ≠ .fault .endOfText ∧ run next rest = .ok tally) := by
  intro next
  rw [run] at h
  by_cases hend : t.kind = .fault .endOfText
  · rw [if_pos hend] at h
    cases h
  · rw [if_neg hend, State.read_eq_take] at h
    by_cases hclose : t.kind = .close
    · rw [if_pos (Or.inl hclose)] at h
      exact Or.inl ⟨hclose, findings_of_verdict h⟩
    · refine Or.inr ⟨hclose, hend, ?_⟩
      by_cases hlimit : complaintLimit ≤ next.findings.length
      · rw [if_pos (Or.inr hlimit)] at h
        rw [findings_of_verdict h] at hlimit
        exact absurd hlimit (by decide)
      · rwa [if_neg (not_or_intro hclose hlimit)] at h

/-- The token neither ends a body nor is a fault. -/
theorem isSignificant_of_follows {t : Token} {n n' : Nat} {seen seen' : Bool}
    (hclose : t.kind ≠ .close) (h : Follows n seen n' seen' t.lexeme) :
    (t.kind == .close || t.isFault) = false := by
  rw [beq_false_of_ne hclose, Bool.false_or]
  unfold Token.isFault
  split
  · rename_i f hf
    rw [Token.lexeme, hf] at h
    exact h.elim
  · rfl

/-- An accepted body ends with its closing brace. -/
theorem threads_of_run {tokens : List Token} (hlast : ∃ t ∈ tokens.getLast?, t.isLast = true) :
    ∀ {s : State} {tally : Tally}, run s tokens = .ok tally → s.findings = [] ∧
      ∃ pre t rest, tokens = pre ++ t :: rest ∧ t.kind = .close ∧
        (∀ u ∈ pre, (u.kind == .close || u.isFault) = false) ∧
        Threads s.openIfs s.colonSeen (pre.map Token.lexeme) := by
  induction tokens with
  | nil =>
    obtain ⟨t, ht, -⟩ := hlast
    cases ht
  | cons t rest ih =>
    intro s tally hrun
    rcases run_cons_ok hrun with ⟨hclose, hnil⟩ | ⟨hclose, hend, hrun⟩
    · obtain ⟨hs, hfollows⟩ := passes_take hnil
      rw [Token.lexeme, hclose] at hfollows
      exact ⟨hs, [], t, rest, rfl, hclose, fun _ h => absurd h List.not_mem_nil, hfollows.2.1⟩
    · have hlast' : ∃ u ∈ rest.getLast?, u.isLast = true := by
        obtain ⟨u, hu, hul⟩ := hlast
        cases rest with
        | nil =>
          obtain rfl := Option.some.inj hu
          unfold Token.isLast at hul
          split at hul
          · contradiction
          · contradiction
          · cases hul
        | cons v rest => exact ⟨u, hu, hul⟩
      obtain ⟨hnil, pre, u, rest', rfl, hu, hpre, hthreads⟩ := ih hlast' hrun
      obtain ⟨hs, hfollows⟩ := passes_take hnil
      refine ⟨hs, t :: pre, u, rest', rfl, hu, ?_, _, _, hfollows, hthreads⟩
      intro v hv
      rcases List.mem_cons.mp hv with rfl | hv
      · exact isSignificant_of_follows hclose hfollows
      · exact hpre v hv

/-! ## Balance -/

theorem balanced_of_threads {ls : List Lexeme} : ∀ {n : Nat} {seen : Bool}, Threads n seen ls →
    Balanced n (ls.flatMap Lexeme.words) := by
  induction ls with
  | nil => exact fun h => h
  | cons l ls ih =>
    rintro n seen ⟨n', seen', hfollows, hthreads⟩
    have hrest := ih hthreads
    cases l with
    | flow w =>
      cases w with
      | «if» | endIf =>
        obtain ⟨rfl, -⟩ := hfollows
        exact hrest
      | elseIf | «else» =>
        obtain ⟨hn, rfl, -⟩ := hfollows
        obtain ⟨m, rfl⟩ := Nat.exists_eq_succ_of_ne_zero hn
        exact hrest
    | operator o =>
      have hn : n' = n := by
        cases o with
        | colon => exact hfollows.1.trans hfollows.2.1.symm
        | _ => exact hfollows.1
      exact hn ▸ hrest
    | fault f => exact hfollows.elim
    | _ =>
      obtain ⟨rfl, -⟩ := hfollows
      exact hrest

/-- There is at most one colon. -/
theorem count_colon_of_threads {ls : List Lexeme} : ∀ {n : Nat} {seen : Bool}, Threads n seen ls →
    ls.count (.operator .colon) ≤ if seen then 0 else 1 := by
  induction ls with
  | nil => exact fun _ => Nat.zero_le _
  | cons l ls ih =>
    rintro n seen ⟨n', seen', hfollows, hthreads⟩
    have hrest := ih hthreads
    by_cases hcolon : l = .operator .colon
    · subst hcolon
      obtain ⟨-, -, rfl, rfl⟩ := hfollows
      rw [List.count_cons_self]
      exact Nat.succ_le_succ hrest
    · have hseen : seen' = seen := by
        cases l with
        | flow w => cases w <;> simp_all [Follows]
        | operator o => cases o <;> simp_all [Follows]
        | fault f => exact hfollows.elim
        | close => exact hfollows.2.2
        | _ => exact hfollows.2
      rw [List.count_cons_of_ne hcolon]
      exact hseen ▸ hrest

end Check

theorem Token.exists_getLast?_stream (c : Cursor) :
    ∃ t ∈ (Token.stream c).getLast?, t.isLast = true := by
  induction h : c.ahead.length using Nat.strongRecOn generalizing c with
  | ind n ih =>
    rw [Token.stream]
    split
    · rename_i hlast
      exact ⟨_, rfl, hlast⟩
    · rename_i hlast
      obtain ⟨t, ht, hl⟩ := ih _ (h ▸ Token.read_ahead_lt
        (Token.ahead_ne_nil_of_not_isLast (by simpa using hlast))) (Token.read c).2 rfl
      refine ⟨t, ?_, hl⟩
      rw [List.getLast?_cons, Option.mem_def.mp ht]
      rfl

/-- The body of an accepted formula ends with its closing brace, and the check threads through what
comes before. -/
theorem exists_of_check {text : String} {offset : Nat} {tally : Tally}
    (h : check text offset = .ok tally) :
    ∃ pre t rest, Token.stream (Cursor.seek text offset) = pre ++ t :: rest ∧ t.kind = .close ∧
      (∀ u ∈ pre, (u.kind == .close || u.isFault) = false) ∧
      Check.Threads 0 false (pre.map Token.lexeme) := by
  obtain ⟨-, pre, t, rest, hstream, hclose, hpre, hthreads⟩ :=
    Check.threads_of_run (Token.exists_getLast?_stream _) h
  exact ⟨pre, t, rest, hstream, hclose, hpre, hthreads⟩

/-! ## Where jumps lead -/

namespace Jumps

/-- The groups that wait for an `if` before entry `k` close and branch between `k` and `total`. -/
def Group.Between (k total : Nat) (g : Group) : Prop :=
  k ≤ g.last ∧ g.last < total ∧ k ≤ g.branch ∧ g.branch < total

/-- Each entry from number `k` on leads to a later one before `total`, but that of an `endif` leads
nowhere. -/
def Forward (k total : Nat) : List FlowWord → List (Option Nat) → Prop
  | [], found => found = []
  | w :: words, found => ∃ lead rest, found = lead :: rest ∧ Forward (k + 1) total words rest ∧
      (w = .endIf ∧ lead = none ∨ w ≠ .endIf ∧ ∃ l, lead = some l ∧ k < l ∧ l < total)

theorem Group.Between.mono {j k total : Nat} (hjk : j ≤ k) {g : Group} (h : g.Between k total) :
    g.Between j total :=
  ⟨Nat.le_trans hjk h.1, h.2.1, Nat.le_trans hjk h.2.2.1, h.2.2.2⟩

/-- A branch of a group begins before those that were met already. -/
theorem Group.Between.branch {k total : Nat} {g : Group} (h : g.Between (k + 1) total) :
    Group.Between k total ⟨g.last, k⟩ :=
  ⟨Nat.le_of_succ_le h.1, h.2.1, Nat.le_refl k, Nat.lt_of_succ_lt (Nat.lt_of_le_of_lt h.1 h.2.1)⟩

/-- Words with their numbers, from the end. -/
def backward (k : Nat) (words : List FlowWord) : List (Nat × FlowWord) :=
  (words.zipIdx k).reverse.map Prod.swap

theorem backward_cons (k : Nat) (w : FlowWord) (words : List FlowWord)
    (rest : List (Nat × FlowWord)) :
    backward k (w :: words) ++ rest = backward (k + 1) words ++ (k, w) :: rest := by
  simp [backward]

theorem Forward.lead {k total l : Nat} {w : FlowWord} {words : List FlowWord}
    {found : List (Option Nat)} (h : Forward (k + 1) total words found) (hw : w ≠ .endIf)
    (hl : k < l) (htotal : l < total) : Forward k total (w :: words) (some l :: found) :=
  ⟨_, _, rfl, h, Or.inr ⟨hw, l, rfl, hl, htotal⟩⟩

theorem Forward.endIf {k total : Nat} {words : List FlowWord} {found : List (Option Nat)}
    (h : Forward (k + 1) total words found) :
    Forward k total (.endIf :: words) (none :: found) :=
  ⟨_, _, rfl, h, Or.inl ⟨rfl, rfl⟩⟩

/-- From the end, the entries from number `k` to `total` have been gone over: `groups` wait for their
`if`, and the entries lead where `found` says. -/
structure Traced (k total : Nat) (words : List FlowWord) (groups : List Group)
    (found : List (Option Nat)) : Prop where
  ends : k + words.length = total
  between : ∀ g ∈ groups, g.Between k total
  forward : Forward k total words found
  leads : ∀ rest, leads [] [] (backward k words ++ rest) = leads groups found rest

namespace Traced

variable {k total : Nat} {words : List FlowWord} {g : Group} {outer groups : List Group}
  {found : List (Option Nat)}

theorem nil (k : Nat) : Traced k k [] [] [] where
  ends := rfl
  between _ hg := absurd hg List.not_mem_nil
  forward := rfl
  leads _ := rfl

theorem head (h : Traced k total words (g :: outer) found) : g.Between k total :=
  h.between g List.mem_cons_self

/-- The groups around the innermost one still wait before any earlier entry. -/
theorem tail (h : Traced k total words (g :: outer) found) {j : Nat} (hjk : j ≤ k) :
    ∀ g' ∈ outer, g'.Between j total :=
  fun g' hg' => (h.between g' (List.mem_cons_of_mem _ hg')).mono hjk

/-- An `if` leads to the branch that was met last, and its group waits no longer. -/
theorem «if» (h : Traced (k + 1) total words (g :: outer) found) :
    Traced k total (.if :: words) outer (some g.branch :: found) where
  ends := by rw [← h.ends, List.length_cons]; omega
  between := h.tail (Nat.le_succ k)
  forward := h.forward.lead nofun h.head.2.2.1 h.head.2.2.2
  leads rest := by rw [backward_cons, h.leads, Jumps.leads]

/-- The first entry of an `elseif` leads to the end of the group and the second to the branch that
was met last. -/
theorem elseIf (h : Traced (k + 2) total words (g :: outer) found) :
    Traced k total (.elseIf :: .elseIf :: words) (⟨g.last, k⟩ :: outer)
      (some g.last :: some g.branch :: found) where
  ends := by rw [← h.ends, List.length_cons, List.length_cons]; omega
  between := List.forall_mem_cons.mpr
    ⟨(h.head.mono (Nat.le_succ (k + 1))).branch, h.tail (Nat.le_add_right k 2)⟩
  forward := by
    obtain ⟨hlast, hlt, hbranch, hblt⟩ := h.head
    have hsecond : Forward (k + 1) total (.elseIf :: words) (some g.branch :: found) :=
      h.forward.lead nofun hbranch hblt
    exact hsecond.lead nofun (Nat.lt_of_succ_lt hlast) hlt
  leads rest := by rw [backward_cons, backward_cons, h.leads, Jumps.leads]

/-- An `else` leads to the end of its group. -/
theorem «else» (h : Traced (k + 1) total words (g :: outer) found) :
    Traced k total (.else :: words) (⟨g.last, k⟩ :: outer) (some g.last :: found) where
  ends := by rw [← h.ends, List.length_cons]; omega
  between := List.forall_mem_cons.mpr ⟨h.head.branch, h.tail (Nat.le_succ k)⟩
  forward := h.forward.lead nofun h.head.1 h.head.2.1
  leads rest := by rw [backward_cons, h.leads, Jumps.leads]

/-- An `endif` leads nowhere, and is the end of a group. -/
theorem endIf (h : Traced (k + 1) total words groups found) :
    Traced k total (.endIf :: words) (⟨k, k⟩ :: groups) (none :: found) where
  ends := by rw [← h.ends, List.length_cons]; omega
  between := by
    have hlt : k < total := by have := h.ends; omega
    exact List.forall_mem_cons.mpr ⟨⟨Nat.le_refl k, hlt, Nat.le_refl k, hlt⟩,
      fun g hg => (h.between g hg).mono (Nat.le_succ k)⟩
  forward := h.forward.endIf
  leads rest := by
    rw [backward_cons, h.leads]
    cases groups <;> rw [Jumps.leads]

end Traced

/-- As many groups wait for their `if` as branches are open before the words. -/
theorem traced_of_balanced {n : Nat} {words : List FlowWord} (h : Balanced n words) :
    ∀ k, ∃ total groups found, groups.length = n ∧ Traced k total words groups found := by
  induction n, words using Balanced.induct with
  | case1 n => exact fun k => ⟨k, [], [], h.symm, .nil k⟩
  | case2 n words ih =>
    intro k
    obtain ⟨total, _ | ⟨g, outer⟩, found, hlen, htraced⟩ := ih h (k + 1)
    · cases hlen
    · exact ⟨total, outer, _, Nat.succ.inj hlen, htraced.if⟩
  | case3 n words ih =>
    intro k
    obtain ⟨total, _ | ⟨g, outer⟩, found, hlen, htraced⟩ := ih h (k + 2)
    · cases hlen
    · exact ⟨total, ⟨g.last, k⟩ :: outer, _, hlen, htraced.elseIf⟩
  | case4 n words ih =>
    intro k
    obtain ⟨total, _ | ⟨g, outer⟩, found, hlen, htraced⟩ := ih h (k + 1)
    · cases hlen
    · exact ⟨total, ⟨g.last, k⟩ :: outer, _, hlen, htraced.else⟩
  | case5 n words ih =>
    intro k
    obtain ⟨total, groups, found, hlen, htraced⟩ := ih h (k + 1)
    exact ⟨total, _, _, congrArg (· + 1) hlen, htraced.endIf⟩
  | case6 n words h₁ h₂ h₃ h₄ h₅ =>
    rw [Balanced] at h
    · exact h.elim
    all_goals assumption

/-- Where no branch is open before the words, no group waits. -/
theorem leads_of_balanced {words : List FlowWord} (h : Balanced 0 words) (k : Nat) :
    ∃ found, Forward k (k + words.length) words found ∧
      ∀ rest, leads [] [] (backward k words ++ rest) = leads [] found rest := by
  obtain ⟨total, groups, found, hnone, htraced⟩ := traced_of_balanced h k
  obtain rfl := List.eq_nil_of_length_eq_zero hnone
  obtain rfl := htraced.ends
  exact ⟨found, htraced.forward, htraced.leads⟩

end Jumps
end FractalFormula
