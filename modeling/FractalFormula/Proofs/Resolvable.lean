/-
The jumps of an accepted body can be resolved.

All jumps have the same precedence, so they come out of a draft in the order they were queued in
(`Pending.filter_linearize`).  None gets lost: only a minus sign is folded into a literal, and when
an assignment is let through, what was queued last is no jump (`Compile.Agrees`).
-/
import FractalFormula.Load.Formula
import FractalFormula.Proofs.Body
import FractalFormula.Proofs.Footing
import FractalFormula.Proofs.Linked

namespace FractalFormula

open Compile

namespace Pending

variable {α : Type}

theorem lt_of_mem_waiting {p : Pending α} {w : List (Pending α)}
    (h : w.Pairwise fun p q => p.prec < q.prec) :
    ∀ q ∈ w.dropWhile (·.prec ≤ p.prec), p.prec < q.prec := by
  have hhead := List.head?_dropWhile_not (·.prec ≤ p.prec) w
  have hpairs := h.sublist (List.dropWhile_suffix (·.prec ≤ p.prec)).sublist
  cases hw : w.dropWhile (·.prec ≤ p.prec) with
  | nil => exact fun _ hq => absurd hq List.not_mem_nil
  | cons b rest =>
    rw [hw] at hhead hpairs
    have hb : p.prec < b.prec := by simpa using hhead
    intro q hq
    rcases List.mem_cons.mp hq with rfl | hq
    · exact hb
    · exact Int.lt_trans hb ((List.pairwise_cons.mp hpairs).1 q hq)

/-- Of operators with the same precedence the last to come waits alone. -/
theorem filter_outputs_cons {keep : α → Bool} {p : Pending α} {w : List (Pending α)}
    (hw : ∀ q ∈ w, p.prec < q.prec) {k : Int}
    (hk : ∀ q ∈ p :: w, ∀ a, q.op = some a → keep a = true → q.prec = k) :
    (outputs (p :: w)).filter keep =
      (outputs w).filter keep ++ (outputs [p]).filter keep := by
  rw [show p :: w = [p] ++ w from rfl, outputs_append, List.filter_append]
  by_cases hp : ∃ a, p.op = some a ∧ keep a = true
  · obtain ⟨a, ha, hkeep⟩ := hp
    have hnone : (outputs w).filter keep = [] := by
      refine List.filter_eq_nil_iff.mpr fun b hb hkeep' => ?_
      obtain ⟨q, hq, hqb⟩ := List.mem_filterMap.mp hb
      have hp := hk p List.mem_cons_self a ha hkeep
      have := hk q (List.mem_cons_of_mem p hq) b hqb hkeep'
      have := hw q hq
      omega
    rw [hnone, List.append_nil, List.nil_append]
  · have hnone : (outputs [p]).filter keep = [] := by
      refine List.filter_eq_nil_iff.mpr fun b hb hkeep => ?_
      obtain ⟨q, hq, hqb⟩ := List.mem_filterMap.mp hb
      obtain rfl := List.mem_singleton.mp hq
      exact hp ⟨b, hqb, hkeep⟩
    rw [hnone, List.nil_append, List.append_nil]

/-- Operators with one and the same precedence are emitted in their order. -/
theorem filter_emit {keep : α → Bool} {k : Int} (xs : List (Pending α)) :
    ∀ w : List (Pending α), w.Pairwise (fun p q => p.prec < q.prec) →
      (∀ p ∈ w ++ xs, ∀ a, p.op = some a → keep a = true → p.prec = k) →
      (emit w xs).filter keep = (outputs w).filter keep ++ (outputs xs).filter keep := by
  induction xs with
  | nil =>
    intro w _ _
    exact (List.append_nil _).symm
  | cons p xs ih =>
    intro w hw hk
    let released := w.takeWhile (·.prec ≤ p.prec)
    let waiting := w.dropWhile (·.prec ≤ p.prec)
    have hsplit : w = released ++ waiting := List.takeWhile_append_dropWhile.symm
    have hsub : ∀ q ∈ waiting, q ∈ w := (List.dropWhile_suffix _).subset
    have hbehind : ∀ q ∈ waiting, p.prec < q.prec := lt_of_mem_waiting hw
    have hmem : ∀ q ∈ p :: waiting, q ∈ w ++ p :: xs := fun q hq => by
      rcases List.mem_cons.mp hq with rfl | hq
      · exact List.mem_append_right _ List.mem_cons_self
      · exact List.mem_append_left _ (hsub q hq)
    have hrest := ih (p :: waiting)
      (List.pairwise_cons.mpr ⟨hbehind, hw.sublist (List.dropWhile_suffix _).sublist⟩) fun q hq =>
        hk q ((List.mem_append.mp hq).elim (hmem q) fun hq =>
          List.mem_append_right _ (List.mem_cons_of_mem _ hq))
    have hone := filter_outputs_cons hbehind fun q hq => hk q (hmem q hq)
    calc (emit w (p :: xs)).filter keep
        = (outputs released).filter keep ++ (emit (p :: waiting) xs).filter keep :=
          List.filter_append _ _
      _ = (outputs released).filter keep ++ ((outputs waiting).filter keep ++
            (outputs [p]).filter keep ++ (outputs xs).filter keep) := by rw [hrest, hone]
      _ = (outputs (released ++ waiting)).filter keep ++ (outputs ([p] ++ xs)).filter keep := by
          simp only [outputs_append, List.filter_append, List.append_assoc]
      _ = _ := by rw [← hsplit]; rfl

theorem filter_linearize {keep : α → Bool} {k : Int} {ops : List (Pending α)}
    (h : ∀ p ∈ ops, ∀ a, p.op = some a → keep a = true → p.prec = k) :
    (linearize ops).filter keep = (outputs ops).filter keep :=
  filter_emit ops [] .nil h

end Pending

namespace Compile

/-! ## Jumps in a draft -/

/-- A jump has the same precedence wherever it stands. -/
def Leveled (p : Pending Opcode) : Prop :=
  ∀ op, p.op = some op → op.isJump = true → p.prec = 1

/-- What was queued last is no jump. -/
def Draft.Calm (d : Draft) : Prop :=
  ∀ p ∈ d.pending.head?, ∀ op, p.op = some op → op.isJump = false

theorem leveled_queued (d : Draft) (l : Lexeme) : ∀ p ∈ l.queued d, Leveled p := by
  have other {op : Opcode} (hop : op.isJump = false) (prec : Int) :
      ∀ p ∈ [(⟨some op, prec⟩ : Pending Opcode)], Leveled p := by
    intro p hp o ho hjump
    rw [List.mem_singleton.mp hp] at ho
    obtain rfl := Option.some.inj ho
    exact Bool.noConfusion (hop.symm.trans hjump)
  have none : ∀ p ∈ ([] : List (Pending Opcode)), Leveled p := fun _ hp => absurd hp List.not_mem_nil
  have marker {op : Opcode} (hop : op.isJump = false) :
      ∀ p ∈ [(⟨Option.none, level⟩ : Pending Opcode), ⟨some op, separatorPrec⟩], Leveled p := by
    intro p hp
    rcases List.mem_cons.mp hp with rfl | hp
    · exact fun _ ho => absurd ho (Option.some_ne_none _).symm
    · exact other hop _ p hp
  cases l with
  | name | literal => exact other rfl _
  | call f => exact other rfl _
  | flow w =>
    intro p hp op hop hjump
    cases w with
    | «if» | «else» | endIf => rw [List.mem_singleton.mp hp]
    | elseIf =>
      rcases List.mem_cons.mp hp with rfl | hp
      · rfl
      · rcases List.mem_cons.mp hp with rfl | hp
        · cases hop
        · rcases List.mem_cons.mp hp with rfl | hp
          · exact other rfl _ _ List.mem_cons_self op hop hjump
          · rw [List.mem_singleton.mp hp]
  | operator o =>
    cases o with
    | comma | assign | modulus | minus =>
      unfold Lexeme.queued
      dsimp only
      split
      all_goals first | exact none | exact marker rfl | exact other rfl _
    | colon => exact marker rfl
    | _ => exact other rfl _
  | _ => exact none

theorem leveled_take {d : Draft} (h : ∀ p ∈ d.pending, Leveled p) (l : Lexeme) :
    ∀ p ∈ (d.take l).pending, Leveled p := by
  intro p hp
  rw [pending_take] at hp
  rcases List.mem_append.mp hp with hp | hp
  · exact leveled_queued d l p (List.mem_reverse.mp hp)
  · exact h p ((kept_suffix d l).subset hp)

theorem filter_queued (d : Draft) (l : Lexeme) :
    (Pending.outputs (l.queued d)).filter Opcode.isJump = l.marks.filter Opcode.isJump := by
  cases l with
  | flow w => cases w <;> rfl
  | operator o =>
    cases o with
    | comma | assign | modulus | minus =>
      unfold Lexeme.queued
      dsimp only
      split <;> rfl
    | _ => rfl
  | _ => rfl

/-! ## What the check knows of a draft -/

/-- The draft that is compiled from what the check has read: an operand is wanted in it only if the
check wants one, and no jump waits for what may be assigned to. -/
structure Agrees (t : Check.Stance) (d : Draft) (last : Option Lexeme) : Prop where
  fresh : t.fresh = true → t.wantsOperand = true
  wants : d.wantsOperand = true → t.wantsOperand = true
  assignable : t.assignable = true → d.Calm
  calm : t.fresh = true → d.wantsOperand = true →
    d.Calm ∨ ∃ w, last = some (.flow w) ∧ w.takesCondition = true

namespace Agrees

variable {t t' : Check.Stance} {d : Draft} {last : Option Lexeme}

theorem start (env : Environment) : Agrees {} (.start env) none :=
  ⟨fun _ => rfl, fun _ => rfl, fun _ => nofun, fun _ _ => .inl nofun⟩

theorem calm_queue (d : Draft) (op : Opcode) (h : op.isJump = false) (prec : Int) :
    (d.queue (some op) prec).Calm := by
  intro p hp op' hop
  obtain rfl := Option.some.inj hp
  obtain rfl := Option.some.inj hop
  exact h

/-- After a word with a condition comes its parenthesis. -/
theorem calm_of_fresh (h : Agrees t d last) {l : Lexeme} (hadmits : ∀ k ∈ last, k.Admits l)
    (hl : ¬ l.Brackets) (hfresh : t.fresh = true) (hw : d.wantsOperand = true) : d.Calm := by
  rcases h.calm hfresh hw with hcalm | ⟨w, rfl, hcond⟩
  · exact hcalm
  · have hl' := hadmits _ rfl
    rw [Lexeme.Admits, if_pos hcond] at hl'
    exact absurd hl' hl

/-- What stands before a separator is complete or nothing, so what is queued last is a marker or
what was there. -/
theorem calm_comma (h : Agrees t d last) (hadmits : ∀ k ∈ last, k.Admits (.operator .comma))
    (hends : t.Ends) : (d.operator .comma).Calm := by
  unfold Draft.operator
  dsimp only
  split
  · rename_i hw
    exact h.calm_of_fresh hadmits id (hends.2.2 (h.wants hw)) hw
  · exact calm_queue _ .clear rfl _

theorem take_operator {o : Operator} (h : Agrees t d last) (hstep : t.Step t' (.operator o))
    (hadmits : ∀ k ∈ last, k.Admits (.operator o)) :
    Agrees t' (d.operator o) (some (.operator o)) := by
  have infixed {op : Opcode} (hop : op.isJump = false) (base : Int) :
      (d.infixOperator op base).Calm := calm_queue _ op hop _
  cases o with
  | comma =>
    obtain ⟨hends, rfl⟩ := hstep
    have hcalm := h.calm_comma hadmits hends
    exact ⟨fun _ => rfl, fun _ => rfl, fun _ => hcalm, fun _ _ => .inl hcalm⟩
  | colon =>
    obtain ⟨-, rfl⟩ := hstep
    have hcalm : (d.operator .colon).Calm := calm_queue _ .endInit rfl _
    exact ⟨fun _ => rfl, fun _ => rfl, fun _ => hcalm, fun _ _ => .inl hcalm⟩
  | assign =>
    obtain ⟨-, rfl⟩ := hstep
    have hcalm : (d.operator .assign).Calm := by
      show d.assign.Calm
      unfold Draft.assign
      cases d.pending with
      | nil => exact nofun
      | cons p rest => exact calm_queue d .store rfl _
    exact ⟨fun _ => rfl, fun _ => rfl, fun _ => hcalm, fun _ _ => .inl hcalm⟩
  | modulus =>
    obtain ⟨-, rfl⟩ := hstep
    have hwants : (d.operator .modulus).wantsOperand = d.wantsOperand := by
      refine (wantsOperand_take d (.operator .modulus)).trans ?_
      unfold Footing.after
      dsimp only
      split <;> rfl
    refine ⟨h.fresh, fun hw => h.wants (hwants ▸ hw), nofun, fun hfresh hw => .inl ?_⟩
    have hcalm := h.calm_of_fresh hadmits id hfresh (hwants ▸ hw)
    show d.modulus.Calm
    unfold Draft.modulus
    split
    · exact hcalm
    · exact calm_queue _ .mod rfl _
  | minus =>
    obtain ⟨-, rfl⟩ := hstep
    have hcalm : (d.operator .minus).Calm := by
      unfold Draft.operator
      dsimp only
      split
      · exact calm_queue _ .neg rfl _
      · exact infixed rfl _
    exact ⟨fun _ => rfl, fun _ => rfl, nofun, fun _ _ => .inl hcalm⟩
  | _ =>
    obtain ⟨hw, rfl⟩ := hstep
    refine ⟨fun _ => rfl, fun _ => rfl, nofun, fun _ _ => .inl (infixed rfl _)⟩

theorem take {l : Lexeme} (h : Agrees t d last) (hstep : t.Step t' l)
    (hadmits : ∀ k ∈ last, k.Admits l) : Agrees t' (d.take l) (some l) := by
  cases l with
  | operator o => exact h.take_operator hstep hadmits
  | leftParen =>
    obtain ⟨-, -, rfl⟩ := hstep
    exact ⟨nofun, h.wants, nofun, nofun⟩
  | rightParen =>
    obtain ⟨-, -, -, rfl⟩ := hstep
    exact ⟨nofun, h.wants, nofun, nofun⟩
  | name text =>
    obtain ⟨-, rfl⟩ := hstep
    have hcalm : (d.useVariable text).Calm := calm_queue _ .load rfl _
    have hno := wantsOperand_take d (.name text)
    exact ⟨nofun, fun hw => Bool.noConfusion (hw.symm.trans hno), fun _ => hcalm, nofun⟩
  | literal text value isPair =>
    obtain ⟨-, rfl⟩ := hstep
    have hno := wantsOperand_take d (.literal text value isPair)
    exact ⟨nofun, fun hw => Bool.noConfusion (hw.symm.trans hno), nofun, nofun⟩
  | call f =>
    obtain ⟨hw, rfl⟩ := hstep
    exact ⟨nofun, fun _ => hw, nofun, nofun⟩
  | flow w =>
    obtain ⟨hfresh, rfl⟩ := hstep
    have hw := h.fresh hfresh
    refine ⟨fun _ => hw, fun _ => hw, nofun, fun _ hwants => .inr ⟨w, rfl, ?_⟩⟩
    cases w <;> exact hwants
  | close =>
    obtain ⟨-, rfl⟩ := hstep
    exact ⟨h.fresh, h.wants, h.assignable, fun hfresh hw =>
      .inl (h.calm_of_fresh hadmits id hfresh hw)⟩
  | fault => exact hstep.elim

end Agrees

theorem leveled_takeAll (ls : List Lexeme) : ∀ {d : Draft}, (∀ p ∈ d.pending, Leveled p) →
    ∀ p ∈ (d.takeAll ls).pending, Leveled p := by
  induction ls with
  | nil => exact id
  | cons l ls ih => exact fun h => ih (leveled_take h l)

/-- Over the lexemes of an accepted body no jump gets lost. -/
theorem jumps_takeAll {ls : List Lexeme} : ∀ {t t' : Check.Stance} {d : Draft}
    {last : Option Lexeme}, Agrees t d last → t.Steps ls t' →
      (last.toList ++ ls).IsChain Lexeme.Admits →
      (d.takeAll ls).pendingOf Opcode.isJump =
        ((ls.flatMap Lexeme.marks).filter Opcode.isJump).reverse ++ d.pendingOf Opcode.isJump := by
  induction ls with
  | nil => exact fun _ _ _ => rfl
  | cons l ls ih =>
    intro t t' d last h hsteps hchain
    cases hsteps with
    | cons hstep hsteps =>
      have hadmits : ∀ k ∈ last, k.Admits l := by
        rintro k rfl
        exact (List.isChain_cons_cons.mp hchain).1
      have hchain' : (l :: ls).IsChain Lexeme.Admits := (List.isChain_append.mp hchain).2.1
      have htake : (d.take l).pendingOf Opcode.isJump =
          (l.marks.filter Opcode.isJump).reverse ++ d.pendingOf Opcode.isJump := by
        rw [pendingOf_take rfl, filter_queued]
        rintro rfl
        exact h.assignable hstep.1
      rw [Draft.takeAll_cons, ih (h.take hstep hadmits) hsteps hchain', htake, List.flatMap_cons,
        List.filter_append, List.reverse_append, List.append_assoc]

theorem filter_marks (ls : List Lexeme) : (ls.flatMap Lexeme.marks).filter Opcode.isJump =
    Jumps.expected false (ls.flatMap Lexeme.words) := by
  induction ls with
  | nil => rfl
  | cons l ls ih =>
    rw [List.flatMap_cons, List.flatMap_cons, List.filter_append, ih]
    cases l with
    | flow w => cases w <;> rfl
    | operator o => cases o <;> rfl
    | _ => rfl

end Compile

/-! ## Resolution -/

namespace Jumps

theorem head?_of_balanced {words : List FlowWord} (h : Balanced 0 words) (hne : words ≠ []) :
    words.head? = some .if := by
  cases words with
  | nil => exact absurd rfl hne
  | cons w words =>
    cases w with
    | «if» => rfl
    | _ => simp [Balanced] at h

/-- What closes the last branch is the last word. -/
theorem getLast?_of_balanced {n : Nat} {words : List FlowWord} (h : Balanced n words) :
    words = [] ∨ words.getLast? = some .endIf := by
  have cons {w : FlowWord} {words : List FlowWord} (h : words.getLast? = some .endIf) :
      (w :: words).getLast? = some .endIf := by
    rw [List.getLast?_cons, h]
    rfl
  have inner {n : Nat} {words : List FlowWord} (h : Balanced (n + 1) words)
      (ih : words = [] ∨ words.getLast? = some .endIf) : words.getLast? = some .endIf := by
    rcases ih with rfl | ih
    · exact absurd h (Nat.succ_ne_zero n)
    · exact ih
  induction n, words using Balanced.induct with
  | case1 n => exact .inl rfl
  | case2 n words ih => exact .inr (cons (inner h (ih h)))
  | case3 n words ih => exact .inr (cons (cons (inner h (ih h))))
  | case4 n words ih => exact .inr (cons (inner h (ih h)))
  | case5 n words ih =>
    rcases ih h with rfl | hlast
    · exact .inr rfl
    · exact .inr (cons hlast)
  | case6 n words h₁ h₂ h₃ h₄ h₅ =>
    rw [Balanced] at h
    · exact h.elim
    all_goals assumption

theorem exists_leads {words : List FlowWord} (h : Balanced 0 words) :
    ∃ found, leads [] [] (backward 0 words) = some found := by
  obtain ⟨found, -, hleads⟩ := leads_of_balanced h 0
  exact ⟨found, by simpa [leads] using hleads []⟩

end Jumps

/-- The jumps of lexemes that are let through come in the order of their words. -/
theorem filter_isJump_code {ls : List Lexeme} {t : Check.Stance} (h : Check.Stance.Steps {} ls t)
    (hchain : ls.IsChain Lexeme.Admits) (env : Environment) (formula : String) :
    (((Draft.start env).takeAll ls).finish formula).code.filter Opcode.isJump =
      Jumps.expected false (ls.flatMap Lexeme.words) := by
  let d := (Draft.start env).takeAll ls
  have hleveled : ∀ q ∈ d.pending.reverse, ∀ op, q.op = some op → op.isJump = true → q.prec = 1 :=
    fun q hq => leveled_takeAll _ (fun _ h => absurd h List.not_mem_nil) q (List.mem_reverse.mp hq)
  have hfilter := jumps_takeAll (.start env) h hchain
  show (Pending.linearize d.pending.reverse).filter Opcode.isJump = _
  rw [Pending.filter_linearize hleveled, Pending.outputs, List.filterMap_reverse,
    List.filter_reverse, ← filter_marks]
  exact List.reverse_eq_iff.mpr (hfilter.trans (List.append_nil _))

/-- The jumps of an accepted body come in the order of its words, and they can be resolved. -/
theorem resolve_of_check {text : String} {offset : Nat} {tally : Tally}
    (h : check text offset = .ok tally) (env : Environment) :
    let p := compile (Token.body text offset) env
    let words := (Lexeme.ofBody text offset).flatMap Lexeme.words
    p.jumps = words.map .unresolved ∧ Balanced 0 words ∧
      p.code.filter Opcode.isJump = Jumps.expected false words ∧ ∃ r, p.resolve = .ok r := by
  intro p words
  obtain ⟨hbody, hcompile⟩ := body_of_check h
  obtain ⟨formula, hp⟩ := hcompile env
  obtain ⟨t, hsteps, -⟩ := hbody.steps
  let d := (Draft.start env).takeAll (Lexeme.ofBody text offset)
  have hp : p = d.finish formula := hp
  have hjumps : p.jumps = words.map .unresolved := by
    rw [hp]
    show d.jumps.reverse = _
    rw [(adds_takeAll _ (.start env)).1, List.reverse_append, List.reverse_reverse]
    rfl
  have hcode : p.code.filter Opcode.isJump = Jumps.expected false words := by
    rw [hp]
    exact filter_isJump_code hsteps (List.isChain_append.mp hbody.adjacent).1 env formula
  refine ⟨hjumps, hbody.balanced, hcode, ?_⟩
  have hwords : p.jumps.map JumpEntry.word = words := by
    rw [hjumps, List.map_map]
    exact List.map_id words
  by_cases hnil : words = []
  · refine ⟨p, ?_⟩
    rw [Program.resolve, hwords, hnil]
    rfl
  · obtain ⟨found, hfound⟩ : ∃ found, Jumps.leads [] [] (Jumps.backward 0 words) = some found :=
      Jumps.exists_leads hbody.balanced
    rw [← hwords] at hcode hfound
    refine ⟨_, Program.resolve_of hcode ?_ ?_ hfound⟩
    · rw [hwords]
      exact Jumps.head?_of_balanced hbody.balanced hnil
    · rw [hwords]
      exact (Jumps.getLast?_of_balanced hbody.balanced).resolve_left hnil

/-- What fails after the jumps have been resolved has nothing to do with them. -/
theorem Engine.ofProgram_ne_jumpStructure {p : Program} {s : Settings} {random : RandomState}
    {e : JumpError} : ofProgram p s random ≠ .error (.jumpStructure e) := by
  have bound {N : Type} [Scalar N] {wrap : Machine N → Engine} :
      (bind p s random).map wrap ≠ .error (.jumpStructure e) := by
    unfold bind
    split <;> exact nofun
  unfold ofProgram
  split
  · exact bound
  · exact bound
  · split
    · exact nofun
    · exact bound

namespace Formula

/-- The table of jumps never keeps a formula from being loaded. -/
theorem jumps_resolve (text : String) :
    (∀ offset tally, check text offset = .ok tally → ∀ env : Environment,
      let p := compile (Token.body text offset) env
      let words := (Lexeme.ofBody text offset).flatMap Lexeme.words
      p.jumps = words.map .unresolved ∧ Balanced 0 words ∧
        p.code.filter Opcode.isJump = Jumps.expected false words ∧ ∃ r, p.resolve = .ok r) ∧
      ∀ start s e, (load text start s).result ≠ .error (.jumpStructure e) := by
  refine ⟨fun offset tally h env => resolve_of_check h env, fun start s e h => ?_⟩
  unfold load at h
  split at h
  · cases h
  · split at h
    · cases h
    · dsimp only at h
      split at h
      · cases h
      · rename_i header _ tally hcheck
        split at h
        · cases h
        · obtain ⟨-, -, -, r, hr⟩ := resolve_of_check hcheck s.environment
          unfold build at h
          dsimp only at h
          rw [hr] at h
          dsimp only at h
          split at h
          · cases h
          · dsimp only at h
            cases hengine : Engine.ofProgram r s (random r s) with
            | error e' =>
              rw [hengine] at h
              exact Engine.ofProgram_ne_jumpStructure (hengine.trans (congrArg _ (Except.error.inj h)))
            | ok engine =>
              rw [hengine] at h
              cases h

theorem jumps_resolve_elseIf : ∃ text tally, check text 0 = .ok tally ∧
    (Lexeme.ofBody text 0).flatMap Lexeme.words = [.if, .elseIf, .elseIf, .else, .endIf] ∧
      ∃ r, (compile (Token.body text 0) ({} : Settings).environment).resolve = .ok r := by
  let text := "if(z)\nz=1\nelseif(p1)\nz=2\nelse\nz=3\nendif\n\x7d"
  have hstream : Token.stream (Cursor.seek text 0) = Token.firstTokens 50 (Cursor.seek text 0) :=
    Token.stream_eq_firstTokens (by decide +kernel)
  have hcheck : (check text 0).toOption.isSome = true := by
    rw [check, hstream]
    decide +kernel
  have hwords : (Lexeme.ofBody text 0).flatMap Lexeme.words =
      [.if, .elseIf, .elseIf, .else, .endIf] := by
    rw [Lexeme.ofBody, hstream]
    decide +kernel
  cases h : check text 0 with
  | error e =>
    rw [h] at hcheck
    cases hcheck
  | ok tally => exact ⟨text, tally, h, hwords, ((jumps_resolve text).1 0 tally h _).2.2.2⟩

end Formula
end FractalFormula
