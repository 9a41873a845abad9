/-
Branches and their conditions.

A statement of an accepted body that has a branch in it is that branch with its condition, if it
takes one, unless an operator stands in it outside parentheses: the check lets signs through before a
branch, and whatever continues an expression behind its condition.  The code of the condition stands
right in front of the jump that tests it (`branch_stands_alone`), and what continues the condition
comes later.
-/
import FractalFormula.Proofs.Negation
import FractalFormula.Proofs.Ordinary
import FractalFormula.Proofs.Plain

namespace FractalFormula

open Compile

/-! ## The order of emission -/

namespace Pending

variable {α : Type}

/-- Of those that wait, the last to come binds tightest. -/
theorem exists_sorted (xs : List (Pending α)) : ∀ w : List (Pending α),
    w.Pairwise (fun p q => p.prec < q.prec) → ∃ out waiting,
      (∀ ys, emit w (xs ++ ys) = out ++ emit waiting ys) ∧
      waiting.Pairwise (fun p q => p.prec < q.prec) ∧ ∀ q ∈ waiting, q ∈ w ++ xs := by
  induction xs with
  | nil => exact fun w hw => ⟨[], w, by simp, hw, by simp⟩
  | cons p xs ih =>
    intro w hw
    have hdrop := List.dropWhile_suffix (l := w) (·.prec ≤ p.prec)
    obtain ⟨out, waiting, hemit, hsorted, hmem⟩ := ih (p :: w.dropWhile (·.prec ≤ p.prec))
      (List.pairwise_cons.mpr ⟨lt_of_mem_waiting hw, hw.sublist hdrop.sublist⟩)
    refine ⟨outputs (w.takeWhile (·.prec ≤ p.prec)) ++ out, waiting, fun ys => ?_, hsorted, ?_⟩
    · rw [List.cons_append, emit, hemit, List.append_assoc]
      rfl
    · intro q hq
      have := hmem q hq
      simp only [List.cons_append, List.mem_cons, List.mem_append] at this ⊢
      rcases this with rfl | hq | hq
      · simp
      · exact .inl (hdrop.subset hq)
      · simp [hq]

/-- All that is queued in `ps` and binds as tight as `k` has been emitted in `front`. -/
def Emitted (k : Int) (ps : List (Pending α)) (front : List α) : Prop :=
  ∀ keep : α → Bool, (∀ p ∈ ps, ∀ a, p.op = some a → keep a = true → p.prec ≤ k) →
    front.countP keep = (outputs ps).countP keep

theorem Emitted.of_reverse {k : Int} {ps : List (Pending α)} {front : List α}
    (h : Emitted k ps.reverse front) : Emitted k ps front := by
  intro keep hkeep
  rw [h keep fun p hp => hkeep p (List.mem_reverse.mp hp), outputs, outputs,
    List.filterMap_reverse, List.countP_reverse]

/-- An operator is emitted right behind those after it that bind tighter.  Of those before it, only
what binds less tight is emitted later. -/
theorem linearize_behind (us : List (Pending α)) (op : α) {cs zs : List (Pending α)} {k : Int}
    (hcs : ∀ x ∈ cs, x.prec < k) (hzs : ∀ b ∈ zs.head?, k ≤ b.prec) :
    ∃ front back,
      linearize (us ++ ⟨some op, k⟩ :: (cs ++ zs)) = front ++ linearize cs ++ op :: back ∧
        Emitted k us front := by
  obtain ⟨out, waiting, hemit, hsorted, hmem⟩ := exists_sorted us [] .nil
  let released := waiting.takeWhile (·.prec ≤ k)
  let later := waiting.dropWhile (·.prec ≤ k)
  have hback : ∃ back, emit (⟨some op, k⟩ :: later) zs = op :: back := by
    cases zs with
    | nil => exact ⟨outputs later, rfl⟩
    | cons z zs =>
      have hz : k ≤ z.prec := hzs z rfl
      rw [emit, List.takeWhile_cons]
      simp [hz]
  obtain ⟨back, hback⟩ := hback
  refine ⟨out ++ outputs released, back, ?_, fun keep hkeep => ?_⟩
  · have hbelow : Below cs (⟨some op, k⟩ :: later) := by
      intro x hx b hb
      obtain rfl := Option.some.inj hb
      exact hcs x hx
    have hwithin : Within cs zs := fun x hx b hb =>
      Int.le_of_lt (Int.lt_of_lt_of_le (hcs x hx) (hzs b hb))
    rw [linearize, hemit, emit, emit_piece hbelow hwithin, hback]
    simp only [List.append_assoc]
    rfl
  · have hall : linearize us = out ++ outputs waiting := by
      rw [← List.append_nil us]
      exact hemit []
    have hsplit : outputs waiting = outputs released ++ outputs later := by
      rw [← outputs_append, List.takeWhile_append_dropWhile]
    have hlater : (outputs later).countP keep = 0 := by
      refine List.countP_eq_zero.mpr fun a ha hk => ?_
      obtain ⟨q, hq, hop⟩ := List.mem_filterMap.mp ha
      have hlt : k < q.prec := lt_of_mem_waiting (p := ⟨none, k⟩) hsorted q hq
      have hle := hkeep q (by simpa using hmem q ((List.dropWhile_suffix _).subset hq)) a hop hk
      omega
    have hperm := (linearize_perm us).countP_eq keep
    rw [hall, hsplit, List.countP_append, List.countP_append, hlater] at hperm
    rw [List.countP_append]
    exact hperm

end Pending

/-! ## Conditions -/

namespace Lexeme

/-- A branch that is the first of its statement, with its condition and nothing else behind it. -/
def StandsAlone (st : List Lexeme) : Prop :=
  ∃ w : FlowWord, if w.takesCondition then
    ∃ c : Expr, c.Legible ∧ c.isBracketed = true ∧ st = .flow w :: c.lexemes
  else st = [.flow w]

variable {a b : List Lexeme}

theorem Closed.append (ha : Closed a) (hb : Closed b) : Closed (a ++ b) := by
  refine ⟨by simp [ha.1, hb.1], fun p hp => ?_⟩
  have hpa := ha.2 _ (List.take_prefix p.length a)
  have hpb := hb.2 _ (List.take_prefix (p.length - a.length) b)
  rw [List.prefix_iff_eq_take.mp hp, List.take_append, List.count_append, List.count_append]
  omega

theorem Closed.parens (ha : Closed a) : Closed (.leftParen :: a ++ [.rightParen]) := by
  refine ⟨by simp [ha.1], fun p hp => ?_⟩
  cases p with
  | nil => simp
  | cons l p =>
    obtain ⟨rfl, hp⟩ := List.cons_prefix_cons.mp hp
    have hpa := ha.2 _ (List.take_prefix p.length a)
    have hlast : ([.rightParen] : List Lexeme).take (p.length - a.length) <+: [.rightParen] :=
      List.take_prefix _ _
    have hle := hlast.sublist.count_le .rightParen
    rw [List.prefix_iff_eq_take.mp hp, List.take_append]
    simp at hle ⊢
    omega

end Lexeme

namespace Expr

open Lexeme

theorem closed_lexemes (e : Expr) : Closed e.lexemes := by
  have one (l : Lexeme) (hl : l ≠ .leftParen ∧ l ≠ .rightParen) : Closed [l] :=
    closed_of_not_mem (by simp [hl.1.symm]) (by simp [hl.2.symm])
  induction e with
  | name | literal => exact one _ (by simp)
  | group e ih => exact ih.parens
  | call f e ih => exact (one (.call f) (by simp)).append ih
  | minus e ih => exact (one (.operator .minus) (by simp)).append ih
  | modulus e ih =>
    have hbar := one (.operator .modulus) (by simp)
    exact (hbar.append ih).append hbar
  | binary o l r ihl ihr => exact ihl.append ((one (.operator o.operator) (by simp)).append ihr)

/-- The parentheses of an expression are its own. -/
theorem outside_lexemes (e : Expr) : ∀ n ls,
    outside n (e.lexemes ++ ls) = outside n e.lexemes ++ outside n ls ∧
      outside (n + 1) e.lexemes = [] := by
  induction e with
  | name | literal => exact fun n ls => by cases n <;> simp [lexemes, outside]
  | group e ih =>
    intro n ls
    have hbody (n : Nat) (ls : List Lexeme) :
        outside n ((group e).lexemes ++ ls) = outside n ls := by
      rw [lexemes, List.append_assoc, List.cons_append, outside, ((ih (n + 1) _).1), (ih n []).2]
      simp [outside]
    have hnil (n : Nat) : outside n (group e).lexemes = [] := by
      simpa [outside] using hbody n []
    rw [hbody, hnil, hnil]
    exact ⟨rfl, rfl⟩
  | call f e ih =>
    intro n ls
    have hrest := ih n ls
    cases n <;> simp_all [lexemes, outside]
  | minus e ih =>
    intro n ls
    have hrest := ih n ls
    cases n <;> simp_all [lexemes, outside]
  | modulus e ih =>
    intro n ls
    have hrest (ls : List Lexeme) := ih n ls
    cases n <;> simp_all [lexemes, outside]
  | binary o l r ihl ihr =>
    intro n ls
    have hl (ls : List Lexeme) := ihl n ls
    have hr := ihr n ls
    cases n <;> simp_all [lexemes, outside]

end Expr

namespace Compile

variable {pre post : List Lexeme} {t t' : Check.Stance} {d : Draft} {w : FlowWord} {c : Expr}

/-- A condition is passed as an operand, and all that it queues binds tighter than a load where it
began. -/
theorem whole_condition (h : Reading pre t d c.lexemes t') (hb : c.isBracketed = true) :
    Whole d c.lexemes t' ∧ ∀ x ∈ (d.bare.takeAll c.lexemes).pending, x.prec < d.prec 1 := by
  cases c with
  | group e =>
    have hclosed := e.closed_lexemes
    refine ⟨whole_group h hclosed, fun x hx => ?_⟩
    exact (prec_lt_of_group h hclosed (c := d.bare) rfl x hx).resolve_left List.not_mem_nil
  | literal text z isPair =>
    obtain rfl : isPair = true := by cases isPair with
      | true => rfl
      | false => exact absurd hb Bool.false_ne_true
    refine ⟨whole_literal h, fun x hx => ?_⟩
    have hpending : (d.bare.takeAll (Expr.literal text z true).lexemes).pending =
        ⟨some .load, d.prec (1 - level)⟩ :: (Lexeme.literal text z true).kept d.bare :=
      pending_literal d.bare text z true
    have hkept : (Lexeme.literal text z true).kept d.bare = [] :=
      List.suffix_nil.mp (kept_suffix d.bare _)
    rw [hpending, hkept] at hx
    obtain rfl := List.mem_singleton.mp hx
    show 1 - 15 - _ < 1 - _
    omega
  | _ => exact absurd hb Bool.false_ne_true

theorem pending_flow (d : Draft) (hw : w.takesCondition = true) :
    ∃ marks, (d.take (.flow w)).pending = ⟨some .jumpOnFalse, 1⟩ :: (marks ++ d.pending) ∧
      .load ∉ Pending.outputs marks := by
  cases w with
  | «if» => exact ⟨[], rfl, by simp [Pending.outputs]⟩
  | elseIf =>
    exact ⟨[⟨some .clear, separatorPrec⟩, ⟨none, level⟩, ⟨some .jump, 1⟩], rfl,
      by simp [Pending.outputs]⟩
  | «else» | endIf => cases hw

/-- The draft behind a branch and its condition. -/
theorem takeAll_condition (h : Reading pre t (d.take (.flow w)) c.lexemes t')
    (hw : w.takesCondition = true) (hb : c.isBracketed = true) :
    d.takeAll (.flow w :: c.lexemes) = ((d.take (.flow w)).bare.takeAll c.lexemes).onTop
      (d.take (.flow w)).pending (d.take (.flow w)).loads := by
  obtain ⟨marks, hmarks, -⟩ := pending_flow d hw
  rw [Draft.takeAll_cons, ← takeAll_onTop _ (whole_condition h hb).1.noAssign]
  · rfl
  · intro _ p hp
    rw [hmarks] at hp
    obtain rfl := Option.some.inj hp
    exact nofun

/-- What is compiled for a condition stands right in front of the jump that tests it.  Before it
stands all that is pending before and binds as tight as a jump. -/
theorem condition_in_place (h : Reading pre t d (.flow w :: c.lexemes ++ post) t')
    (hw : w.takesCondition = true) (hb : c.isBracketed = true)
    (hpost : ∀ l ∈ post.head?, l.Separates) :
    let test := (d.take (.flow w)).bare.takeAll c.lexemes
    let before := (d.take (.flow w)).pending.tail
    ∃ front back, Pending.linearize (d.takeAll (.flow w :: c.lexemes ++ post)).pending.reverse =
        front ++ Pending.linearize test.pending.reverse ++ .jumpOnFalse :: back ∧
      Pending.Emitted 1 before front := by
  intro test before
  obtain ⟨u, -, hrest⟩ := h.cons
  obtain ⟨v, hc, hlast⟩ := hrest.split
  obtain ⟨hwhole, htight⟩ := whole_condition hc hb
  obtain ⟨marks, hflow, -⟩ := pending_flow d hw
  let d' := d.takeAll (.flow w :: c.lexemes)
  have hd' : d'.pending.reverse =
      before.reverse ++ ⟨some .jumpOnFalse, 1⟩ :: test.pending.reverse := by
    have hpending := congrArg Draft.pending (takeAll_condition hc hw hb)
    rw [hpending]
    show (test.pending ++ (d.take (.flow w)).pending).reverse = _
    simp [before, hflow]
  have hzs : ∃ zs, (d'.takeAll post).pending.reverse = d'.pending.reverse ++ zs ∧
      ∀ b ∈ zs.head?, 1 ≤ b.prec := by
    cases post with
    | nil => exact ⟨[], (List.append_nil _).symm, nofun⟩
    | cons l post =>
      have hno : d'.wantsOperand = false := hwhole.passes.wantsOperand
      have hends := (hpost l rfl).comma_or_colon (hlast.inner l List.mem_cons_self)
      obtain ⟨zs, hzs⟩ := pending_past_separator post (hends.imp_left fun hcomma => ⟨hcomma, hno⟩)
      refine ⟨_, hzs, fun b hb => ?_⟩
      obtain rfl := Option.some.inj hb
      show (1 : Int) ≤ 15
      decide
  obtain ⟨zs, hzs, hhead⟩ := hzs
  have hone : (d.take (.flow w)).prec 1 ≤ 1 := Draft.prec_le_base hc.course.depth_nonneg 1
  have hcs : ∀ x ∈ test.pending.reverse, x.prec < 1 := fun x hx =>
    Int.lt_of_lt_of_le (htight x (List.mem_reverse.mp hx)) hone
  obtain ⟨front, back, hcode, hemitted⟩ :=
    Pending.linearize_behind before.reverse Opcode.jumpOnFalse hcs hhead
  refine ⟨front, back, ?_, hemitted.of_reverse⟩
  rw [Draft.takeAll_append, hzs, hd', List.append_assoc, List.cons_append, hcode]

/-! ### Jumps and loads -/

theorem prec_queued_load_le (d : Draft) (l : Lexeme) :
    ∀ q ∈ l.queued d, q.op = some .load → q.prec ≤ d.prec 1 := by
  have other (h : (l.queued d).all (·.op != some .load) = true) :
      ∀ q ∈ l.queued d, q.op = some .load → q.prec ≤ d.prec 1 := by
    intro q hq hop
    have := List.all_eq_true.mp h q hq
    simp [hop] at this
  cases l with
  | name v =>
    intro q hq _
    obtain rfl := List.mem_singleton.mp hq
    exact Int.le_refl _
  | literal text z isPair =>
    intro q hq _
    obtain rfl := List.mem_singleton.mp hq
    show (if isPair then 1 - 15 else 1) - _ ≤ 1 - _
    split <;> omega
  | flow w => exact other (by cases w <;> rfl)
  | operator o =>
    cases o with
    | comma | assign | modulus | minus =>
      refine other ?_
      unfold Lexeme.queued
      dsimp only
      split <;> rfl
    | _ => exact other rfl
  | _ => exact other rfl

/-- No load binds less tight than a jump. -/
theorem Reading.prec_load_le {ls : List Lexeme} (h : Reading pre t d ls t')
    (hd : ∀ q ∈ d.pending, q.op = some .load → q.prec ≤ 1) :
    ∀ q ∈ (d.takeAll ls).pending, q.op = some .load → q.prec ≤ 1 := by
  induction ls generalizing pre t d with
  | nil => exact hd
  | cons l ls ih =>
    obtain ⟨u, -, hrest⟩ := h.cons
    refine ih hrest fun q hq hop => ?_
    rw [pending_take] at hq
    rcases List.mem_append.mp hq with hq | hq
    · have hle := prec_queued_load_le d l q (List.mem_reverse.mp hq) hop
      exact Int.le_trans hle (Draft.prec_le_base h.course.depth_nonneg 1)
    · exact hd q ((kept_suffix d l).subset hq) hop

/-- The code up to a jump holds the jumps of all words up to it. -/
theorem countP_isJump_condition {front : List Opcode} (hpre : Check.Stance.Steps {} pre {})
    (h : Reading pre {} d (.flow w :: c.lexemes ++ post) t') (env : Environment)
    (hd : d = (Draft.start env).takeAll pre) (hw : w.takesCondition = true)
    (hb : c.isBracketed = true) (hfront : Pending.Emitted 1 (d.take (.flow w)).pending.tail front) :
    let test := ((d.take (.flow w)).bare.takeAll c.lexemes).finish ""
    (front ++ test.code).countP Opcode.isJump + 1 =
      ((pre ++ .flow w :: c.lexemes).flatMap Lexeme.words).length := by
  intro test
  obtain ⟨v, hst, -⟩ := h.split
  obtain ⟨u, -, hc⟩ := hst.cons
  obtain ⟨marks, hmarks, -⟩ := pending_flow d hw
  have hleveled : ∀ p ∈ (d.take (.flow w)).pending, Leveled p := by
    subst hd
    exact leveled_take (leveled_takeAll pre fun _ h => absurd h List.not_mem_nil) _
  have hcount := hfront Opcode.isJump fun p hp op hop hjump =>
    Int.le_of_eq (hleveled p (List.mem_of_mem_tail hp) op hop hjump)
  have htotal : ((d.takeAll (.flow w :: c.lexemes)).pendingOf Opcode.isJump).length =
      ((pre ++ .flow w :: c.lexemes).flatMap Lexeme.words).length := by
    have hjumps := jumps_takeAll (.start env) (hpre.trans hst.steps) hst.chain
    rw [filter_marks, Draft.takeAll_append, ← hd] at hjumps
    rw [hjumps]
    simp [Jumps.length_expected, Draft.pendingOf, Draft.start, Pending.outputs]
  have hpending := congrArg Draft.pending (takeAll_condition hc hw hb)
  rw [Draft.pendingOf, hpending, ← List.countP_eq_length_filter] at htotal
  rw [List.countP_append, countP_code, hcount, ← htotal]
  show _ = (Pending.outputs (((d.take (.flow w)).bare.takeAll c.lexemes).pending ++
    (d.take (.flow w)).pending)).countP Opcode.isJump
  rw [Pending.outputs_append, List.countP_append, hmarks]
  simp [Pending.outputs, Draft.awaiting, List.countP_cons, Opcode.isJump]
  omega

/-- The entries of a condition are among the loads where its code is. -/
theorem loads_condition {front : List Opcode} (env : Environment)
    (hpre : Reading [] {} (.start env) pre {})
    (h : Reading pre {} d (.flow w :: c.lexemes ++ post) t') (hd : d = (Draft.start env).takeAll pre)
    (hw : w.takesCondition = true) (hb : c.isBracketed = true)
    (hspelled : ∀ l ∈ pre ++ .flow w :: c.lexemes ++ post, l.Spelled)
    (haimed : Lexeme.Aimed (pre ++ .flow w :: c.lexemes ++ post))
    (hfront : Pending.Emitted 1 (d.take (.flow w)).pending.tail front) :
    ∃ after, (d.takeAll (.flow w :: c.lexemes ++ post)).loads.reverse =
      d.loads.reverse ++ ((d.take (.flow w)).bare.takeAll c.lexemes).loads.reverse ++ after ∧
      d.loads.length = front.count .load := by
  obtain ⟨v, hst, hlast⟩ := h.split
  obtain ⟨u, -, hc⟩ := hst.cons
  let d' := d.takeAll (.flow w :: c.lexemes)
  have hd' := takeAll_condition hc hw hb
  have hassign := (whole_condition hc hb).1.assignable
  have hbehind := fills_behind env hspelled
    (aimedAfter_of_aimed haimed hlast.steps hassign ⟨.flow w, by simp, nofun, nofun⟩)
  rw [Draft.takeAll_append, ← hd] at hbehind
  have hbefore : Fills (.start env) d (Lexeme.reads {} pre) (Lexeme.targets pre) := by
    have haimed' : AimedAfter True pre := fun a b hab =>
      (haimed a (b ++ (.flow w :: c.lexemes ++ post)) (by simp [hab])).imp_right
        fun hall => ⟨trivial, hall⟩
    rw [hd]
    exact fills_takeAll (p := {}) (fun l hl => hspelled l (by simp [hl])) haimed'
      (fun _ => ⟨rfl, rfl, rfl⟩) (Sound.start env) ⟨rfl, fun h => Bool.noConfusion h⟩
  obtain ⟨idx, hidx, hreads⟩ := hbefore.loads
  obtain ⟨after, hafter, -⟩ := hbehind.loads
  have hflow : (d.take (.flow w)).loads = d.loads := by cases w <;> rfl
  refine ⟨after, ?_, ?_⟩
  · have hloads := congrArg Draft.loads hd'
    rw [Draft.takeAll_append, hafter, hloads]
    show (_ ++ (_ ++ (d.take (.flow w)).loads)).reverse = _
    simp [hflow]
  · have hlow : ∀ p ∈ d.pending, p.op = some .load → p.prec ≤ 1 := by
      rw [hd]
      exact hpre.prec_load_le fun _ h => absurd h List.not_mem_nil
    have hcount := hfront (· == .load)
    have hops : (d.pendingOf (· == .load)).length = d.loads.length := by
      rw [hbefore.loadOps, hidx]
      simp [Draft.pendingOf, Draft.start, Pending.outputs, hreads.length_eq]
    obtain ⟨marks, hmarks, hno⟩ := pending_flow d hw
    have hnone : (Pending.outputs marks).count .load = 0 := List.count_eq_zero.mpr hno
    rw [hmarks, List.tail_cons, Pending.outputs_append, List.countP_append] at hcount
    rw [← hops, Draft.pendingOf, ← List.countP_eq_length_filter, List.count, hcount, ← List.count,
      hnone, Nat.zero_add]
    intro p hp op hop hk
    obtain rfl := eq_of_beq hk
    rcases List.mem_append.mp hp with hp | hp
    · exact absurd (List.mem_filterMap.mpr ⟨p, hp, hop⟩) hno
    · exact hlow p hp hop

end Compile

/-! ## Statements with a branch -/

open Lexeme Check

theorem Expr.brackets_of_isBracketed {c : Expr} (h : c.isBracketed = true) :
    ∃ l rest, c.lexemes = l :: rest ∧ l.Brackets := by
  cases c with
  | group e => exact ⟨_, _, rfl, trivial⟩
  | literal text z isPair =>
    cases isPair with
    | true => exact ⟨_, _, rfl, trivial⟩
    | false => exact absurd h Bool.false_ne_true
  | _ => exact absurd h Bool.false_ne_true

/-- An expression that begins with a parenthesis and has no operator outside is what the parentheses
hold. -/
theorem Expr.isBracketed_of_outside {e : Expr} {l : Lexeme} {rest : List Lexeme}
    (he : e.lexemes = l :: rest) (hl : l.Brackets) (hno : ∀ o, .operator o ∉ outside 0 e.lexemes) :
    e.isBracketed = true := by
  cases e with
  | group => rfl
  | literal text z isPair =>
    obtain rfl := (List.cons.inj he).1
    cases isPair with
    | true => rfl
    | false => exact hl.elim
  | binary o a b =>
    refine absurd ?_ (hno o.operator)
    rw [Expr.lexemes, (a.outside_lexemes 0 _).1]
    simp [outside]
  | _ =>
    obtain rfl := (List.cons.inj he).1
    exact hl.elim

theorem Lexeme.StandsAlone.operator_not_mem {st : List Lexeme} (h : StandsAlone st) (o : Operator) :
    .operator o ∉ outside 0 st := by
  obtain ⟨w, h⟩ := h
  split at h
  · obtain ⟨c, -, hb, rfl⟩ := h
    cases c with
    | group e =>
      have hnil : outside 0 (Expr.group e).lexemes = [] := by
        rw [Expr.lexemes, List.cons_append, outside, (e.outside_lexemes 1 _).1,
          (e.outside_lexemes 0 []).2]
        simp [outside]
      simp [outside, hnil]
    | literal => simp [Expr.lexemes, outside]
    | _ => exact absurd hb Bool.false_ne_true
  · subst h
    simp [outside]

namespace Check

theorem Stance.Step.fresh_of_brackets {t t' : Stance} {l : Lexeme} (h : t.Step t' l)
    (hl : l.Brackets) : t'.fresh = false := by
  cases l with
  | leftParen =>
    obtain ⟨-, -, rfl⟩ := h
    rfl
  | literal =>
    obtain ⟨-, rfl⟩ := h
    rfl
  | _ => exact hl.elim

/-- Where there is no bar outside parentheses, none is forgotten. -/
theorem Stance.Steps.remembered {t t' : Stance} {ls : List Lexeme} (h : t.Steps ls t')
    (ht : t.openParens = 0) (hno : .operator .modulus ∉ outside 0 ls) : Remembered ls := by
  rintro a ⟨b, rfl⟩ -
  obtain ⟨u, ha, -⟩ := h.append
  have hsplit := outside_of_steps ha b
  rw [ht] at hsplit
  rw [hsplit] at hno
  rw [List.count_eq_zero.mpr fun hmem => hno (List.mem_append_left _ hmem)]

/-- A branch comes first in its statement, if no operator outside parentheses does. -/
theorem Stance.Steps.exists_flow {st : List Lexeme} {u : Stance} (h : Stance.Steps {} st u)
    (hsep : ∀ l ∈ st, ¬ l.Separates) (hflow : ∃ w, .flow w ∈ st)
    (hno : ∀ o, .operator o ∉ outside 0 st) : ∃ w rest, st = .flow w :: rest := by
  obtain ⟨w, hw⟩ := hflow
  obtain ⟨a, b, rfl⟩ := List.append_of_mem hw
  obtain ⟨v, ha, hrest⟩ := h.append
  cases hrest with
  | cons hstep _ =>
    obtain ⟨hsigns, -, -⟩ := ha.signs (fun l hl => hsep l (by simp [hl])) rfl hstep.1
    cases a with
    | nil => exact ⟨w, b, rfl⟩
    | cons l a =>
      rcases hsigns l List.mem_cons_self with (rfl | rfl | rfl) | ⟨w', rfl⟩
      · exact absurd (by simp [outside]) (hno .assign)
      · exact absurd (by simp [outside]) (hno .minus)
      · exact absurd (by simp [outside]) (hno .modulus)
      · exact ⟨w', a ++ .flow w :: b, rfl⟩

/-- What begins with a parenthesis behind a branch and has no operator outside is a condition. -/
theorem Stance.Steps.exists_condition {w : FlowWord} {l : Lexeme} {rest : List Lexeme}
    {t u : Stance} (hflow : Stance.Step {} t (.flow w)) (h : t.Steps (l :: rest) u) (hends : u.Ends)
    (hl : l.Brackets) (hchain : (l :: rest).IsChain Admits)
    (hsep : ∀ k ∈ l :: rest, ¬ k.Separates) (hinner : ∀ k ∈ l :: rest, k.isEnd = false)
    (hno : ∀ o, .operator o ∉ outside 0 (l :: rest)) :
    ∃ c : Expr, c.Legible ∧ c.isBracketed = true ∧ c.lexemes = l :: rest := by
  obtain ⟨-, rfl⟩ := hflow
  have hfresh : u.fresh = false ∧ ∀ w, .flow w ∉ l :: rest := by
    cases h with
    | cons hstep hrest =>
      obtain ⟨hno, hu⟩ := hrest.fresh (fun k hk => hsep k (List.mem_cons_of_mem _ hk))
        (hstep.fresh_of_brackets hl)
      refine ⟨hu, fun w hw => ?_⟩
      rcases List.mem_cons.mp hw with rfl | hw
      · exact hl
      · exact hno w hw
  have hphrase : Phrase (l :: rest) u := by
    refine Phrase.run h (.start rfl rfl rfl) rfl hchain (fun k hk => ?_) ?_
    · refine expresses_of (hsep k hk) (hinner k hk) (fun w hw => hfresh.2 w (hw ▸ hk)) ?_
      rintro rfl
      exact h.assign_not_mem hsep rfl hk
    · exact h.remembered rfl (hno .modulus)
  have hwants : u.wantsOperand = false := by
    by_contra hwants
    exact Bool.false_ne_true (hfresh.1.symm.trans (hends.2.2 (by simpa using hwants)))
  obtain ⟨c, hc, hlexemes⟩ := hphrase.exists_expr hends hwants
  exact ⟨c, hc, c.isBracketed_of_outside hlexemes hl (by rwa [hlexemes]), hlexemes⟩

/-- A statement of an accepted body in which there is a branch is that branch and its condition,
unless there is an operator outside parentheses. -/
theorem Accepted.standsAlone_iff {ls pre st post : List Lexeme} (h : Accepted ls)
    (hst : Delimits pre st post ls) (hflow : ∃ w, .flow w ∈ st) :
    StandsAlone st ↔ ∀ o, .operator o ∉ outside 0 st := by
  refine ⟨Lexeme.StandsAlone.operator_not_mem, fun hno => ?_⟩
  obtain ⟨-, ⟨u, hsteps, hends⟩, m, hm, hchain⟩ := h.delimits hst
  have hinner : ∀ l ∈ st, l.isEnd = false := fun l hl => h.inner l (by rw [hst.split]; simp [hl])
  obtain ⟨w, rest, rfl⟩ := hsteps.exists_flow hst.inner hflow hno
  have hsep : ∀ l ∈ rest, ¬ l.Separates := fun l hl => hst.inner l (List.mem_cons_of_mem _ hl)
  have hno' (o : Operator) : .operator o ∉ outside 0 rest := by simpa [outside] using hno o
  refine ⟨w, ?_⟩
  by_cases hw : w.takesCondition = true
  · rw [if_pos hw]
    cases rest with
    | nil =>
      have hnext := (List.isChain_cons_cons.mp hchain).1
      rw [Admits, if_pos hw] at hnext
      cases m with
      | operator | close => exact hnext.elim
      | _ => exact hm.elim
    | cons l rest =>
      obtain ⟨hnext, hchain⟩ := List.isChain_cons_cons.mp hchain
      rw [Admits, if_pos hw] at hnext
      cases hsteps with
      | cons hstep hrest =>
        obtain ⟨c, hc, hbracketed, hlexemes⟩ := hrest.exists_condition hstep hends hnext
          (List.isChain_append.mp hchain).1 hsep (fun k hk => hinner k (by simp [hk])) hno'
        exact ⟨c, hc, hbracketed, by rw [hlexemes]⟩
  · rw [if_neg hw]
    cases rest with
    | nil => rfl
    | cons l rest =>
      have hnext := (List.isChain_cons_cons.mp hchain).1
      rw [Admits, if_neg hw] at hnext
      exact absurd hnext (hsep l List.mem_cons_self)

end Check

/-- The code of a condition on its own is its tree in postorder, if there is neither a sign nor a bar
in it. -/
theorem Compile.code_of_condition {d : Draft} {c : Expr} {known : List String} (hc : c.Parsed)
    (hspelled : ∀ l ∈ c.lexemes, l.Spelled) (hsound : Sound d.slots known) (hparens : d.parens = 0)
    (hbar : d.bar = noBar) (hw : d.wantsOperand = true) :
    let test := (d.bare.takeAll c.lexemes).finish ""
    test.code = c.postorder ∧ List.Forall₂ (Holds test.slots) test.loads c.operands := by
  intro test
  have hreceives : Receives d.bare [] known false c :=
    receives_of_readable (d := d.bare) hc.readable hspelled hsound hparens hbar hw nofun
  obtain ⟨hgrows, -, -⟩ := hreceives.becomes hc.plain.legible
  rw [hc.plain.fold_eq] at hgrows
  obtain ⟨idx, hloads, hholds⟩ := hgrows.loads
  constructor
  · show Pending.linearize (d.bare.takeAll c.lexemes).pending.reverse = _
    rw [hgrows.pending]
    simpa [Expr.piece] using c.linearize_pending hc.settled.1 _
  · show List.Forall₂ _ (d.bare.takeAll c.lexemes).loads.reverse _
    rw [hloads, List.reverse_append, List.reverse_reverse]
    exact hholds

/-- So it is behind a branch. -/
theorem Compile.code_behind_flow {pre post : List Lexeme} {w : FlowWord} {c : Expr} {d : Draft}
    {t : Check.Stance} {env : Environment} (h : Reading pre {} d (.flow w :: c.lexemes ++ post) t)
    (hd : d = (Draft.start env).takeAll pre) (hw : w.takesCondition = true) (hc : c.Parsed)
    (hspelled : ∀ l ∈ pre ++ .flow w :: c.lexemes ++ post, l.Spelled) :
    let test := ((d.take (.flow w)).bare.takeAll c.lexemes).finish ""
    test.code = c.postorder ∧ List.Forall₂ (Holds test.slots) test.loads c.operands := by
  obtain ⟨v, hwhole, -⟩ := h.split
  obtain ⟨u, hstep, hcond⟩ := hwhole.cons
  have hspelled' : ∀ l ∈ pre ++ [.flow w], l.Spelled := by
    intro l hl
    refine hspelled l ?_
    simp at hl
    rcases hl with hl | rfl <;> simp [*]
  obtain ⟨known, hsound⟩ := sound_takeAll (d := .start env) hspelled' (Sound.start env)
  rw [Draft.takeAll_append, ← hd] at hsound
  have hplace : u.levels = [false] ∧ u.openParens = 0 := by
    obtain ⟨-, rfl⟩ := hstep
    exact ⟨rfl, rfl⟩
  have hparens := hcond.course.aligned.parens
  have hbars := hcond.course.aligned.bars
  rw [hplace.1, hplace.2] at hparens
  rw [hplace.1] at hbars
  exact code_of_condition hc (fun l hl => hspelled l (by simp [hl])) hsound hparens
    (List.cons.inj hbars).1 ((wantsOperand_take d (.flow w)).trans hw)

/-- In an accepted body a branch is the first of its statement and has nothing but its condition
behind it, unless there is an operator outside parentheses.  The code of the condition stands right
in front of the jump that tests it, which is the one that the table has for the branch. -/
theorem branch_stands_alone {text : String} {offset : Nat} {tally : Tally}
    (h : check text offset = .ok tally) {pre st post : List Lexeme}
    (hst : Delimits pre st post (Lexeme.ofBody text offset)) (hflow : ∃ w, .flow w ∈ st) :
    (StandsAlone st ↔ ∀ o, .operator o ∉ outside 0 st) ∧
      ∀ (w : FlowWord) (c : Expr) (env : Environment), c.isBracketed = true →
        st = .flow w :: c.lexemes → Shallow (Lexeme.ofBody text offset) →
        let p := compile (Token.body text offset) env
        let test := ((((Draft.start env).takeAll pre).take (.flow w)).bare.takeAll c.lexemes).finish ""
        test.slots <+: p.slots ∧
        (c.Parsed → test.code = c.postorder ∧ List.Forall₂ (Holds p.slots) test.loads c.operands) ∧
        ∃ front back, p.code = front ++ test.code ++ .jumpOnFalse :: back ∧
          (front ++ test.code).countP Opcode.isJump + 1 =
            ((pre ++ st).flatMap Lexeme.words).length ∧
          (Aimed (Lexeme.ofBody text offset) → ∃ loads loads',
            p.loads = loads ++ test.loads ++ loads' ∧ loads.length = front.count .load) := by
  obtain ⟨haccepted, hcompile⟩ := body_of_check h
  refine ⟨haccepted.standsAlone_iff hst hflow, fun w c env hb hstatement hshallow => ?_⟩
  subst hstatement
  intro p test
  obtain ⟨formula, hcompile⟩ := hcompile env
  obtain ⟨hpre, -, m, -, hchain⟩ := haccepted.delimits hst
  have hw : w.takesCondition = true := by
    obtain ⟨l, rest, hlex, hl⟩ := c.brackets_of_isBracketed hb
    rw [hlex] at hchain
    have hnext := (List.isChain_cons_cons.mp hchain).1
    by_contra hno
    rw [Admits, if_neg hno] at hnext
    cases l with
    | leftParen | literal => exact hnext
    | _ => exact hl
  have hspelled := haccepted.spelled
  rw [hst.split] at haccepted hshallow hcompile hspelled
  have hsplit := List.append_assoc pre (.flow w :: c.lexemes) post
  let d := (Draft.start env).takeAll pre
  obtain ⟨t', hbody⟩ :=
    Compile.exists_reading (hsplit ▸ haccepted) (hsplit ▸ hshallow) env (.nil {})
  obtain ⟨v, hbefore, hread⟩ := Reading.split (p := pre) hbody
  obtain rfl := hbefore.steps.unique hpre
  have hread : Reading pre {} d (.flow w :: c.lexemes ++ post) t' := hread
  obtain ⟨front, back, hcode, hfront⟩ := condition_in_place hread hw hb hst.after
  obtain ⟨v, hwhole, -⟩ := hread.split
  obtain ⟨u, -, hcond⟩ := hwhole.cons
  have hp : p = (d.takeAll (.flow w :: c.lexemes ++ post)).finish formula := by
    rw [← Draft.takeAll_append, ← hsplit]
    exact hcompile
  have hslots : test.slots <+: p.slots := by
    have hsame : (d.takeAll (.flow w :: c.lexemes)).slots = test.slots :=
      (congrArg Draft.slots (takeAll_condition hcond hw hb)).trans rfl
    rw [hp, Draft.takeAll_append, ← hsame]
    exact slots_prefix_takeAll post _
  refine ⟨hslots, fun hparsed => ?_, front, back, ?_, ?_, fun haimed => ?_⟩
  · obtain ⟨hcode, hloads⟩ := code_behind_flow hread rfl hw hparsed hspelled
    exact ⟨hcode, hloads.imp fun _ _ => Holds.mono hslots⟩
  · rw [hp]
    exact hcode
  · exact countP_isJump_condition hpre hread env rfl hw hb hfront
  · obtain ⟨after, hloads, hlength⟩ :=
      loads_condition env hbefore hread rfl hw hb hspelled (hst.split ▸ haimed) hfront
    exact ⟨d.loads.reverse, after, hp ▸ hloads, List.length_reverse.trans hlength⟩

theorem branch_stands_alone_less : ∃ text tally pre st post w, ∃ c : Expr, check text 0 = .ok tally ∧
    Delimits pre st post (Lexeme.ofBody text 0) ∧ st = .flow w :: c.lexemes ∧ StandsAlone st ∧
      ∃ front back, (compile (Token.body text 0) ({} : Settings).environment).code =
        front ++ c.postorder ++ .jumpOnFalse :: back := by
  let text := "if(z<c)\nz=c\nendif\n\x7d"
  let c : Expr := .group (.binary .lt (.name "z") (.name "c"))
  let st : List Lexeme := .flow .if :: c.lexemes
  let post : List Lexeme := [.operator .comma, .name "z", .operator .assign, .name "c",
    .operator .comma, .flow .endIf]
  have hstream : Token.stream (Cursor.seek text 0) = Token.firstTokens 40 (Cursor.seek text 0) :=
    Token.stream_eq_firstTokens (by decide +kernel)
  obtain ⟨tally, h⟩ : ∃ tally, check text 0 = .ok tally := by
    refine exists_check ?_
    rw [check, hstream]
    decide +kernel
  have hlexemes : Lexeme.ofBody text 0 = [] ++ st ++ post := by
    rw [Lexeme.ofBody, hstream]
    decide +kernel
  have hst : Delimits [] st post (Lexeme.ofBody text 0) := by
    refine ⟨hlexemes, nofun, ?_, ?_⟩
    · simp [st, c, Expr.lexemes, Infix.operator, Separates, Operator.endsStatement]
    · simp [post, Separates, Operator.endsStatement]
  have hshallow : Shallow (Lexeme.ofBody text 0) := by
    rw [hlexemes]
    exact shallow_of_count (by decide)
  have hparsed : c.Parsed := by
    refine ⟨?_, ?_, ?_⟩ <;>
      simp [c, Expr.Plain, Expr.Conventional, Expr.depth, Expr.rank, Infix.rank]
  obtain ⟨halone, hplace⟩ := branch_stands_alone h hst ⟨.if, List.mem_cons_self⟩
  obtain ⟨-, hcode, front, back, hfront, -⟩ :=
    hplace .if c ({} : Settings).environment rfl rfl hshallow
  rw [(hcode hparsed).1] at hfront
  refine ⟨text, tally, [], st, post, .if, c, h, hst, rfl, halone.mpr fun o => ?_, front, back,
    hfront⟩
  cases o <;> decide

/-- What continues a condition comes behind the jump. -/
theorem exists_trailing_sum : ∃ text tally pre st post, check text 0 = .ok tally ∧
    Delimits pre st post (Lexeme.ofBody text 0) ∧ (∃ w, .flow w ∈ st) ∧ ¬ StandsAlone st ∧
      st = [.flow .if, .leftParen, .name "z", .rightParen, .operator .plus, .name "c"] ∧
      (compile (Token.body text 0) ({} : Settings).environment).code =
        [.load, .jumpOnFalse, .load, .add, .clear, .load, .store, .clear, .label] := by
  let text := "if(z)+c\nz=c\nendif\n\x7d"
  let st : List Lexeme :=
    [.flow .if, .leftParen, .name "z", .rightParen, .operator .plus, .name "c"]
  let post : List Lexeme := [.operator .comma, .name "z", .operator .assign, .name "c",
    .operator .comma, .flow .endIf]
  have hstream : Token.stream (Cursor.seek text 0) = Token.firstTokens 40 (Cursor.seek text 0) :=
    Token.stream_eq_firstTokens (by decide +kernel)
  obtain ⟨tally, h⟩ : ∃ tally, check text 0 = .ok tally := by
    refine exists_check ?_
    rw [check, hstream]
    decide +kernel
  have hlexemes : Lexeme.ofBody text 0 = [] ++ st ++ post := by
    rw [Lexeme.ofBody, hstream]
    decide +kernel
  have hst : Delimits [] st post (Lexeme.ofBody text 0) := by
    refine ⟨hlexemes, nofun, ?_, ?_⟩
    · simp [st, Separates, Operator.endsStatement]
    · simp [post, Separates, Operator.endsStatement]
  refine ⟨text, tally, [], st, post, h, hst, ⟨.if, by simp [st]⟩, fun halone => ?_, rfl, ?_⟩
  · exact halone.operator_not_mem .plus (by simp [st, outside])
  · rw [Token.body, hstream]
    decide +kernel

end FractalFormula
