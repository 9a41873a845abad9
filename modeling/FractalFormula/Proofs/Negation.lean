/-
Minus signs.

A minus sign of its own either stays an instruction, which comes right behind the code of the operand
that follows, or the operand is a literal that takes it up (`negation_in_place`).  So it goes with the
operand as a whole, unless that begins with another sign or a bar, which bind as tight, or a sign
stands before it, or a group begins with a literal that takes the sign away from it.
-/
import FractalFormula.Load.Formula
import FractalFormula.Proofs.Trail

namespace FractalFormula

open Compile

namespace Lexeme

/-- Every parenthesis that is closed was opened before, and all are closed in the end. -/
def Closed (ls : List Lexeme) : Prop :=
  ls.count .leftParen = ls.count .rightParen ∧
    ∀ p, p <+: ls → p.count .rightParen ≤ p.count .leftParen

theorem closed_of_not_mem {ls : List Lexeme} (hleft : .leftParen ∉ ls) (hright : .rightParen ∉ ls) :
    Closed ls := by
  refine ⟨(List.count_eq_zero.mpr hleft).trans (List.count_eq_zero.mpr hright).symm, fun p hp => ?_⟩
  rw [List.count_eq_zero.mpr fun hmem => hright (hp.subset hmem)]
  exact Nat.zero_le _

/-- A name, a literal, a group or a function of one of these. -/
inductive Operand : List Lexeme → Prop
  | name (v : String) : Operand [.name v]
  | literal (text : String) (z : Complex Float) (isPair : Bool) : Operand [.literal text z isPair]
  | group {ls : List Lexeme} : Closed ls → Operand (.leftParen :: ls ++ [.rightParen])
  | call (f : Func) {ls : List Lexeme} : Operand ls → Operand (.call f :: ls)

/-- But for parentheses before it, the lexemes begin with a literal that gets a slot of its own. -/
def BeginsNew (d : Draft) (ls : List Lexeme) : Prop :=
  ∃ n text z isPair rest, ls = List.replicate n .leftParen ++ .literal text z isPair :: rest ∧
    (isPair = true ∨ d.slots.findIdx? (·.name == text) = none)

theorem BeginsNew.slot {d : Draft} {n : Nat} {text : String} {z : Complex Float} {isPair : Bool}
    {rest : List Lexeme}
    (h : BeginsNew d (List.replicate n .leftParen ++ .literal text z isPair :: rest)) :
    isPair = true ∨ d.slots.findIdx? (·.name == text) = none := by
  obtain ⟨m, text', z', isPair', rest', hsplit, hslot⟩ := h
  induction n generalizing m with
  | zero =>
    cases m with
    | zero =>
      cases hsplit
      exact hslot
    | succ m => cases (List.cons.inj hsplit).1
  | succ n ih =>
    cases m with
    | zero => cases (List.cons.inj hsplit).1
    | succ m => exact ih m (List.cons.inj hsplit).2

/-- The literal and the parentheses around it. -/
def wrapped (n : Nat) (text : String) (z : Complex Float) (isPair : Bool) : List Lexeme :=
  List.replicate n .leftParen ++ .literal text z isPair :: List.replicate n .rightParen

end Lexeme

namespace Compile

variable {pre e post : List Lexeme} {t t' : Check.Stance} {d : Draft}

/-- The lexemes `e` are passed as an operand: nothing is open that was not before, and what they queue
binds tighter than a sign. -/
structure Whole (d : Draft) (e : List Lexeme) (t' : Check.Stance) : Prop where
  wants : t'.wantsOperand = false
  assignable : t'.assignable = false
  passes : Passes d (d.takeAll e)
  noAssign : .operator .assign ∉ e
  tight : ∀ c : Draft, c.footing = d.footing →
    ∀ x ∈ (c.takeAll e).pending, x ∈ c.pending ∨ x.prec < d.prec 2

theorem prec_one_lt (d : Draft) : d.prec 1 < d.prec 2 := by
  show 1 - (d.parens + d.assignments) * 15 < 2 - (d.parens + d.assignments) * 15
  omega

theorem whole_name {v : String} (h : Reading pre t d [.name v] t') (hassign : t.assignable = false) :
    Whole d [.name v] t' := by
  obtain ⟨u, hstep, hend⟩ := h.cons
  cases hend.steps
  obtain ⟨-, rfl⟩ := hstep
  refine ⟨rfl, hassign, h.course.passes h.behind rfl rfl (Course.footing_eq d (.name v)).2 rfl, by simp,
    fun c hc x hx => ?_⟩
  have hpending : (c.takeAll [.name v]).pending = ⟨some .load, c.prec 1⟩ :: c.pending :=
    pending_name c v
  rw [hpending] at hx
  rcases List.mem_cons.mp hx with rfl | hx
  · exact .inr (prec_eq hc 1 ▸ prec_one_lt d)
  · exact .inl hx

theorem whole_literal {text : String} {z : Complex Float} {isPair : Bool}
    (h : Reading pre t d [.literal text z isPair] t') : Whole d [.literal text z isPair] t' := by
  obtain ⟨u, hstep, hend⟩ := h.cons
  cases hend.steps
  obtain ⟨-, rfl⟩ := hstep
  refine ⟨rfl, rfl, h.course.passes h.behind rfl rfl
    (Course.footing_eq d (.literal text z isPair)).2 rfl, by simp, fun c hc x hx => ?_⟩
  have hpending : (c.takeAll [.literal text z isPair]).pending =
      ⟨some .load, c.prec (if isPair then 1 - level else 1)⟩ ::
        (Lexeme.literal text z isPair).kept c := pending_literal c text z isPair
  rw [hpending] at hx
  rcases List.mem_cons.mp hx with rfl | hx
  · have hle : c.prec (if isPair then 1 - level else 1) ≤ c.prec 1 := by
      show _ - (c.parens + c.assignments) * 15 ≤ 1 - (c.parens + c.assignments) * 15
      have hlevel : level = 15 := rfl
      rw [hlevel]
      split <;> omega
    exact .inr (Int.lt_of_le_of_lt hle (prec_eq hc 1 ▸ prec_one_lt d))
  · exact .inl ((kept_suffix c _).subset hx)

/-- Within parentheses that close one another nothing from before is closed. -/
theorem encloses_of_closed {u : Check.Stance} {q : List Lexeme}
    (h : Reading pre t d (.leftParen :: (e ++ q)) t') (hclosed : Lexeme.Closed e)
    (hopen : t.Step u .leftParen) :
    u.levels = false :: t.levels ∧ u.openParens = t.openParens + 1 ∧ Encloses t.levels u e := by
  have hroomy := h.course.aligned.roomy
  have hlength := Check.Stance.length_levels hroomy
  have hopens : u.levels = false :: t.levels ∧ u.openParens = t.openParens + 1 := by
    obtain ⟨v, hstep, hrest⟩ := h.cons
    obtain rfl := Check.Stance.Step.unique hopen hstep
    obtain ⟨hshift, -⟩ :=
      Check.Stance.shift_of_step hopen hroomy hrest.openParens_lt.1 (by decide) (by decide)
    cases hshift with
    | «open» hlevels hopens => exact ⟨hlevels, hopens⟩
    | other h _ _ _ _ => exact absurd rfl h
  have hassign : u.assignable = false := by
    obtain ⟨-, -, rfl⟩ := hopen
    rfl
  refine ⟨hopens.1, hopens.2, ?_, ?_, .inl (by omega), hassign, fun p hp => ?_, fun p hp => ?_⟩
  · rw [hopens.1]
    exact List.suffix_cons _ _
  · rw [hopens.1, List.count_cons_of_ne Bool.false_ne_true]
  · have hle := hclosed.2 _ hp
    rw [List.count_append, List.count_append] at hle
    exact Nat.lt_of_succ_le (by simpa using hle)
  · have hle := hclosed.2 p ((List.prefix_append p _).trans hp)
    omega

/-- Within parentheses nothing binds less tight than a load before them. -/
theorem prec_lt_of_group (h : Reading pre t d (.leftParen :: (e ++ [.rightParen])) t')
    (hclosed : Lexeme.Closed e) {c : Draft} (hc : c.footing = d.footing) :
    ∀ x ∈ (c.takeAll (.leftParen :: (e ++ [.rightParen]))).pending,
      x ∈ c.pending ∨ x.prec < d.prec 1 := by
  intro x hx
  obtain ⟨t₁, hopen, hrest⟩ := h.cons
  obtain ⟨-, -, hencloses⟩ := encloses_of_closed h hclosed hopen
  obtain ⟨u, he, -⟩ := hrest.split
  have hfresh : t₁.fresh = false := by
    obtain ⟨-, -, rfl⟩ := hopen
    rfl
  have htake : c.takeAll (.leftParen :: (e ++ [.rightParen])) =
      ((c.take .leftParen).takeAll e).take .rightParen := Draft.takeAll_append ..
  have hfooting : (c.take .leftParen).footing = (d.take .leftParen).footing := by
    rw [footing_take, footing_take, hc]
  rw [htake] at hx
  refine (he.prec_le hencloses (.inl hfresh) hfooting x hx).imp_right fun hle => ?_
  have hdeeper : (d.take .leftParen).prec 7 = 7 - (d.parens + 1 + d.assignments) * 15 := rfl
  rw [hdeeper] at hle
  show x.prec < 1 - (d.parens + d.assignments) * 15
  omega

theorem whole_group (h : Reading pre t d (.leftParen :: (e ++ [.rightParen])) t')
    (hclosed : Lexeme.Closed e) : Whole d (.leftParen :: (e ++ [.rightParen])) t' := by
  obtain ⟨t₁, hopen, hrest⟩ := h.cons
  obtain ⟨hlevels₁, hopenParens₁, hencloses⟩ := encloses_of_closed h hclosed hopen
  obtain ⟨u, he, hlast⟩ := hrest.split
  obtain ⟨u', hclose, hend⟩ := hlast.cons
  cases hend.steps
  have hinside := he.inside hencloses
  have hcloses : u.levels = false :: t'.levels ∧ u.openParens = t'.openParens + 1 := by
    obtain ⟨hshift, -⟩ := Check.Stance.shift_of_step hclose hlast.course.aligned.roomy
      h.openParens_lt.2 (by decide) (by decide)
    cases hshift with
    | «close» hlevels hcloses => exact ⟨hlevels, hcloses⟩
    | other _ h _ _ _ => exact absurd rfl h
  have hends : t'.wantsOperand = false ∧ t'.assignable = false := by
    obtain ⟨hw, -, -, rfl⟩ := hclose
    exact ⟨hw, rfl⟩
  have hopenParens : t'.openParens = t.openParens := by
    have hcount := Check.Stance.openParens_of_steps he.steps
    have hequal := hclosed.1
    omega
  have hlevels : t'.levels = t.levels := by
    have hsuffix := hinside.levels
    have hlength := Check.Stance.length_levels h.course.aligned.roomy
    have hlength' := Check.Stance.length_levels h.behind.aligned.roomy
    rw [hcloses.1] at hsuffix
    refine ((Check.Stance.suffix_of_cons hsuffix ?_).eq_of_length ?_).symm <;>
      rw [hlength, hlength', hopenParens]
  have hassignments : (d.takeAll (.leftParen :: (e ++ [.rightParen]))).assignments = d.assignments := by
    have htake : d.takeAll (.leftParen :: (e ++ [.rightParen])) =
        ((d.take .leftParen).takeAll e).take .rightParen := Draft.takeAll_append ..
    rw [htake]
    exact hinside.assignments
  exact ⟨hends.1, hends.2, h.course.passes h.behind hlevels hopenParens hassignments hends.1,
    by simp [hinside.noAssign], fun c hc x hx =>
      (prec_lt_of_group h hclosed hc x hx).imp_right fun hlt => Int.lt_trans hlt (prec_one_lt d)⟩

theorem whole_operand (he : Lexeme.Operand e) (h : Reading pre t d e t')
    (hassign : t.assignable = false) : Whole d e t' := by
  induction he generalizing pre t d with
  | name v => exact whole_name h hassign
  | literal text z isPair => exact whole_literal h
  | group hclosed => exact whole_group h hclosed
  | call f _ ih =>
    obtain ⟨u, hstep, hrest⟩ := h.cons
    have hassign' : u.assignable = false := by
      obtain ⟨-, rfl⟩ := hstep
      rfl
    obtain ⟨hw, hassign, hpasses, hno, htight⟩ := ih hrest hassign'
    refine ⟨hw, hassign, ⟨hpasses.parens, hpasses.assignments, hpasses.bar, hpasses.bars,
      hpasses.wantsOperand⟩, by simp [hno], fun c hc x hx => ?_⟩
    have hfooting : (c.take (.call f)).footing = (d.take (.call f)).footing := by
      rw [footing_take, footing_take, hc]
    rcases htight (c.take (.call f)) hfooting x hx with hx | hlt
    · rcases List.mem_cons.mp hx with rfl | hx
      · exact .inr (prec_eq hc 1 ▸ prec_one_lt d)
      · exact .inl hx
    · exact .inr hlt

/-! ## What becomes of the sign -/

/-- Where an operand is wanted within an expression, all but a parenthesis queues something. -/
theorem queued_ne_nil {ls : List Lexeme} {c : Draft} {l : Lexeme} (h : Reading pre t d (l :: ls) t')
    (hc : c.footing = d.footing) (hw : t.wantsOperand = true) (hl : l ≠ .leftParen)
    (hends : l ≠ .operator .comma ∧ l ≠ .operator .colon) (hassign : l ≠ .operator .assign) :
    l.queued c ≠ [] := by
  obtain ⟨u, hstep, -⟩ := h.cons
  have hend := h.inner l List.mem_cons_self
  cases l with
  | leftParen => exact absurd rfl hl
  | rightParen => exact Bool.noConfusion (hstep.1.symm.trans hw)
  | name | literal | call => exact List.cons_ne_nil _ _
  | flow w => cases w <;> exact List.cons_ne_nil _ _
  | operator o =>
    cases o with
    | comma => exact absurd rfl hends.1
    | colon => exact absurd rfl hends.2
    | assign => exact absurd rfl hassign
    | modulus =>
      have hup : t.bars.isUp = false := by
        have hwants := hstep.1
        rw [hw] at hwants
        simpa using hwants.symm
      have hbar : c.bar ≠ c.parens - 1 := by
        intro hbar
        have hsame : d.bar = d.parens - 1 := by
          rw [show d.bar = c.bar from (congrArg Footing.bar hc).symm,
            show d.parens = c.parens from (congrArg Footing.parens hc).symm, hbar]
        have hcloses := (h.course.aligned.closes_iff h.openParens_lt.1).mp hsame
        exact Bool.false_ne_true (hup.symm.trans hcloses)
      unfold Lexeme.queued
      dsimp only
      rw [if_neg hbar]
      exact List.cons_ne_nil _ _
    | minus =>
      unfold Lexeme.queued
      dsimp only
      split <;> exact List.cons_ne_nil _ _
    | _ => exact List.cons_ne_nil _ _
  | close => cases hend
  | fault => exact hstep.elim

/-- Behind a sign that no literal takes up, an operand is compiled as on its own. -/
theorem takeAll_onTop_sign {ls : List Lexeme} {c : Draft} {below : List (Pending Opcode)}
    {loads : List Nat} (h : Reading pre t d ls t') (hc : c.footing = d.footing)
    (hpending : c.pending = []) (hw : t.wantsOperand = true)
    (hhead : 0 < t.openParens ∨ ∀ l ∈ ls.head?, l ≠ .operator .comma ∧ l ≠ .operator .colon)
    (hassign : .operator .assign ∉ ls) (hnew : ¬ Lexeme.BeginsNew c ls) :
    (c.onTop below loads).takeAll ls = (c.takeAll ls).onTop below loads := by
  induction ls generalizing pre t d c with
  | nil => rfl
  | cons l ls ih =>
    have hrest : .operator .assign ∉ ls := fun hmem => hassign (List.mem_cons_of_mem l hmem)
    obtain ⟨u, hstep, hls⟩ := h.cons
    by_cases hl : l = .leftParen
    · subst hl
      obtain ⟨-, -, rfl⟩ := hstep
      refine ih (c := c.take .leftParen) hls (by rw [footing_take, footing_take, hc]) hpending hw
        (.inl (Nat.succ_pos _)) hrest fun ⟨n, text, z, isPair, rest, hsplit, hslot⟩ => hnew ?_
      exact ⟨n + 1, text, z, isPair, rest, by rw [hsplit]; rfl, hslot⟩
    · have hsign : l.takesSign (c.onTop below loads) = false := by
        cases l with
        | literal text z isPair =>
          refine Bool.eq_false_iff.mpr fun htakes => hnew ⟨0, text, z, isPair, ls, rfl, ?_⟩
          have hslot := (Bool.and_eq_true_iff.mp htakes).1
          exact (Bool.or_eq_true_iff.mp hslot).imp_right Option.isNone_iff_eq_none.mp
        | _ => rfl
      have hne : l ≠ .operator .assign := fun h => hassign (h ▸ List.mem_cons_self)
      have htake : (c.onTop below loads).take l = (c.take l).onTop below loads :=
        take_onTop (fun _ => hsign) fun h => absurd h hne
      have hends : l ≠ .operator .comma ∧ l ≠ .operator .colon := by
        rcases hhead with hpos | hhead
        · refine ⟨?_, ?_⟩ <;>
          · rintro rfl
            exact absurd hstep.1.1 (Nat.ne_of_gt hpos)
        · exact hhead l rfl
      have hqueued := queued_ne_nil h hc hw hl hends hne
      have hpending' : (c.take l).pending ≠ [] := by
        rw [pending_take]
        intro hnil
        exact hqueued (List.reverse_eq_nil_iff.mp (List.append_eq_nil_iff.mp hnil).1)
      rw [Draft.takeAll_cons, Draft.takeAll_cons, htake]
      exact takeAll_onTop (fun hnil => absurd hnil hpending') hrest

/-- The draft behind a sign that stays and its operand. -/
theorem takeAll_negated (he : Lexeme.Operand e) (hd : d.wantsOperand = true)
    (h : Reading pre t (d.take (.operator .minus)) e t') (hw : t.wantsOperand = true)
    (hassign : .operator .assign ∉ e) (hnew : ¬ Lexeme.BeginsNew d e) :
    d.takeAll (.operator .minus :: e) =
      (d.bare.takeAll e).onTop (⟨some .neg, d.prec 2⟩ :: d.pending) d.loads := by
  have htake : d.take (.operator .minus) = d.push .neg 2 := if_pos hd
  have hhead : ∀ l ∈ e.head?, l ≠ .operator .comma ∧ l ≠ .operator .colon := by
    intro l hl
    cases he <;>
    · obtain rfl := Option.some.inj hl
      exact ⟨by simp, by simp⟩
  rw [Draft.takeAll_cons, ← takeAll_onTop_sign (c := d.bare) h (by rw [htake]; rfl) rfl hw
    (.inr hhead) hassign hnew, htake]
  rfl

theorem takeAll_leftParens (c : Draft) (n : Nat) :
    c.takeAll (List.replicate n .leftParen) = { c with parens := c.parens + n } := by
  induction n generalizing c with
  | zero => simp [Draft.takeAll]
  | succ n ih =>
    rw [List.replicate_succ, Draft.takeAll_cons, ih]
    show ({ c with parens := c.parens + 1 + n } : Draft) = _
    rw [Int.add_assoc, Int.add_comm 1, Int.natCast_succ]

theorem takeAll_rightParens (c : Draft) (n : Nat) :
    c.takeAll (List.replicate n .rightParen) = { c with parens := c.parens - n } := by
  induction n generalizing c with
  | zero => simp [Draft.takeAll]
  | succ n ih =>
    rw [List.replicate_succ, Draft.takeAll_cons, ih]
    show ({ c with parens := c.parens - 1 - n } : Draft) = _
    rw [Int.sub_sub, Int.add_comm 1, Int.natCast_succ]

/-- A literal that gets a slot takes up the sign before it. -/
theorem take_literal_signed {c : Draft} {prec : Int} {rest : List (Pending Opcode)} {text : String}
    {z : Complex Float} {isPair : Bool} (hpending : c.pending = ⟨some .neg, prec⟩ :: rest)
    (hslot : isPair = true ∨ c.slots.findIdx? (·.name == text) = none)
    (hspelled : (Lexeme.literal text z isPair).Spelled) :
    c.take (.literal text z isPair) =
      ({ c with wantsOperand := false, pending := rest, slots := c.slots ++
        [⟨"-" ++ text, .constant, ⟨-z.x, -z.y⟩⟩] } : Draft).load c.slots.length
          (if isPair then 1 - level else 1) := by
  match isPair, hslot, hspelled, c.take (.literal text z isPair), literalTaken c text z isPair with
  | _, hslot, _, _, .known hfound =>
    have hnone := hslot.resolve_left Bool.false_ne_true
    cases hfound.symm.trans hnone
  | _, _, _, _, .plain _ hsign => exact absurd hpending (hsign _ _)
  | isPair, _, hspelled, _, .signed _ hsign =>
    rw [hpending] at hsign
    cases hsign
    have hvalue : literalValue z isPair = z := by
      cases isPair with
      | true => rfl
      | false =>
        obtain ⟨-, rfl⟩ := hspelled
        rfl
    rw [hvalue]
    rfl

/-- The draft behind a sign and a literal that takes it up. -/
theorem takeAll_folded {text : String} {z : Complex Float} {isPair : Bool} (n : Nat)
    (hd : d.wantsOperand = true)
    (hslot : isPair = true ∨ d.slots.findIdx? (·.name == text) = none)
    (hspelled : (Lexeme.literal text z isPair).Spelled) :
    let d' := d.takeAll (.operator .minus :: Lexeme.wrapped n text z isPair)
    d'.pending =
        ⟨some .load, d.prec ((if isPair then 1 - level else 1) - n * level)⟩ :: d.pending ∧
      d'.loads = d.slots.length :: d.loads ∧
      d'.slots = d.slots ++ [⟨"-" ++ text, .constant, ⟨-z.x, -z.y⟩⟩] := by
  intro d'
  let c : Draft := { d.push .neg 2 with parens := d.parens + n }
  have htake : d' = (c.take (.literal text z isPair)).takeAll (List.replicate n .rightParen) := by
    have hminus : d.take (.operator .minus) = d.push .neg 2 := if_pos hd
    have happend : (d.take (.operator .minus)).takeAll (Lexeme.wrapped n text z isPair) =
        (((d.take (.operator .minus)).takeAll (List.replicate n .leftParen)).take
          (.literal text z isPair)).takeAll (List.replicate n .rightParen) := Draft.takeAll_append ..
    rw [hminus, takeAll_leftParens] at happend
    show (d.take (.operator .minus)).takeAll _ = _
    rw [hminus, happend]
    rfl
  have hprec (base : Int) : c.prec base = d.prec (base - n * level) := by
    show base - (d.parens + n + d.assignments) * 15 = base - n * 15 - (d.parens + d.assignments) * 15
    omega
  rw [htake, takeAll_rightParens, take_literal_signed (c := c) rfl hslot hspelled, ← hprec]
  exact ⟨rfl, rfl, rfl⟩

/-- Such a literal is loaded in the place of a variable. -/
theorem folded_in_place {u : Check.Stance} {n : Nat} {text : String} {z : Complex Float}
    {isPair : Bool} (formula : String)
    (h : Reading pre t d (.operator .minus :: Lexeme.wrapped n text z isPair) u)
    (hrest : Reading (pre ++ .operator .minus :: Lexeme.wrapped n text z isPair) u
      (d.takeAll (.operator .minus :: Lexeme.wrapped n text z isPair)) post t')
    (hw : t.wantsOperand = true) (htied : ¬ Lexeme.Tied pre) (haimed : AimedAfter False post)
    (hwu : u.wantsOperand = false)
    (hpasses : Passes d (d.takeAll (.operator .minus :: Lexeme.wrapped n text z isPair)))
    (hslot : isPair = true ∨ d.slots.findIdx? (·.name == text) = none)
    (hspelled : (Lexeme.literal text z isPair).Spelled) :
    let d' := d.takeAll (.operator .minus :: Lexeme.wrapped n text z isPair)
    let p := (d'.takeAll post).finish formula
    ∃ code code' before after i, p.code = code ++ [.load] ++ code' ∧
      p.loads = before ++ [i] ++ after ∧
      (∀ j, ((d.instead d' j).takeAll post).finish formula =
        { p with code := code ++ .load :: code', loads := before ++ j :: after }) ∧
      p.slots[i]? = some ⟨"-" ++ text, .constant, ⟨-z.x, -z.y⟩⟩ := by
  intro d' p
  have hd : d.wantsOperand = true := h.course.wants_of h.admits Bool.false_ne_true hw
  obtain ⟨hpending, hloads, hslots⟩ := takeAll_folded n hd hslot hspelled
  have hdeep : n < Nesting.depth := by
    obtain ⟨v, hopen, -⟩ := Reading.split (p := .operator .minus :: List.replicate n .leftParen)
      (q := .literal text z isPair :: List.replicate n .rightParen) h
    have hcount := Check.Stance.openParens_of_steps hopen.steps
    have hlt := hopen.openParens_lt.2
    rw [List.count_cons_of_ne (by decide), List.count_cons_of_ne (by decide),
      List.count_replicate_self, List.count_eq_zero.mpr fun hmem => by
        cases List.eq_of_mem_replicate hmem] at hcount
    omega
  let base : Int := (if isPair then 1 - level else 1) - n * level
  have hbase : -1000 ≤ base ∧ base ≤ 1 := by
    have hdepth : Nesting.depth = 64 := rfl
    have hlevel : level = 15 := rfl
    unfold base
    rw [hlevel]
    split <;> omega
  have hle {base' : Int} (hle : base ≤ base') : d.prec base ≤ d.prec base' := by
    show base - _ ≤ base' - _
    omega
  have hyields := h.yields id Bool.false_ne_true hw htied
    (h.course.separatorPrec_le h.openParens_lt.1 base hbase.1)
  obtain ⟨code, code', before, after, hcode, hall, hinstead⟩ := replace_operand
    [⟨some .load, d.prec base⟩] [d.slots.length] formula hrest haimed hwu hpasses hpending hloads
    hyields (hle hbase.2) (List.cons_ne_nil _ _)
    (fun x hx => by
      obtain rfl := Option.some.inj hx
      exact Int.le_refl _)
    (fun x hx => by
      obtain rfl := List.mem_singleton.mp hx
      exact hle (by omega))
  refine ⟨code, code', before, after, d.slots.length, hcode, hall, hinstead, ?_⟩
  obtain ⟨extra, hextra⟩ := slots_prefix_takeAll post d'
  show (d'.takeAll post).slots[d.slots.length]? = _
  rw [← hextra]
  exact getElem?_append (by rw [hslots, List.getElem?_concat_length]) extra

end Compile

/-- A minus sign and its operand are compiled to the code of the operand with a negation behind it,
in the place of the load of a variable, or to the load of the opposite of a literal. -/
theorem negation_in_place {text : String} {offset : Nat} {tally : Tally}
    (h : check text offset = .ok tally) {pre e post : List Lexeme}
    (hbody : Lexeme.ofBody text offset = pre ++ (.operator .minus :: e) ++ post)
    (hshallow : Lexeme.Shallow (Lexeme.ofBody text offset))
    (haimed : Lexeme.Aimed (Lexeme.ofBody text offset)) {t : Check.Stance}
    (ht : Check.Stance.Steps {} pre t) (hw : t.wantsOperand = true) (htied : ¬ Lexeme.Tied pre)
    (he : Lexeme.Operand e) (env : Environment) :
    let d := (Draft.start env).takeAll pre
    (Lexeme.BeginsNew d e → ∃ n text z isPair, e = Lexeme.wrapped n text z isPair) →
    let p := compile (Token.body text offset) env
    let alone := (d.bare.takeAll e).finish ""
    let d' := d.takeAll (.operator .minus :: e)
    ∃ code code' loads loads' negated operands, p.code = code ++ negated ++ code' ∧
      p.loads = loads ++ operands ++ loads' ∧
      (∀ i, ((d.instead d' i).takeAll post).finish p.text =
        { p with code := code ++ .load :: code', loads := loads ++ i :: loads' }) ∧
      (negated = alone.code ++ [.neg] ∧ operands = alone.loads ∧ alone.slots <+: p.slots ∨
        ∃ n text z isPair i, e = Lexeme.wrapped n text z isPair ∧ negated = [.load] ∧
          operands = [i] ∧ p.slots[i]? = some ⟨"-" ++ text, .constant, ⟨-z.x, -z.y⟩⟩) := by
  intro d hnew p alone d'
  obtain ⟨haccepted, hcompile⟩ := body_of_check h
  obtain ⟨formula, hcompile⟩ := hcompile env
  rw [hbody] at haccepted hshallow hcompile haimed
  rw [Draft.takeAll_append, Draft.takeAll_append] at hcompile
  have hsplit := List.append_assoc pre (.operator .minus :: e) post
  obtain ⟨t', hread⟩ := exists_reading (hsplit ▸ haccepted) (hsplit ▸ hshallow) env ht
  obtain ⟨u, ho, hrest⟩ := hread.split
  obtain ⟨t₁, hminus, hoperand⟩ := ho.cons
  have hsame : t₁.wantsOperand = true ∧ t₁.assignable = false := by
    obtain ⟨-, rfl⟩ := hminus
    exact ⟨rfl, rfl⟩
  have hd : d.wantsOperand = true := ho.course.wants_of ho.admits Bool.false_ne_true hw
  have htake : d.take (.operator .minus) = d.push .neg 2 := if_pos hd
  obtain ⟨hwu, hassign, hpasses, hno, htight⟩ := whole_operand he hoperand hsame.2
  rw [htake] at htight
  have hpasses' : Passes d d' := by
    have hd' : d' = (d.push .neg 2).takeAll e := congrArg (Draft.takeAll · e) htake
    rw [htake] at hpasses
    rw [hd']
    exact ⟨hpasses.parens, hpasses.assignments, hpasses.bar, hpasses.bars, hpasses.wantsOperand⟩
  have haimed' : AimedAfter False post :=
    aimedAfter_of_aimed haimed hrest.steps hassign ⟨.operator .minus, by simp, by simp, by simp⟩
  have hp : p = (d'.takeAll post).finish formula := hcompile
  rw [hp]
  by_cases hbegins : Lexeme.BeginsNew d e
  · obtain ⟨n, text, z, isPair, rfl⟩ := hnew hbegins
    have hspelled : (Lexeme.literal text z isPair).Spelled :=
      haccepted.spelled _ (by simp [Lexeme.wrapped])
    obtain ⟨code, code', loads, loads', i, hcode, hloads, hinstead, hslot⟩ :=
      folded_in_place formula ho hrest hw htied haimed' hwu hpasses' hbegins.slot hspelled
    exact ⟨code, code', loads, loads', [.load], [i], hcode, hloads, hinstead,
      .inr ⟨n, text, z, isPair, i, rfl, rfl, rfl, hslot⟩⟩
  · have hd' := takeAll_negated he hd hoperand hsame.1 hno hbegins
    have hpending : d'.pending = (d.bare.takeAll e).pending ++ ⟨some .neg, d.prec 2⟩ :: d.pending :=
      congrArg Draft.pending hd'
    have hloads : d'.loads = (d.bare.takeAll e).loads ++ d.loads := congrArg Draft.loads hd'
    have hslots : d'.slots = (d.bare.takeAll e).slots := (congrArg Draft.slots hd').trans rfl
    have htight' : ∀ x ∈ (d.bare.takeAll e).pending, x.prec < d.prec 2 := fun x hx =>
      (htight d.bare rfl x hx).resolve_left List.not_mem_nil
    obtain ⟨hslots, code, code', loads, loads', hcode, hloads, hinstead⟩ :=
      operator_in_place formula ho hrest hw id Bool.false_ne_true htied haimed' hwu hpasses' hpending
        hloads hslots htight'
    exact ⟨code, code', loads, loads', _, _, hcode, hloads, hinstead, .inl ⟨rfl, rfl, hslots⟩⟩

theorem negation_in_place_times : ∃ text tally, check text 0 = .ok tally ∧
    ∃ code code', (compile (Token.body text 0) ({} : Settings).environment).code =
      code ++ ([.load, .load, .add] ++ [.neg]) ++ code' := by
  let text := "z=c*-(p1+c)\x7d"
  have hstream : Token.stream (Cursor.seek text 0) = Token.firstTokens 13 (Cursor.seek text 0) :=
    Token.stream_eq_firstTokens (by decide +kernel)
  have hcheck : (check text 0).toOption.isSome = true := by
    rw [check, hstream]
    decide +kernel
  let pre : List Lexeme := [.name "z", .operator .assign, .name "c", .operator .star]
  let e : List Lexeme := [.leftParen, .name "p1", .operator .plus, .name "c", .rightParen]
  have hbody : Lexeme.ofBody text 0 = pre ++ .operator .minus :: e ++ [] := by
    rw [Lexeme.ofBody, hstream]
    decide +kernel
  have hshallow : Lexeme.Shallow (Lexeme.ofBody text 0) := by
    rw [hbody]
    exact Lexeme.shallow_of_count (by decide)
  have hpre : Check.Stance.Steps {} pre { fresh := false, assignable := false } :=
    .cons ⟨rfl, rfl⟩ (.cons ⟨rfl, rfl⟩ (.cons ⟨rfl, rfl⟩ (.cons ⟨rfl, rfl⟩ (.nil _))))
  have htied : ¬ Lexeme.Tied pre := Lexeme.not_tied rfl (by decide)
  have haimed : Lexeme.Aimed (Lexeme.ofBody text 0) := by
    rw [hbody]
    exact Lexeme.aimed_assignment "z" (by decide)
  have hclosed : Lexeme.Closed [.name "p1", .operator .plus, .name "c"] :=
    Lexeme.closed_of_not_mem (by decide) (by decide)
  have hplain {n : Nat} {text : String} {z : Complex Float} {isPair : Bool} {rest : List Lexeme} :
      e ≠ List.replicate n .leftParen ++ .literal text z isPair :: rest := by
    intro hsplit
    match n, hsplit with
    | 0, hsplit => cases (List.cons.inj hsplit).1
    | 1, hsplit => cases (List.cons.inj (List.cons.inj hsplit).2).1
    | n + 2, hsplit => cases (List.cons.inj (List.cons.inj hsplit).2).1
  cases h : check text 0 with
  | error e =>
    rw [h] at hcheck
    cases hcheck
  | ok tally =>
    obtain ⟨code, code', -, -, negated, operands, hcode, -, -, hnegated⟩ :=
      negation_in_place h hbody hshallow haimed hpre rfl htied (.group hclosed)
        ({} : Settings).environment fun ⟨n, text, z, isPair, rest, hsplit, _⟩ => absurd hsplit hplain
    rcases hnegated with ⟨rfl, -⟩ | ⟨n, text, z, isPair, i, hwrapped, -⟩
    · exact ⟨text, tally, h, code, code', hcode⟩
    · exact absurd hwrapped hplain

/-- The first literal of a group takes the sign away from it. -/
theorem exists_split_sum : ∃ text tally, check text 0 = .ok tally ∧
    (Token.body text 0).map (·.text) = ["z", "=", "-", "(", "2", "+", "z", ")", "\x7d"] ∧
    let p := compile (Token.body text 0) ({} : Settings).environment
    p.code = [.load, .load, .add, .store] ∧
      p.loads.map (fun i => (p.slots[i]?).map (·.name)) = [some "-2", some "z"] := by
  let text := "z=-(2+z)\x7d"
  have hstream : Token.stream (Cursor.seek text 0) = Token.firstTokens 10 (Cursor.seek text 0) :=
    Token.stream_eq_firstTokens (by decide +kernel)
  have hcheck : (check text 0).toOption.isSome = true := by
    rw [check, hstream]
    decide +kernel
  cases h : check text 0 with
  | error e =>
    rw [h] at hcheck
    cases hcheck
  | ok tally =>
    refine ⟨text, tally, h, ?_⟩
    rw [Token.body, hstream]
    decide +kernel

end FractalFormula
