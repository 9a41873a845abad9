/-
What comes behind an operand.

Once an operand is complete, what is queued for it and before it is not touched any more, and what
comes next binds no tighter than an operator in its place (`Compile.Trail`).  So the rest of a body
does the same whether the operand is an expression or a variable (`Compile.replace_operand`).
-/
import FractalFormula.Proofs.Enclosed
import FractalFormula.Proofs.Operands

namespace FractalFormula

open Compile

namespace Compile

/-- The draft `c` has what was queued behind an operand that stood in a place of depth `n`.  Its
first operator stays, and it has the precedence `m` at least. -/
inductive Trail (m n : Int) (t : Check.Stance) (c : Draft) : Prop
  | bare : c.pending = [] → t.wantsOperand = false → t.fresh = false → c.depth ≤ n → Trail m n t c
  | based (ps : List (Pending Opcode)) (b : Pending Opcode) : c.pending = ps ++ [b] →
    m ≤ b.prec → (ps = [] → b.op ≠ some .neg ∧ b.op ≠ some .load) → Trail m n t c

namespace Trail

variable {m n : Int} {t t' : Check.Stance} {c : Draft} {l : Lexeme}

theorem head_of_name {pre : List Lexeme} (h : ∃ a v, pre = a ++ [.name v]) (c : Draft) :
    (∃ prec rest, (c.takeAll pre).pending = ⟨some .load, prec⟩ :: rest) ∧
      (c.takeAll pre).loads ≠ [] := by
  obtain ⟨a, v, rfl⟩ := h
  rw [Draft.takeAll_append]
  refine ⟨⟨_, _, pending_name (c.takeAll a) v⟩, ?_⟩
  show ((c.takeAll a).useVariable v).loads ≠ []
  exact List.cons_ne_nil _ _

/-- An operator between two operands that comes first, no deeper than the operand. -/
theorem of_infix {d : Draft} {op : Opcode} {base : Int} (hdepth : d.depth ≤ n)
    (hm : m ≤ 2 - n * level) (hpending : c.pending = [⟨some op, d.prec base⟩]) (hbase : 2 ≤ base)
    (hop : (op == .neg || op == .load) = false) : Trail m n t c := by
  refine .based [] _ hpending ?_ fun _ => ⟨?_, ?_⟩
  · show m ≤ base - (d.parens + d.assignments) * level
    have hlevel : level = 15 := rfl
    unfold Draft.depth at hdepth
    rw [hlevel] at hm ⊢
    omega
  · rintro ⟨⟩
    cases hop
  · rintro ⟨⟩
    cases hop

/-- A marker that comes first. -/
theorem of_marker {op : Opcode} (hn : 0 ≤ n) (hm : m ≤ 2 - n * level)
    (hpending : c.pending = [⟨some op, separatorPrec⟩, ⟨none, level⟩]) : Trail m n t c := by
  refine .based [⟨some op, separatorPrec⟩] _ hpending ?_ nofun
  show m ≤ level
  have hlevel : level = 15 := rfl
  rw [hlevel] at hm ⊢
  omega

/-- The first operator behind an operand. -/
theorem take_bare (hpending : c.pending = []) (hw : t.wantsOperand = false)
    (hfresh : t.fresh = false) (hdepth : c.depth ≤ n) (hn : 0 ≤ n) (hm : m ≤ 2 - n * level)
    (hstep : t.Step t' l) (hassign : l ≠ .operator .assign) (hend : l.isEnd = false)
    (hwants : c.wantsOperand = false) (hcloses : t.bars.isUp = true → c.bar = c.parens - 1) :
    Trail m n t' (c.take l) := by
  cases l with
  | leftParen | name | literal | call => exact Bool.noConfusion (hw.symm.trans hstep.1)
  | rightParen =>
    obtain ⟨-, -, -, rfl⟩ := hstep
    refine .bare hpending hw rfl ?_
    show c.parens - 1 + c.assignments ≤ n
    unfold Draft.depth at hdepth
    omega
  | flow => exact Bool.noConfusion (hfresh.symm.trans hstep.1)
  | operator o =>
    cases o with
    | assign => exact absurd rfl hassign
    | comma =>
      have htake : c.take (.operator .comma) = c.endStatement .clear :=
        if_neg fun h => Bool.noConfusion (hwants.symm.trans h)
      have hmarker : (c.take (.operator .comma)).pending =
          [⟨some .clear, separatorPrec⟩, ⟨none, level⟩] := by
        rw [htake]
        exact congrArg ([_, _] ++ ·) hpending
      exact of_marker hn hm hmarker
    | colon => exact of_marker hn hm (congrArg ([_, _] ++ ·) hpending)
    | modulus =>
      have hbar : c.bar = c.parens - 1 := hcloses (by rw [hstep.1, hw]; rfl)
      obtain ⟨-, rfl⟩ := hstep
      have htake : c.take (.operator .modulus) = _ := if_pos hbar
      rw [htake]
      refine .bare hpending hw hfresh ?_
      show c.parens - 1 + c.assignments ≤ n
      unfold Draft.depth at hdepth
      omega
    | minus =>
      have htake : c.take (.operator .minus) = c.infixOperator .sub 4 :=
        if_neg fun h => Bool.noConfusion (hwants.symm.trans h)
      have hsub : (c.take (.operator .minus)).pending = [⟨some .sub, c.prec 4⟩] := by
        rw [htake]
        exact congrArg _ hpending
      exact of_infix hdepth hm hsub (by decide) rfl
    | _ => exact of_infix hdepth hm (congrArg _ hpending) (by decide) rfl
  | close => cases hend
  | fault => exact hstep.elim

theorem take_based {ps : List (Pending Opcode)} {b : Pending Opcode}
    (hpending : c.pending = ps ++ [b]) (hm : m ≤ b.prec)
    (hb : ps = [] → b.op ≠ some .neg ∧ b.op ≠ some .load)
    (hassign : l = .operator .assign → ∃ prec rest, c.pending = ⟨some .load, prec⟩ :: rest) :
    Trail m n t' (c.take l) := by
  -- what is taken away stands above `b`, and something takes its place
  have popped {op : Opcode} {prec : Int} {rest : List (Pending Opcode)} (q : Pending Opcode)
      (hop : op = .neg ∨ op = .load) (hhead : c.pending = ⟨some op, prec⟩ :: rest)
      (htake : (c.take l).pending = q :: c.pending.tail) : Trail m n t' (c.take l) := by
    cases ps with
    | nil =>
      obtain ⟨hneg, hload⟩ := hb rfl
      obtain ⟨rfl, -⟩ := List.cons.inj (hhead.symm.trans hpending)
      rcases hop with rfl | rfl
      · exact absurd rfl hneg
      · exact absurd rfl hload
    | cons p ps =>
      refine .based (q :: ps) b ?_ hm nofun
      rw [htake, hpending]
      rfl
  by_cases hl : l = .operator .assign
  · obtain ⟨prec, rest, hhead⟩ := hassign hl
    subst hl
    refine popped ⟨some .store, c.prec 5⟩ (.inr rfl) hhead ?_
    show c.assign.pending = _
    rw [Draft.assign, hhead]
    rfl
  · have htake := pending_take c l
    rw [kept_of_ne hl] at htake
    by_cases hsign : l.takesSign c = true
    · obtain ⟨prec, rest, hhead⟩ := head_of_takesSign hsign
      rw [if_pos hsign] at htake
      cases l with
      | literal text value isPair => exact popped _ (.inl rfl) hhead htake
      | _ => cases hsign
    · rw [if_neg hsign, hpending, ← List.append_assoc] at htake
      exact .based _ b htake hm fun hnil => hb (List.append_eq_nil_iff.mp hnil).2

/-- As long as nothing is pending, no operand has come. -/
theorem wants_of_nil (h : Trail m n t c) (hnil : c.pending = []) : t.wantsOperand = false := by
  cases h with
  | bare _ hw => exact hw
  | based ps b hbased =>
    rw [hbased] at hnil
    exact absurd hnil (by simp)

/-- What was queued first binds no tighter than an operator in the place of the operand. -/
theorem le_prec (h : Trail m n t c) : ∀ b ∈ c.pending.getLast?, m ≤ b.prec := by
  intro b hb
  cases h with
  | bare hnil =>
    rw [hnil] at hb
    cases hb
  | based ps b' hbased hm =>
    rw [hbased, List.getLast?_concat] at hb
    obtain rfl := Option.some.inj hb
    exact hm

end Trail

/-- Behind something that cannot be assigned to, no assignment comes without a variable of its
own. -/
theorem aimedAfter_of_aimed {pre post : List Lexeme} {t t' : Check.Stance}
    (h : Lexeme.Aimed (pre ++ post)) (hsteps : t.Steps post t') (hassign : t.assignable = false)
    (hpre : ∃ l ∈ pre, l ≠ .operator .comma ∧ l ≠ .operator .assign) : AimedAfter False post := by
  rintro a b rfl
  left
  rcases h (pre ++ a) b (by rw [List.append_assoc]) with ⟨x, v, hx⟩ | hall
  · rcases List.eq_nil_or_concat a with rfl | ⟨a, l, rfl⟩
    · cases hsteps with
      | cons hstep _ => exact Bool.noConfusion (hassign.symm.trans hstep.1)
    · rw [List.concat_eq_append, ← List.append_assoc] at hx
      obtain ⟨-, hl⟩ := List.append_inj' hx rfl
      obtain rfl := (List.cons.inj hl).1
      exact ⟨a, v, List.concat_eq_append⟩
  · obtain ⟨l, hl, hcomma, hno⟩ := hpre
    rcases hall l (List.mem_append_left a hl) with rfl | rfl
    · exact absurd rfl hcomma
    · exact absurd rfl hno

/-- What an assignment stands behind. -/
theorem name_of_assign {post : List Lexeme} (haimed : AimedAfter False (post ++ [.operator .assign])) :
    ∃ a v, post = a ++ [.name v] :=
  (haimed post [] rfl).resolve_right fun hidle => hidle.1

variable {pre post : List Lexeme} {t t' : Check.Stance} {c d : Draft}

namespace Reading

theorem trail (h : Reading pre t d post t') (haimed : AimedAfter False post)
    (hc : c.footing = d.footing) (hpending : c.pending = []) (hw : t.wantsOperand = false) :
    Trail (d.prec 2) d.depth t' (c.takeAll post) := by
  induction post using List.reverseRecOn generalizing t' with
  | nil =>
    cases h.steps
    have hfresh : t.fresh = false := Bool.eq_false_iff.mpr fun hfresh =>
      Bool.noConfusion (hw.symm.trans (h.course.agrees.fresh hfresh))
    have hdepth : c.depth ≤ d.depth := by
      show c.footing.parens + c.footing.assignments ≤ _
      rw [hc]
      exact Int.le_refl _
    exact .bare hpending hw hfresh hdepth
  | append_singleton p l ih =>
    obtain ⟨u, hp, hl⟩ := h.split
    obtain ⟨u', hstep, hend⟩ := hl.cons
    cases hend.steps
    have htrail := ih hp haimed.of_append
    have hfooting := footing_takeAll p hc
    rw [Draft.takeAll_append]
    show Trail _ _ t' ((c.takeAll p).take l)
    cases htrail with
    | bare hnil hw hfresh hdepth =>
      have hno : (d.takeAll p).wantsOperand = false := Bool.eq_false_iff.mpr fun hwants =>
        Bool.noConfusion (hw.symm.trans (hl.course.agrees.wants hwants))
      refine Trail.take_bare hnil hw hfresh hdepth h.course.depth_nonneg (Int.le_refl _) hstep
        (fun hassign => ?_) (hl.inner l List.mem_cons_self) ?_ fun hup => ?_
      · subst hassign
        obtain ⟨⟨prec, rest, hhead⟩, -⟩ := Trail.head_of_name (name_of_assign haimed) c
        rw [hhead] at hnil
        cases hnil
      · exact (congrArg Footing.wantsOperand hfooting).trans hno
      · have hcloses := (hl.course.aligned.closes_iff hl.openParens_lt.1).mpr hup
        rwa [← hfooting] at hcloses
    | based ps b hbased hm hb =>
      refine Trail.take_based hbased hm hb fun hassign => ?_
      subst hassign
      exact (Trail.head_of_name (name_of_assign haimed) c).1

/-- What is below an operand does not matter to what comes behind it. -/
theorem takeAll_onTop (h : Reading pre t d post t') (haimed : AimedAfter False post)
    (hc : c.footing = d.footing) (hpending : c.pending = []) (hw : t.wantsOperand = false)
    (below : List (Pending Opcode)) (loads : List Nat) :
    (c.onTop below loads).takeAll post = (c.takeAll post).onTop below loads := by
  induction post using List.reverseRecOn generalizing t' with
  | nil => rfl
  | append_singleton p l ih =>
    obtain ⟨u, hp, hl⟩ := h.split
    obtain ⟨u', hstep, -⟩ := hl.cons
    rw [Draft.takeAll_append, Draft.takeAll_append, ih hp haimed.of_append]
    refine take_onTop (fun hnil => ?_) fun hassign => ?_
    · have hno := (hp.trail haimed.of_append hc hpending hw).wants_of_nil hnil
      cases l with
      | literal => exact Bool.noConfusion (hno.symm.trans hstep.1)
      | _ => rfl
    · subst hassign
      obtain ⟨⟨prec, rest, hhead⟩, hloads⟩ := Trail.head_of_name (name_of_assign haimed) c
      exact ⟨by rw [hhead]; exact List.cons_ne_nil _ _, hloads⟩

end Reading

/-! ## An operand replaced -/

/-- The draft `after`, had a variable in slot `i` stood in the place of all that was read since
`before`. -/
def Draft.instead (before after : Draft) (i : Nat) : Draft :=
  { after with pending := before.pending, loads := before.loads }.load i 1

theorem finish_onTop (c : Draft) (below : List (Pending Opcode)) (loads : List Nat)
    (formula : String) :
    (c.onTop below loads).finish formula = { c.finish formula with
      code := Pending.linearize (below.reverse ++ c.pending.reverse)
      loads := loads.reverse ++ c.loads.reverse } := by
  unfold Draft.finish Draft.onTop
  simp only [List.reverse_append]

/-- An operand whose operators bind as tight as a variable's would is compiled in one piece, and
around it everything is as with a variable in its place. -/
theorem replace_operand {o : List Lexeme} (queue : List (Pending Opcode)) (loads : List Nat)
    (formula : String) {low : Int} (h : Reading (pre ++ o) t (d.takeAll o) post t')
    (haimed : AimedAfter False post) (hw : t.wantsOperand = false) (hpasses : Passes d (d.takeAll o))
    (hpending : (d.takeAll o).pending = queue.reverse ++ d.pending)
    (hloads : (d.takeAll o).loads = loads.reverse ++ d.loads)
    (hyields : Pending.Yields low (d.prec 2) d.pending.reverse) (hlow : low ≤ d.prec 1)
    (hne : queue ≠ []) (hhead : ∀ x ∈ queue.head?, low ≤ x.prec)
    (hqueue : ∀ x ∈ queue, x.prec ≤ d.prec 2) :
    let p := ((d.takeAll o).takeAll post).finish formula
    ∃ code code' before after, p.code = code ++ Pending.linearize queue ++ code' ∧
      p.loads = before ++ loads ++ after ∧ ∀ i,
        ((d.instead (d.takeAll o) i).takeAll post).finish formula =
          { p with code := code ++ .load :: code', loads := before ++ i :: after } := by
  intro p
  let c := (d.takeAll o).bare
  have htrail := h.trail (c := c) haimed rfl rfl hw
  have hframe := h.takeAll_onTop (c := c) haimed rfl rfl hw
  have hprec (base : Int) : (d.takeAll o).prec base = d.prec base := by
    rw [Draft.prec, Draft.prec, hpasses.parens, hpasses.assignments]
  have hys : ∀ b ∈ (c.takeAll post).pending.reverse.head?, d.prec 2 ≤ b.prec := by
    rw [List.head?_reverse, ← hprec]
    exact htrail.le_prec
  obtain ⟨code, code', hreplace⟩ := Pending.linearize_replace hyields hys
  have hp : p = ((c.takeAll post).onTop (d.takeAll o).pending (d.takeAll o).loads).finish formula :=
    congrArg (·.finish formula) (hframe (d.takeAll o).pending (d.takeAll o).loads)
  have hinstead (i : Nat) : d.instead (d.takeAll o) i =
      c.onTop (⟨some .load, d.prec 1⟩ :: d.pending) (i :: d.loads) := by
    rw [← hprec]
    rfl
  rw [finish_onTop, hpending, hloads, List.reverse_append, List.reverse_append, List.reverse_reverse,
    List.reverse_reverse] at hp
  refine ⟨code, code', d.loads.reverse, (c.takeAll post).loads.reverse, ?_, ?_, fun i => ?_⟩
  · rw [hp]
    exact hreplace queue hne hqueue hhead
  · rw [hp]
  · have hcode := hreplace [⟨some .load, d.prec 1⟩] (List.cons_ne_nil _ _)
      (fun x hx => by
        obtain rfl := List.mem_singleton.mp hx
        show 1 - _ ≤ 2 - _
        omega)
      (fun x hx => by
        obtain rfl := Option.some.inj hx
        exact hlow)
    have hone : Pending.linearize [(⟨some .load, d.prec 1⟩ : Pending Opcode)] = [.load] := rfl
    rw [hone, List.append_assoc code] at hcode
    rw [hinstead, hframe, finish_onTop, List.reverse_cons, List.reverse_cons, hcode, hp,
      List.append_assoc d.loads.reverse]
    rfl

/-- So is an operator before an operand, with what is queued for the operand on its own. -/
theorem operator_in_place {o : List Lexeme} {l : Lexeme} {u : Check.Stance} {inner : Draft}
    {op : Opcode} (formula : String) (h : Reading pre t d (l :: o) u)
    (hrest : Reading (pre ++ l :: o) u (d.takeAll (l :: o)) post t') (hw : t.wantsOperand = true)
    (hbrackets : ¬ l.Brackets) (hseparates : ¬ l.Separates) (htied : ¬ Lexeme.Tied pre)
    (haimed : AimedAfter False post) (hwu : u.wantsOperand = false)
    (hpasses : Passes d (d.takeAll (l :: o)))
    (hpending : (d.takeAll (l :: o)).pending = inner.pending ++ ⟨some op, d.prec 2⟩ :: d.pending)
    (hloads : (d.takeAll (l :: o)).loads = inner.loads ++ d.loads)
    (hslots : (d.takeAll (l :: o)).slots = inner.slots)
    (htight : ∀ x ∈ inner.pending, x.prec < d.prec 2) :
    let p := ((d.takeAll (l :: o)).takeAll post).finish formula
    let alone := inner.finish ""
    alone.slots <+: p.slots ∧ ∃ code code' before after, p.code = code ++ (alone.code ++ [op]) ++ code' ∧
      p.loads = before ++ alone.loads ++ after ∧ ∀ i,
        ((d.instead (d.takeAll (l :: o)) i).takeAll post).finish formula =
          { p with code := code ++ .load :: code', loads := before ++ i :: after } := by
  have hyields := h.yields hbrackets hseparates hw htied
    (h.course.separatorPrec_le h.openParens_lt.1 1 (by decide))
  have hlow : d.prec 1 ≤ d.prec 2 := by
    show 1 - (d.parens + d.assignments) * 15 ≤ 2 - (d.parens + d.assignments) * 15
    omega
  have hreplaced := replace_operand (⟨some op, d.prec 2⟩ :: inner.pending.reverse)
    inner.loads.reverse formula hrest haimed hwu hpasses
    (by rw [hpending, List.reverse_cons, List.reverse_reverse, List.append_assoc]; rfl)
    (by rw [hloads, List.reverse_reverse]) hyields (Int.le_refl _) (List.cons_ne_nil _ _)
    (fun x hx => by
      obtain rfl := Option.some.inj hx
      exact hlow)
    (fun x hx => by
      rcases List.mem_cons.mp hx with rfl | hx
      · exact Int.le_refl _
      · exact Int.le_of_lt (htight x (List.mem_reverse.mp hx)))
  rw [Pending.linearize_cons fun x hx => htight x (List.mem_reverse.mp hx)] at hreplaced
  refine ⟨?_, hreplaced⟩
  show inner.slots <+: ((d.takeAll (l :: o)).takeAll post).slots
  rw [← hslots]
  exact slots_prefix_takeAll post _

end Compile
end FractalFormula
