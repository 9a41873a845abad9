/-
Between two bars and between two parentheses.

Lexemes that close nothing which was opened before them stay as deep as they began
(`Compile.Inside`), so all they queue binds tighter than an operator around them.
-/
import FractalFormula.Proofs.Course

namespace FractalFormula

open Compile

namespace Check.Stance

variable {t t' : Stance} {l : Lexeme}

/-- What has begun in a statement goes on until the statement ends. -/
theorem Step.steady (h : t.Step t' l) (hcomma : l ≠ .operator .comma)
    (hcolon : l ≠ .operator .colon) :
    (t.assignable = false → t'.assignable = false) ∧ (t.fresh = false → t'.fresh = false) := by
  cases l with
  | leftParen =>
    obtain ⟨-, -, rfl⟩ := h
    exact ⟨fun _ => rfl, fun _ => rfl⟩
  | rightParen =>
    obtain ⟨-, -, -, rfl⟩ := h
    exact ⟨fun _ => rfl, fun _ => rfl⟩
  | name =>
    obtain ⟨-, rfl⟩ := h
    exact ⟨id, fun _ => rfl⟩
  | literal | call =>
    obtain ⟨-, rfl⟩ := h
    exact ⟨fun _ => rfl, fun _ => rfl⟩
  | flow =>
    obtain ⟨-, rfl⟩ := h
    exact ⟨fun _ => rfl, id⟩
  | operator o =>
    cases o with
    | comma => exact absurd rfl hcomma
    | colon => exact absurd rfl hcolon
    | assign =>
      obtain ⟨hassign, rfl⟩ := h
      exact ⟨id, id⟩
    | modulus | minus =>
      obtain ⟨-, rfl⟩ := h
      exact ⟨fun _ => rfl, id⟩
    | _ =>
      obtain ⟨-, rfl⟩ := h
      exact ⟨fun _ => rfl, id⟩
  | close =>
    obtain ⟨-, rfl⟩ := h
    exact ⟨id, id⟩
  | fault => exact h.elim

theorem ne_end_of_levels {R : List Bool} (hroomy : t.Roomy) (hR : R <:+ t.levels)
    (hopen : 0 < t.openParens ∨ true ∈ R) (h : t.Step t' l) :
    l ≠ .operator .comma ∧ l ≠ .operator .colon := by
  have hno : ¬ t.Ends := by
    intro hends
    rcases hopen with hopen | hup
    · have := hends.1
      omega
    · have hmem := hR.subset hup
      rw [levels_of_ends hends hroomy] at hmem
      exact Bool.noConfusion (List.mem_singleton.mp hmem)
  exact ⟨fun hl => hno (by subst hl; exact h.1), fun hl => hno (by subst hl; exact h.1)⟩

end Check.Stance

namespace Compile

/-- The lexemes `e` close nothing that is open before them, of which `R` are the levels that count. -/
structure Encloses (R : List Bool) (t : Check.Stance) (e : List Lexeme) : Prop where
  levels : R <:+ t.levels
  count : t.levels.count true = R.count true
  opened : 0 < t.openParens ∨ true ∈ R
  assignable : t.assignable = false
  rightParen : ∀ p, p ++ [.rightParen] <+: e → p.count .rightParen < p.count .leftParen
  bar : ∀ p, p ++ [.operator .modulus] <+: e →
    R.length + p.count .rightParen ≤ t.openParens + p.count .leftParen

theorem Encloses.of_append {R : List Bool} {t : Check.Stance} {p q : List Lexeme}
    (h : Encloses R t (p ++ q)) : Encloses R t p :=
  ⟨h.levels, h.count, h.opened, h.assignable,
    fun r hr => h.rightParen r (hr.trans (List.prefix_append p q)),
    fun r hr => h.bar r (hr.trans (List.prefix_append p q))⟩

/-- The lexemes `p` have led from the stance `t` and the draft `d` to the stance `u`.  The levels `R`
are as they were, no statement has ended and nothing has been assigned. -/
structure Inside (R : List Bool) (t : Check.Stance) (d : Draft) (p : List Lexeme) (u : Check.Stance) :
    Prop where
  levels : R <:+ u.levels
  openParens : t.openParens ≤ u.openParens
  assignable : u.assignable = false
  fresh : t.fresh = false → u.fresh = false
  assignments : (d.takeAll p).assignments = d.assignments
  noAssign : .operator .assign ∉ p

variable {pre e p : List Lexeme} {R : List Bool} {t t' u u' : Check.Stance} {c d : Draft} {l : Lexeme}

theorem Inside.step (h : Inside R t d p u) (hstep : u.Step u' l) (hroomy : u.Roomy)
    (hshallow : u'.openParens < Nesting.depth) (hends : l ≠ .operator .comma ∧ l ≠ .operator .colon)
    (hR : R.length ≤ t.openParens + 1) (hclose : l = .rightParen → t.openParens < u.openParens)
    (hbar : l = .operator .modulus → R.length ≤ u.openParens) : Inside R t d (p ++ [l]) u' := by
  have hassign : l ≠ .operator .assign := by
    rintro rfl
    exact Bool.noConfusion (h.assignable.symm.trans hstep.1)
  obtain ⟨hshift, -⟩ := Check.Stance.shift_of_step hstep hroomy hshallow hends.1 hends.2
  obtain ⟨hassignable, hfresh⟩ := hstep.steady hends.1 hends.2
  have hopenParens := h.openParens
  refine ⟨hshift.suffix hroomy h.levels ?_, ?_, hassignable h.assignable,
    fun hf => hfresh (h.fresh hf), ?_, ?_⟩
  · rintro (rfl | rfl)
    · have := hclose rfl
      omega
    · exact hbar rfl
  · cases hshift with
    | «open» _ hopens => omega
    | «close» _ hcloses =>
      have := hclose rfl
      omega
    | bar _ hsame => omega
    | other _ _ _ _ hsame => omega
  · rw [Draft.takeAll_append]
    have hsame : ((d.takeAll p).footing.after l).assignments = (d.takeAll p).assignments := by
      cases l with
      | operator o =>
        cases o with
        | comma => exact absurd rfl hends.1
        | colon => exact absurd rfl hends.2
        | assign => exact absurd rfl hassign
        | modulus =>
          unfold Footing.after
          dsimp only
          split <;> rfl
        | _ => rfl
      | _ => rfl
    exact (Course.footing_eq (d.takeAll p) l).2.trans (hsame.trans h.assignments)
  · intro hmem
    rcases List.mem_append.mp hmem with hmem | hmem
    · exact h.noAssign hmem
    · exact hassign (List.mem_singleton.mp hmem).symm

theorem Inside.ne_end (h : Inside R t d p u) (hopen : 0 < t.openParens ∨ true ∈ R) (hroomy : u.Roomy)
    (hstep : u.Step u' l) : l ≠ .operator .comma ∧ l ≠ .operator .colon :=
  Check.Stance.ne_end_of_levels hroomy h.levels
    (hopen.imp_left fun hpos => Nat.lt_of_lt_of_le hpos h.openParens) hstep

namespace Reading

/-- By induction from the end, as a prefix closes no more than the whole. -/
theorem inside (h : Reading pre t d e t') (he : Encloses R t e) : Inside R t d e t' := by
  induction e using List.reverseRecOn generalizing t' with
  | nil =>
    cases h.steps
    exact ⟨he.levels, Nat.le_refl _, he.assignable, id, rfl, List.not_mem_nil⟩
  | append_singleton p l ih =>
    obtain ⟨u, hp, hl⟩ := h.split
    obtain ⟨u', hstep, hnil⟩ := hl.cons
    cases hnil.steps
    have hinside := ih hp he.of_append
    have hroomy := hl.course.aligned.roomy
    have hcount := Check.Stance.openParens_of_steps hp.steps
    have hlength := Check.Stance.length_levels h.course.aligned.roomy
    have hR := he.levels.length_le
    refine hinside.step hstep hroomy h.openParens_lt.2 (hinside.ne_end he.opened hroomy hstep)
      (by omega) (fun hl => ?_) fun hl => ?_
    · subst hl
      have := he.rightParen p (List.prefix_refl _)
      omega
    · subst hl
      have := he.bar p (List.prefix_refl _)
      omega

/-- It ends at least as deep as it began. -/
theorem depth_le (h : Reading pre t d e t') (he : Encloses R t e) : d.depth ≤ (d.takeAll e).depth := by
  have hinside := h.inside he
  have hparens : d.parens = (t.openParens + t.levels.count true : Nat) := h.course.aligned.parens
  have hparens' : (d.takeAll e).parens = (t'.openParens + t'.levels.count true : Nat) :=
    h.behind.aligned.parens
  have hle : R.count true ≤ t'.levels.count true := hinside.levels.sublist.count_le true
  have hopen := hinside.openParens
  have hcount := he.count
  unfold Draft.depth
  rw [hinside.assignments, hparens, hparens']
  omega

end Reading

theorem footing_takeAll (ls : List Lexeme) : ∀ {c d : Draft}, c.footing = d.footing →
    (c.takeAll ls).footing = (d.takeAll ls).footing := by
  induction ls with
  | nil => exact id
  | cons l ls ih => exact fun h => ih (by rw [footing_take, footing_take, h])

theorem prec_eq (h : c.footing = d.footing) (base : Int) : c.prec base = d.prec base := by
  rw [Draft.prec, Draft.prec, show c.parens = d.parens from congrArg Footing.parens h,
    show c.assignments = d.assignments from congrArg Footing.assignments h]

/-- What the lexemes of an expression queue binds no looser than any operator where they began. -/
theorem Reading.prec_le (h : Reading pre t d e t') (he : Encloses R t e)
    (hflow : t.fresh = false ∨ ∀ w, .flow w ∉ e) (hc : c.footing = d.footing) :
    ∀ x ∈ (c.takeAll e).pending, x ∈ c.pending ∨ x.prec ≤ d.prec 7 := by
  induction e using List.reverseRecOn generalizing t' with
  | nil => exact fun x hx => .inl hx
  | append_singleton p l ih =>
    intro x hx
    obtain ⟨u, hp, hl⟩ := h.split
    obtain ⟨u', hstep, -⟩ := hl.cons
    have hinside := hp.inside he.of_append
    have hends := hinside.ne_end he.opened hl.course.aligned.roomy hstep
    have hnoflow : ∀ w, l ≠ .flow w := by
      rintro w rfl
      rcases hflow with hfresh | hno
      · exact Bool.noConfusion ((hinside.fresh hfresh).symm.trans hstep.1)
      · exact hno w (List.mem_append_right p (List.mem_singleton_self _))
    rw [Draft.takeAll_append] at hx
    have hx : x ∈ ((c.takeAll p).take l).pending := hx
    rw [pending_take] at hx
    rcases List.mem_append.mp hx with hx | hx
    · right
      have hle := prec_queued_le hnoflow hends.1 hends.2 x (List.mem_reverse.mp hx)
      rw [prec_eq (footing_takeAll p hc)] at hle
      exact Int.le_trans hle (Draft.prec_anti (hp.depth_le he.of_append) 7)
    · exact ih hp he.of_append (hflow.imp_right fun hno w hw => hno w (List.mem_append_left _ hw)) x
        ((kept_suffix _ l).subset hx)

end Compile
end FractalFormula
