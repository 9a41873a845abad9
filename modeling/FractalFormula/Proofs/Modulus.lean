/-
Moduli.

The compiler closes the bar that the check does (`Compile.pairs_of_check`).  What stands between two
bars is compiled on its own, its squared modulus taken right behind it, and all around it is compiled
as with a variable in its place (`modulus_in_place`): unless a `^` or a minus sign stands right before
the first bar, which bind as tight as the modulus and are carried out too early.
-/
import FractalFormula.Load.Formula
import FractalFormula.Proofs.Trail

namespace FractalFormula

open Compile

namespace Check

/-- For the check, which is at the stance `t`, the next bar and the one behind `e` are a pair: the
first raises the flag of its level, the second lowers it, and until then it stays up. -/
structure Pairs (t : Stance) (e : List Lexeme) : Prop where
  opens : t.bars.isUp = false
  inside : ∀ p u, p <+: e → t.Steps (.operator .modulus :: p) u → true :: t.levels.tail <:+ u.levels
  closes : ∀ u, t.Steps (.operator .modulus :: e) u → u.levels = true :: t.levels.tail

end Check

namespace Compile

/-- For the compiler the next bar of the draft `d` and the one behind `e` are a pair: the first puts
its level on the stack, the second takes it off, and until then it stays there. -/
structure Pairs (d : Draft) (e : List Lexeme) : Prop where
  opens : d.bar ≠ d.parens - 1
  inside : ∀ p, p <+: e → let d' := d.takeAll (.operator .modulus :: p)
    d.parens :: d.bar :: d.bars <:+ d'.bar :: d'.bars
  closes : let d' := d.takeAll (.operator .modulus :: e)
    d'.bar = d'.parens - 1 ∧ d'.bar :: d'.bars = d.parens :: d.bar :: d.bars

theorem openers_suffix {R fs : List Bool} (h : R <:+ fs) : openers R <:+ openers fs := by
  induction fs with
  | nil =>
    obtain rfl := List.suffix_nil.mp h
    exact List.suffix_refl _
  | cons f fs ih =>
    rcases List.suffix_cons_iff.mp h with rfl | hfs
    · exact List.suffix_refl _
    · cases f with
      | true => exact (ih hfs).trans (List.suffix_cons _ _)
      | false => exact ih hfs

variable {pre e : List Lexeme} {t t₁ t₂ t₃ : Check.Stance} {d : Draft}

/-- Between the bars of a pair no parenthesis and no bar closes anything from before. -/
theorem counts_of_pairs (h : Reading pre t d (.operator .modulus :: e) t₂) (hpairs : Check.Pairs t e)
    {p : List Lexeme} {l : Lexeme} (hl : l = .rightParen ∨ l = .operator .modulus)
    (hp : p ++ [l] <+: e) : p.count .rightParen < p.count .leftParen := by
  obtain ⟨q, rfl⟩ := hp
  have hsplit : .operator .modulus :: (p ++ [l] ++ q) = (.operator .modulus :: p) ++ l :: q := by
    rw [List.append_assoc]
    rfl
  have hroomy := h.course.aligned.roomy
  rw [hsplit] at h
  obtain ⟨u, hp, hrest⟩ := h.split
  obtain ⟨u', hstep, hrest'⟩ := hrest.cons
  have hpe : p <+: p ++ [l] ++ q := by
    rw [List.append_assoc]
    exact List.prefix_append _ _
  have hpl : t.Steps (.operator .modulus :: (p ++ [l])) u' := hp.steps.trans (.cons hstep (.nil u'))
  have hbehind := hpairs.inside (p ++ [l]) u' (List.prefix_append _ q) hpl
  have hroomy' := hrest.course.aligned.roomy
  have hcount := Check.Stance.openParens_of_steps hp.steps
  have hlength := Check.Stance.length_levels hroomy
  have hlength' := Check.Stance.length_levels hroomy'
  have htail : t.levels.tail.length = t.openParens := by
    rw [List.length_tail, hlength]
    rfl
  rw [List.count_cons_of_ne (by decide), List.count_cons_of_ne (by decide)] at hcount
  have hdeep : t.openParens + 1 < u.levels.length := by
    obtain ⟨hshift, -⟩ := Check.Stance.shift_of_step hstep hroomy' hrest'.openParens_lt.1
      (by rcases hl with rfl | rfl <;> decide) (by rcases hl with rfl | rfl <;> decide)
    rcases hl with rfl | rfl
    · cases hshift with
      | «close» hlevels _ =>
        have hle := hbehind.length_le
        rw [hlevels, List.length_cons]
        rw [List.length_cons, htail] at hle
        omega
      | other _ h _ _ _ => exact absurd rfl h
    · cases hshift with
      | bar hlevels _ =>
        -- a bar at the level of the pair would lower its flag
        have hinside := hpairs.inside p u hpe hp.steps
        have hu := Check.Stance.levels_eq_cons hroomy'
        have hlength'' := congrArg List.length hu
        have hle := hinside.length_le
        rw [List.length_cons, htail] at hle
        by_contra hnot
        have heq : true :: t.levels.tail = u.levels :=
          hinside.eq_of_length (by rw [List.length_cons, htail]; omega)
        have heq' : true :: t.levels.tail = u'.levels := hbehind.eq_of_length (by
          rw [hlevels, List.length_cons, List.length_cons, htail]
          rw [List.length_cons] at hlength''
          omega)
        have hup : true = u.bars.isUp := (List.cons.inj (heq.trans hu)).1
        have hdown : true = !u.bars.isUp := (List.cons.inj (heq'.trans hlevels)).1
        rw [← hup] at hdown
        cases hdown
      | other _ _ h _ _ => exact absurd rfl h
  omega

/-- A bar that comes where an operand is wanted opens one. -/
structure Opens (t t₁ : Check.Stance) (d : Draft) : Prop where
  raised : t₁.levels = true :: t.levels.tail
  assignable : t₁.assignable = false
  opens : d.bar ≠ d.parens - 1
  stack : openers t₁.levels = d.parens :: d.bar :: d.bars
  take : d.take (.operator .modulus) = { { d with bars := d.bar :: d.bars }.push .mod 2 with
    bar := d.parens, parens := d.parens + 1 }

theorem opens_of_step (h : Reading pre t d (.operator .modulus :: e) t₂)
    (hstep : t.Step t₁ (.operator .modulus)) (hup : t.bars.isUp = false) : Opens t t₁ d := by
  have haligned := h.course.aligned
  have hshallow := h.openParens_lt.1
  have hlevels := Check.Stance.levels_eq_cons haligned.roomy
  rw [hup] at hlevels
  have hsame : t₁.openParens = t.openParens ∧ t₁.assignable = false := by
    obtain ⟨-, rfl⟩ := hstep
    exact ⟨rfl, rfl⟩
  have hraised : t₁.levels = true :: t.levels.tail := by
    obtain ⟨hshift, -⟩ := Check.Stance.shift_of_step hstep haligned.roomy (hsame.1 ▸ hshallow)
      (by decide) (by decide)
    cases hshift with
    | bar hraised _ => rw [hraised, hup]; rfl
    | other _ _ h _ _ => exact absurd rfl h
  have hopens : d.bar ≠ d.parens - 1 := fun hbar =>
    Bool.false_ne_true (hup.symm.trans ((haligned.closes_iff hshallow).mp hbar))
  have hbars : d.bar :: d.bars = openers t.levels := haligned.bars
  have hparens : d.parens = (t.openParens + t.levels.count true : Nat) := haligned.parens
  have hlength := Check.Stance.length_levels haligned.roomy
  have htail : t.levels.tail.length = t.openParens := by
    rw [List.length_tail, hlength]
    rfl
  refine ⟨hraised, hsame.2, hopens, ?_, if_neg hopens⟩
  rw [hlevels, List.count_cons_of_ne Bool.false_ne_true, ← htail] at hparens
  rw [hlevels] at hbars
  rw [hraised, hbars, hparens]
  rfl

theorem encloses_of_pairs (h : Reading pre t d (.operator .modulus :: e) t₂)
    (hpairs : Check.Pairs t e) (hopen : t.Step t₁ (.operator .modulus))
    (he : Reading (pre ++ [.operator .modulus]) t₁ (d.take (.operator .modulus)) e t₂) :
    Encloses t₁.levels t₁ e := by
  have hopens := opens_of_step h hopen hpairs.opens
  have hlength : t₁.levels.length = t₁.openParens + 1 :=
    Check.Stance.length_levels he.course.aligned.roomy
  refine ⟨List.suffix_refl _, rfl, .inr (by rw [hopens.raised]; exact List.mem_cons_self),
    hopens.assignable, fun p hp => counts_of_pairs h hpairs (.inl rfl) hp, fun p hp => ?_⟩
  have := counts_of_pairs h hpairs (.inr rfl) hp
  omega

/-- The compiler takes the same bars for a pair as the check. -/
theorem pairs_of_check (h : Reading pre t d (.operator .modulus :: e) t₂)
    (hpairs : Check.Pairs t e) : Pairs d e := by
  obtain ⟨t₁, hopen, he⟩ := h.cons
  have hopens := opens_of_step h hopen hpairs.opens
  have hencloses := encloses_of_pairs h hpairs hopen he
  refine ⟨hopens.opens, ?_, ?_⟩
  · rintro p ⟨q, rfl⟩
    obtain ⟨u, hp, -⟩ := he.split
    have hsuffix := openers_suffix (hp.inside hencloses.of_append).levels
    rw [hopens.stack, ← hp.behind.aligned.bars] at hsuffix
    exact hsuffix
  · have hlevels := hpairs.closes t₂ h.steps
    have hup : t₂.bars.isUp = true := by
      rw [← Check.Stance.headD_levels, hlevels]
      rfl
    have hbars := h.behind.aligned.bars
    rw [hlevels, ← hopens.raised, hopens.stack] at hbars
    exact ⟨(h.behind.aligned.closes_iff h.openParens_lt.2).mpr hup, hbars⟩

/-- Between the bars everything is queued as on its own. -/
theorem takeAll_between (h : Reading pre t d (.operator .modulus :: e) t₂)
    (hpairs : Check.Pairs t e) :
    d.takeAll (.operator .modulus :: e) = ((d.take (.operator .modulus)).bare.takeAll e).onTop
      (⟨some .mod, d.prec 2⟩ :: d.pending) d.loads := by
  obtain ⟨t₁, hopen, he⟩ := h.cons
  have hopens := opens_of_step h hopen hpairs.opens
  have htake : d.take (.operator .modulus) =
      (d.take (.operator .modulus)).bare.onTop (⟨some .mod, d.prec 2⟩ :: d.pending) d.loads := by
    rw [hopens.take]
    rfl
  rw [← takeAll_onTop (fun _ p hp => ?_) (he.inside (encloses_of_pairs h hpairs hopen he)).noAssign,
    ← htake]
  · rfl
  · obtain rfl := Option.some.inj hp
    exact fun h => by cases h

/-- The second bar only closes. -/
theorem takeAll_modulus (h : Reading pre t d (.operator .modulus :: e) t₂) (hpairs : Check.Pairs t e)
    (hclose : t₂.Step t₃ (.operator .modulus)) :
    let between := (d.take (.operator .modulus)).bare.takeAll e
    let d' := d.takeAll (.operator .modulus :: e ++ [.operator .modulus])
    t₃.wantsOperand = false ∧ t₃.assignable = false ∧ Passes d d' ∧
      d'.pending = between.pending ++ ⟨some .mod, d.prec 2⟩ :: d.pending ∧
      d'.loads = between.loads ++ d.loads ∧ d'.slots = between.slots := by
  intro between d'
  let d₂ := d.takeAll (.operator .modulus :: e)
  obtain ⟨t₁, hopen, he⟩ := h.cons
  have hpair := pairs_of_check h hpairs
  have hopens := opens_of_step h hopen hpairs.opens
  have hinside := he.inside (encloses_of_pairs h hpairs hopen he)
  have hup : t₂.bars.isUp = true := by
    rw [← Check.Stance.headD_levels, hpairs.closes t₂ h.steps]
    rfl
  have hw : t₂.wantsOperand = false := by
    have hstep := hclose.1
    rw [hup] at hstep
    simpa using hstep.symm
  have hno : d₂.wantsOperand = false := Bool.eq_false_iff.mpr fun hwants =>
    Bool.noConfusion (hw.symm.trans (h.behind.agrees.wants hwants))
  have htake : d' = { d₂ with
      parens := d₂.parens - 1, bar := d₂.bars.headD noBar, bars := d₂.bars.tail } := by
    have hclosing : d₂.take (.operator .modulus) = _ := if_pos hpair.closes.1
    rw [← hclosing]
    exact Draft.takeAll_append ..
  have hstack : d₂.bar :: d₂.bars = d.parens :: d.bar :: d.bars := hpair.closes.2
  obtain ⟨hbar, hbars⟩ := List.cons.inj hstack
  have hparens : d₂.parens - 1 = d.parens := hpair.closes.1.symm.trans hbar
  have hassignments : d₂.assignments = d.assignments :=
    hinside.assignments.trans ((congrArg Draft.assignments hopens.take).trans rfl)
  have hsame : t₃.wantsOperand = false ∧ t₃.assignable = false := by
    obtain ⟨-, rfl⟩ := hclose
    exact ⟨hw, rfl⟩
  have hbetween : d₂ = between.onTop (⟨some .mod, d.prec 2⟩ :: d.pending) d.loads :=
    takeAll_between h hpairs
  rw [htake]
  refine ⟨hsame.1, hsame.2, ⟨hparens, hassignments, ?_, ?_, hno⟩, congrArg Draft.pending hbetween,
    congrArg Draft.loads hbetween, (congrArg Draft.slots hbetween).trans rfl⟩
  · show d₂.bars.headD noBar = d.bar
    rw [hbars]
    rfl
  · show d₂.bars.tail = d.bars
    rw [hbars]
    rfl

end Compile

/-- The bars that the check takes for a pair are one for the compiler.  Unless something as tight
stands right before them, the code is that of what stands between them, which is followed by the
squared modulus, in the place of the load of a variable. -/
theorem modulus_in_place {text : String} {offset : Nat} {tally : Tally}
    (h : check text offset = .ok tally) {pre e post : List Lexeme}
    (hbody : Lexeme.ofBody text offset =
      pre ++ (.operator .modulus :: e ++ [.operator .modulus]) ++ post)
    (hshallow : Lexeme.Shallow (Lexeme.ofBody text offset)) {t : Check.Stance}
    (ht : Check.Stance.Steps {} pre t) (hpairs : Check.Pairs t e) (env : Environment) :
    let d := (Draft.start env).takeAll pre
    Compile.Pairs d e ∧
      (¬ Lexeme.Tied pre → (∀ w, .flow w ∉ e) → Lexeme.Aimed (Lexeme.ofBody text offset) →
        let p := compile (Token.body text offset) env
        let between := ((d.take (.operator .modulus)).bare.takeAll e).finish ""
        let d' := d.takeAll (.operator .modulus :: e ++ [.operator .modulus])
        between.slots <+: p.slots ∧
        ∃ code code' loads loads', p.code = code ++ (between.code ++ [.mod]) ++ code' ∧
          p.loads = loads ++ between.loads ++ loads' ∧ ∀ i,
            ((d.instead d' i).takeAll post).finish p.text =
              { p with code := code ++ .load :: code', loads := loads ++ i :: loads' }) := by
  intro d
  obtain ⟨haccepted, hcompile⟩ := body_of_check h
  obtain ⟨formula, hcompile⟩ := hcompile env
  rw [hbody] at haccepted hshallow hcompile
  rw [List.append_assoc] at haccepted hshallow
  obtain ⟨t', hread⟩ := exists_reading haccepted hshallow env ht
  obtain ⟨t₃, ho, hrest⟩ := hread.split
  obtain ⟨t₂, hfirst, hlast⟩ := Reading.split (p := .operator .modulus :: e) ho
  obtain ⟨u, hclose, hend⟩ := hlast.cons
  cases hend.steps
  refine ⟨pairs_of_check hfirst hpairs, fun htied hflow haimed => ?_⟩
  obtain ⟨t₁, hopen, he⟩ := hfirst.cons
  have hopens := opens_of_step hfirst hopen hpairs.opens
  obtain ⟨hw₃, hassign₃, hpasses, hpending, hloads, hslots⟩ := takeAll_modulus hfirst hpairs hclose
  have hw : t.wantsOperand = true := by
    have hstep := hopen.1
    rw [hpairs.opens] at hstep
    simpa using hstep.symm
  have htight : ∀ x ∈ ((d.take (.operator .modulus)).bare.takeAll e).pending, x.prec < d.prec 2 := by
    intro x hx
    have hle := (he.prec_le (c := (d.take (.operator .modulus)).bare)
      (encloses_of_pairs hfirst hpairs hopen he) (.inr hflow) rfl x hx).resolve_left List.not_mem_nil
    have hdeeper : (d.take (.operator .modulus)).prec 7 =
        7 - (d.parens + 1 + d.assignments) * 15 := by
      rw [hopens.take]
      rfl
    rw [hdeeper] at hle
    show x.prec < 2 - (d.parens + d.assignments) * 15
    omega
  have haimed' : AimedAfter False post := aimedAfter_of_aimed (hbody ▸ haimed) hrest.steps hassign₃
    ⟨.operator .modulus, by simp, nofun, nofun⟩
  have hp : compile (Token.body text offset) env =
      ((d.takeAll (.operator .modulus :: e ++ [.operator .modulus])).takeAll post).finish
        formula := by
    rw [hcompile, Draft.takeAll_append, Draft.takeAll_append]
  rw [hp]
  exact operator_in_place formula ho hrest hw id Bool.false_ne_true htied haimed' hw₃ hpasses hpending
    hloads hslots htight

theorem modulus_in_place_times : ∃ text tally, check text 0 = .ok tally ∧
    ∃ code code', (compile (Token.body text 0) ({} : Settings).environment).code =
      code ++ ([.load, .load, .add] ++ [.mod]) ++ code' := by
  let text := "z=c*|p1+c|\x7d"
  have hstream : Token.stream (Cursor.seek text 0) = Token.firstTokens 13 (Cursor.seek text 0) :=
    Token.stream_eq_firstTokens (by decide +kernel)
  have hcheck : (check text 0).toOption.isSome = true := by
    rw [check, hstream]
    decide +kernel
  let pre : List Lexeme := [.name "z", .operator .assign, .name "c", .operator .star]
  let e : List Lexeme := [.name "p1", .operator .plus, .name "c"]
  have hbody : Lexeme.ofBody text 0 =
      pre ++ (.operator .modulus :: e ++ [.operator .modulus]) ++ [] := by
    rw [Lexeme.ofBody, hstream]
    decide +kernel
  have hshallow : Lexeme.Shallow (Lexeme.ofBody text 0) := by
    rw [hbody]
    exact Lexeme.shallow_of_count (by decide)
  have hpre : Check.Stance.Steps {} pre { fresh := false, assignable := false } :=
    .cons ⟨rfl, rfl⟩ (.cons ⟨rfl, rfl⟩ (.cons ⟨rfl, rfl⟩ (.cons ⟨rfl, rfl⟩ (.nil _))))
  have hpairs : Check.Pairs { fresh := false, assignable := false } e := by
    refine ⟨rfl, fun p u hp hu => ?_, fun u hu => ?_⟩
    · rcases List.prefix_cons_iff.mp hp with rfl | ⟨p₁, rfl, hp₁⟩
      · rw [hu.unique (.cons ⟨rfl, rfl⟩ (.nil _))]
        exact List.suffix_refl _
      rcases List.prefix_cons_iff.mp hp₁ with rfl | ⟨p₂, rfl, hp₂⟩
      · rw [hu.unique (.cons ⟨rfl, rfl⟩ (.cons ⟨rfl, rfl⟩ (.nil _)))]
        exact List.suffix_refl _
      rcases List.prefix_cons_iff.mp hp₂ with rfl | ⟨p₃, rfl, hp₃⟩
      · rw [hu.unique (.cons ⟨rfl, rfl⟩ (.cons ⟨rfl, rfl⟩ (.cons ⟨rfl, rfl⟩ (.nil _))))]
        exact List.suffix_refl _
      · obtain rfl := List.prefix_nil.mp hp₃
        rw [hu.unique (.cons ⟨rfl, rfl⟩ (.cons ⟨rfl, rfl⟩ (.cons ⟨rfl, rfl⟩
          (.cons ⟨rfl, rfl⟩ (.nil _)))))]
        exact List.suffix_refl _
    · rw [hu.unique (.cons ⟨rfl, rfl⟩ (.cons ⟨rfl, rfl⟩ (.cons ⟨rfl, rfl⟩
        (.cons ⟨rfl, rfl⟩ (.nil _)))))]
      rfl
  have htied : ¬ Lexeme.Tied pre := Lexeme.not_tied rfl (by decide)
  have haimed : Lexeme.Aimed (Lexeme.ofBody text 0) := by
    rw [hbody]
    exact Lexeme.aimed_assignment "z" (by decide)
  cases h : check text 0 with
  | error e =>
    rw [h] at hcheck
    cases hcheck
  | ok tally =>
    obtain ⟨-, hplace⟩ := modulus_in_place h hbody hshallow hpre hpairs ({} : Settings).environment
    obtain ⟨-, code, code', -, -, hcode, -⟩ := hplace htied (by simp [e]) haimed
    exact ⟨text, tally, h, code, code', hcode⟩

/-- Behind a `^` the modulus is taken of the power. -/
theorem exists_late_modulus : ∃ text text' tally, check text 0 = .ok tally ∧
    Lexeme.ofBody text 0 = [.name "z", .operator .assign, .name "z", .operator .caret] ++
      (.operator .modulus :: [.name "c"] ++ [.operator .modulus]) ∧
    Lexeme.ofBody text' 0 = [.name "z", .operator .assign, .name "z", .operator .caret] ++
      [.name "c"] ∧
    ¬ ∃ code code',
      (compile (Token.body text 0) ({} : Settings).environment).code =
        code ++ ([.load] ++ [.mod]) ++ code' ∧
      (compile (Token.body text' 0) ({} : Settings).environment).code =
        code ++ .load :: code' := by
  let text := "z=z^|c|\x7d"
  let text' := "z=z^c\x7d"
  have hstream : Token.stream (Cursor.seek text 0) = Token.firstTokens 10 (Cursor.seek text 0) :=
    Token.stream_eq_firstTokens (by decide +kernel)
  have hstream' : Token.stream (Cursor.seek text' 0) = Token.firstTokens 10 (Cursor.seek text' 0) :=
    Token.stream_eq_firstTokens (by decide +kernel)
  have hcheck : (check text 0).toOption.isSome = true := by
    rw [check, hstream]
    decide +kernel
  have hcode : (compile (Token.body text 0) ({} : Settings).environment).code =
      [.load, .pow, .load, .mod, .store] := by
    rw [Token.body, hstream]
    decide +kernel
  have hcode' : (compile (Token.body text' 0) ({} : Settings).environment).code =
      [.load, .load, .pow, .store] := by
    rw [Token.body, hstream']
    decide +kernel
  cases h : check text 0 with
  | error e =>
    rw [h] at hcheck
    cases hcheck
  | ok tally =>
    refine ⟨text, text', tally, h, ?_, ?_, ?_⟩
    · rw [Lexeme.ofBody, hstream]
      decide +kernel
    · rw [Lexeme.ofBody, hstream']
      decide +kernel
    · rintro ⟨code, code', hmod, hload⟩
      rw [hcode] at hmod
      rw [hcode'] at hload
      match code, hmod, hload with
      | [], hmod, _ => cases hmod
      | [_], hmod, _ => cases hmod
      | [_, _], hmod, hload => cases hmod; cases hload
      | [_, _, _], hmod, _ => cases hmod
      | [_, _, _, _], hmod, _ => cases hmod
      | _ :: _ :: _ :: _ :: _ :: _, hmod, _ => simp at hmod

end FractalFormula
