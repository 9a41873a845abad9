/-
No draft stands below the ground.

The check forgets the outermost flag where 64 parentheses are open, so check and compiler may come to
disagree about a bar outside all parentheses, and a bar may even outlive its statement.  The flags
inside parentheses are never forgotten.  Bars between two parentheses come in pairs, and the second
undoes what the first has done whatever stands open outside (`Climb.toggle_toggle`), so what closes a
parenthesis always finds the level that it opened (`Check.Stance.Climbs`).
-/
import FractalFormula.Proofs.Course

namespace FractalFormula

open Compile

namespace Compile

/-- How high a footing is in parentheses and bars, and where its bars stand, the innermost first.
Below those that are listed are marks without end. -/
structure Climb where
  height : Int
  marks : Nat → Int

def Footing.climb (f : Footing) : Climb :=
  ⟨f.parens, fun i => (f.bar :: f.bars).getD i noBar⟩

namespace Climb

def up (c : Climb) : Climb :=
  { c with height := c.height + 1 }

/-- A bar goes back to the mark just below, or it leaves a mark. -/
def toggle (c : Climb) : Climb :=
  if c.marks 0 = c.height - 1 then ⟨c.height - 1, fun i => c.marks (i + 1)⟩
  else ⟨c.height + 1, fun i => match i with | 0 => c.height | i + 1 => c.marks i⟩

/-- No bar stands one level above the next. -/
structure Sound (c : Climb) : Prop where
  height : 0 ≤ c.height
  marks : ∀ i, 0 ≤ c.marks i
  apart : ∀ i, c.marks (i + 1) ≠ c.marks i - 1

variable {c : Climb}

theorem Sound.up (h : c.Sound) : c.up.Sound :=
  ⟨Int.le_add_one h.height, h.marks, h.apart⟩

theorem Sound.toggle (h : c.Sound) : c.toggle.Sound := by
  unfold Climb.toggle
  split
  · rename_i hmark
    have hzero := h.marks 0
    exact ⟨by simp only; omega, fun i => h.marks (i + 1), fun i => h.apart (i + 1)⟩
  · rename_i hmark
    refine ⟨Int.le_add_one h.height, fun i => ?_, fun i => ?_⟩
    · cases i with
      | zero => exact h.height
      | succ i => exact h.marks i
    · cases i with
      | zero => exact hmark
      | succ i => exact h.apart i

/-- A second bar undoes the first. -/
theorem toggle_toggle (h : c.Sound) : c.toggle.toggle = c := by
  obtain ⟨height, marks⟩ := c
  by_cases hmark : marks 0 = height - 1
  · have hone : (⟨height, marks⟩ : Climb).toggle = ⟨height - 1, fun i => marks (i + 1)⟩ :=
      if_pos hmark
    have hnext : ¬ marks (0 + 1) = height - 1 - 1 := by
      rw [← hmark]
      exact h.apart 0
    have htwo : (⟨height - 1, fun i => marks (i + 1)⟩ : Climb).toggle = _ := if_neg hnext
    rw [hone, htwo]
    congr 1
    · simp
    · funext i
      cases i with
      | zero => exact hmark.symm
      | succ i => rfl
  · let marks' (i : Nat) : Int := match i with | 0 => height | i + 1 => marks i
    have hone : (⟨height, marks⟩ : Climb).toggle = ⟨height + 1, marks'⟩ := if_neg hmark
    have htwo : (⟨height + 1, marks'⟩ : Climb).toggle = _ := if_pos (by simp [marks'])
    rw [hone, htwo]
    simp [marks']

end Climb

theorem climb_modulus (f : Footing) : (f.after (.operator .modulus)).climb = f.climb.toggle := by
  unfold Footing.after Climb.toggle
  have hzero : f.climb.marks 0 = f.bar := rfl
  have hheight : f.climb.height = f.parens := rfl
  rw [hzero, hheight]
  by_cases hbar : f.bar = f.parens - 1
  · simp only [hbar, if_true]
    unfold Footing.climb
    congr 1
    funext i
    cases f.bars with
    | nil => cases i <;> rfl
    | cons b bars => rfl
  · simp only [hbar, if_false]
    unfold Footing.climb
    congr 1
    funext i
    cases i <;> rfl

/-- Whatever neither opens nor closes anything and ends no statement. -/
theorem climb_after (f : Footing) {l : Lexeme} (hleft : l ≠ .leftParen) (hright : l ≠ .rightParen)
    (hmodulus : l ≠ .operator .modulus) (hcomma : l ≠ .operator .comma)
    (hcolon : l ≠ .operator .colon) :
    (f.after l).climb = f.climb ∧ f.assignments ≤ (f.after l).assignments := by
  cases l with
  | leftParen => exact absurd rfl hleft
  | rightParen => exact absurd rfl hright
  | operator o =>
    cases o with
    | comma => exact absurd rfl hcomma
    | colon => exact absurd rfl hcolon
    | modulus => exact absurd rfl hmodulus
    | assign => exact ⟨rfl, Int.le_add_one (Int.le_refl _)⟩
    | _ => exact ⟨rfl, Int.le_refl _⟩
  | _ => exact ⟨rfl, Int.le_refl _⟩

end Compile

namespace Check.Stance

/-- The levels in parentheses. -/
def innerLevels (t : Stance) : List Bool :=
  t.levels.dropLast

/-- A climb through levels that were opened and toggled as the flags say, from the ground or from a
bar that stands there. -/
def Climbs : List Bool → Climb → Prop
  | [], c => ∃ b : Climb, b.Sound ∧ b.height = 0 ∧ (c = b ∨ c = b.toggle)
  | false :: fs, c => ∃ b, Climbs fs b ∧ c = b.up
  | true :: fs, c => ∃ b, Climbs fs b ∧ c = b.up.toggle

theorem Climbs.sound {fs : List Bool} {c : Climb} (h : Climbs fs c) : c.Sound := by
  induction fs generalizing c with
  | nil =>
    obtain ⟨b, hb, -, rfl | rfl⟩ := h
    · exact hb
    · exact hb.toggle
  | cons f fs ih =>
    cases f with
    | true =>
      obtain ⟨b, hb, rfl⟩ := h
      exact (ih hb).up.toggle
    | false =>
      obtain ⟨b, hb, rfl⟩ := h
      exact (ih hb).up

/-- A bar inside a parenthesis. -/
theorem Climbs.toggle_cons {f : Bool} {fs : List Bool} {c : Climb} (h : Climbs (f :: fs) c) :
    Climbs ((!f) :: fs) c.toggle := by
  cases f with
  | false =>
    obtain ⟨b, hb, rfl⟩ := h
    exact ⟨b, hb, rfl⟩
  | true =>
    obtain ⟨b, hb, rfl⟩ := h
    exact ⟨b, hb, Climb.toggle_toggle hb.sound.up⟩

/-- A bar on the ground. -/
theorem Climbs.toggle_nil {c : Climb} (h : Climbs [] c) : Climbs [] c.toggle := by
  obtain ⟨b, hb, hzero, rfl | rfl⟩ := h
  · exact ⟨c, hb, hzero, .inr rfl⟩
  · exact ⟨b, hb, hzero, .inl (Climb.toggle_toggle hb)⟩

variable {t t' : Stance} {l : Lexeme} {f : Footing}

/-- Of the levels that are open a parenthesis makes the check forget the outermost at most. -/
theorem inner_enter (hroomy : t.Roomy) (hopen : t.openParens < parenLimit) :
    (t.bars.enter.flags ++
      List.replicate (t.openParens + 1 + 1 - t.bars.enter.flags.length) false).dropLast =
        false :: t.innerLevels := by
  have hlength : t.bars.flags.length ≤ t.openParens + 1 := hroomy
  have hopen : t.openParens < 64 := hopen
  have hdepth : Nesting.depth = 64 := rfl
  rw [innerLevels, ← List.dropLast_cons_of_ne_nil (levels_ne_nil hroomy)]
  by_cases hfull : t.bars.flags.length < Nesting.depth
  · rw [length_flags_enter t.bars hfull, List.length_cons, Nat.add_sub_add_right, levels,
      List.cons_append]
  · have hflags : t.levels = t.bars.flags := by
      rw [levels, show t.openParens + 1 - t.bars.flags.length = 0 by omega, List.replicate_zero,
        List.append_nil]
    have henter : t.bars.enter.flags = (false :: t.bars.flags).dropLast := by
      rw [List.dropLast_eq_take, List.length_cons, Nat.add_sub_cancel,
        show t.bars.flags.length = Nesting.depth by omega]
      rfl
    have hone : t.openParens + 1 + 1 - t.bars.enter.flags.length = 1 := by
      rw [henter, List.length_dropLast, List.length_cons]
      omega
    rw [hone, hflags, henter]
    exact List.dropLast_concat

end Check.Stance

namespace Compile

open Check.Stance

/-- A footing that the check has climbed to. -/
structure Climbed (t : Check.Stance) (f : Footing) : Prop where
  roomy : t.Roomy
  climbs : Climbs t.innerLevels f.climb
  assignments : 0 ≤ f.assignments

namespace Climbed

variable {t t' : Check.Stance} {f : Footing} {l : Lexeme}

theorem start (env : Environment) : Climbed {} (Draft.start env).footing := by
  have hmark (i : Nat) : (Draft.start env).footing.climb.marks i = noBar := by
    cases i <;> rfl
  have hsound : (Draft.start env).footing.climb.Sound := by
    refine ⟨Int.le_refl 0, fun i => ?_, fun i => ?_⟩
    · rw [hmark]
      decide
    · rw [hmark, hmark]
      decide
  exact ⟨Nat.zero_le _, ⟨_, hsound, rfl, .inl rfl⟩, Int.le_refl 0⟩

theorem depth_nonneg {d : Draft} (h : Climbed t d.footing) : 0 ≤ d.depth :=
  Int.add_nonneg h.climbs.sound.height h.assignments

/-- What is left of a statement that has ended. -/
theorem ended (h : Climbed t f) (hends : t.Ends) (wants : Bool) :
    Climbed {} f ∧ Climbed {} { f with parens := 0, assignments := 0, wantsOperand := wants } := by
  have hclimbs := h.climbs
  rw [innerLevels, levels_of_ends hends h.roomy] at hclimbs
  have hsound := hclimbs.sound
  refine ⟨⟨Nat.zero_le _, hclimbs, h.assignments⟩, Nat.zero_le _, ?_, Int.le_refl 0⟩
  exact ⟨⟨0, f.climb.marks⟩, ⟨Int.le_refl 0, hsound.marks, hsound.apart⟩, rfl, .inl rfl⟩

theorem step (h : Climbed t f) (hstep : t.Step t' l) : Climbed t' (f.after l) := by
  by_cases hopen : l = .leftParen
  · subst hopen
    obtain ⟨-, hlimit, rfl⟩ := hstep
    have hroomy := h.roomy
    refine ⟨length_enter_le hroomy, ?_, h.assignments⟩
    have hinner := inner_enter hroomy hlimit
    rw [innerLevels, levels, hinner]
    exact ⟨f.climb, h.climbs, rfl⟩
  by_cases hcomma : l = .operator .comma
  · subst hcomma
    obtain ⟨hends, rfl⟩ := hstep
    unfold Footing.after
    dsimp only
    split
    · exact (h.ended hends true).1
    · exact (h.ended hends true).2
  by_cases hcolon : l = .operator .colon
  · subst hcolon
    obtain ⟨hends, rfl⟩ := hstep
    exact (h.ended hends true).2
  obtain ⟨hshift, hroomy⟩ := shift_of_kept hstep h.roomy (fun hl => absurd hl hopen) hcomma hcolon
  have hclimbs := h.climbs
  cases hshift with
  | «open» => exact absurd rfl hopen
  | «close» hlevels _ =>
    rw [innerLevels, hlevels, List.dropLast_cons_of_ne_nil (levels_ne_nil hroomy)] at hclimbs
    obtain ⟨b, hb, hup⟩ := hclimbs
    refine ⟨hroomy, ?_, h.assignments⟩
    have hdown : (f.after .rightParen).climb = b := by
      show ({ f.climb with height := f.climb.height - 1 } : Climb) = b
      rw [hup, Climb.up, Int.add_sub_cancel]
    rwa [hdown]
  | bar hlevels hopen' =>
    have hassign : (f.after (.operator .modulus)).assignments = f.assignments := by
      unfold Footing.after
      dsimp only
      split <;> rfl
    refine ⟨hroomy, ?_, by rw [hassign]; exact h.assignments⟩
    have hcons := levels_eq_cons h.roomy
    rw [climb_modulus, innerLevels, hlevels]
    rw [innerLevels, hcons] at hclimbs
    cases htail : t.levels.tail with
    | nil =>
      rw [htail] at hclimbs
      exact hclimbs.toggle_nil
    | cons b fs =>
      rw [htail, List.dropLast_cons_of_ne_nil (List.cons_ne_nil _ _)] at hclimbs
      rw [List.dropLast_cons_of_ne_nil (List.cons_ne_nil _ _)]
      exact hclimbs.toggle_cons
  | other hleft hright hmodulus hlevels _ =>
    obtain ⟨hclimb, hassign⟩ := climb_after f hleft hright hmodulus hcomma hcolon
    refine ⟨hroomy, ?_, Int.le_trans h.assignments hassign⟩
    rwa [hclimb, innerLevels, hlevels]

end Climbed

/-- Nothing that is queued over accepted lexemes binds less tight than the end of a statement. -/
theorem capped_takeAll {ls : List Lexeme} {t t' : Check.Stance} {d : Draft} (h : Climbed t d.footing)
    (hcapped : ∀ p ∈ d.pending, p.prec ≤ level) (hsteps : t.Steps ls t') :
    ∀ p ∈ (d.takeAll ls).pending, p.prec ≤ level := by
  induction ls generalizing t d with
  | nil => exact hcapped
  | cons l ls ih =>
    cases hsteps with
    | cons hstep hsteps =>
      refine ih (t := _) (d := d.take l) ?_ (fun p hp => ?_) hsteps
      · rw [footing_take]
        exact h.step hstep
      · rw [pending_take] at hp
        rcases List.mem_append.mp hp with hp | hp
        · exact prec_queued_le_level h.depth_nonneg l p (List.mem_reverse.mp hp)
        · exact hcapped p ((kept_suffix d l).subset hp)

end Compile
end FractalFormula
