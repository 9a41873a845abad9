/-
The bars that are open.

The check keeps a flag for each parenthesis, the compiler a stack of the depths at which bars were
opened.  As long as no flag is forgotten, the flags tell the stack (`openers`), and a bar closes one
for the check exactly if it does for the compiler (`Compile.Aligned`).
-/
import FractalFormula.Proofs.Footing
import FractalFormula.Proofs.Stance

namespace FractalFormula

open Compile

namespace Lexeme

/-- Parentheses are nested fewer than 64 deep, as deep as the check can tell. -/
def Shallow (ls : List Lexeme) : Prop :=
  ∀ pre, pre <+: ls → pre.count .leftParen < Nesting.depth + pre.count .rightParen

theorem shallow_of_count {ls : List Lexeme} (h : ls.count .leftParen < Nesting.depth) : Shallow ls :=
  fun _ hpre =>
    Nat.lt_add_right _ (Nat.lt_of_le_of_lt (hpre.sublist.count_le .leftParen) h)

end Lexeme

namespace Check.Stance

/-- For each level from the innermost on whether a bar is open in it. -/
def levels (t : Stance) : List Bool :=
  t.bars.flags ++ List.replicate (t.openParens + 1 - t.bars.flags.length) false

/-- There are no more flags than levels. -/
def Roomy (t : Stance) : Prop :=
  t.bars.flags.length ≤ t.openParens + 1

variable {t t' : Stance} {l : Lexeme}

theorem length_levels (h : t.Roomy) : t.levels.length = t.openParens + 1 := by
  have h : t.bars.flags.length ≤ t.openParens + 1 := h
  rw [levels, List.length_append, List.length_replicate]
  omega

theorem headD_levels (t : Stance) : t.levels.headD false = t.bars.isUp := by
  unfold levels Nesting.isUp
  cases t.bars.flags with
  | nil => rfl
  | cons f fs => rfl

theorem levels_ne_nil (h : t.Roomy) : t.levels ≠ [] := by
  intro hnil
  have hlength := length_levels h
  rw [hnil] at hlength
  exact Nat.noConfusion hlength

/-- The levels in terms of the innermost one. -/
theorem levels_eq_cons (h : t.Roomy) : t.levels = t.bars.isUp :: t.levels.tail := by
  have hhead := headD_levels t
  cases hlevels : t.levels with
  | nil => exact absurd hlevels (levels_ne_nil h)
  | cons f fs =>
    rw [hlevels] at hhead
    rw [← hhead]
    rfl

theorem levels_of_ends (h : t.Ends) (hroomy : t.Roomy) : t.levels = [false] := by
  obtain ⟨hopen, hup, -⟩ := h
  have hlength := length_levels hroomy
  rw [hopen] at hlength
  obtain ⟨f, hf⟩ := List.length_eq_one_iff.mp hlength
  have hdown : f = false := by
    have hmem : f ∈ t.levels := hf ▸ List.mem_singleton_self f
    rcases List.mem_append.mp hmem with hmem | hmem
    · have hall := List.any_eq_false.mp hup f hmem
      simpa using hall
    · exact List.eq_of_mem_replicate hmem
  rw [hf, hdown]

/-- What a lexeme does to the flags, unless it ends a statement. -/
inductive Shift : Stance → Stance → Lexeme → Prop
  | «open» {t t' : Stance} : t'.levels = false :: t.levels → t'.openParens = t.openParens + 1 →
    Shift t t' .leftParen
  | «close» {t t' : Stance} : t.levels = false :: t'.levels → t.openParens = t'.openParens + 1 →
    Shift t t' .rightParen
  | bar {t t' : Stance} : t'.levels = (!t.bars.isUp) :: t.levels.tail →
    t'.openParens = t.openParens → Shift t t' (.operator .modulus)
  | other {t t' : Stance} {l : Lexeme} : l ≠ .leftParen → l ≠ .rightParen →
    l ≠ .operator .modulus → t'.levels = t.levels → t'.openParens = t.openParens → Shift t t' l

theorem length_flags_enter (n : Nesting) (h : n.flags.length < Nesting.depth) :
    n.enter.flags = false :: n.flags := by
  show (false :: n.flags).take Nesting.depth = _
  exact List.take_of_length_le (by rw [List.length_cons]; omega)

theorem length_enter_le (h : t.Roomy) : t.bars.enter.flags.length ≤ t.openParens + 1 + 1 := by
  have hlength : t.bars.flags.length ≤ t.openParens + 1 := h
  show ((false :: t.bars.flags).take Nesting.depth).length ≤ t.openParens + 1 + 1
  rw [List.length_take, List.length_cons]
  omega

/-- Nothing is lost with a level that is forgotten if its flag is down. -/
theorem levels_enter (hroomy : t.Roomy) (hopen : t.openParens < parenLimit)
    (hlast : t.openParens + 1 < Nesting.depth ∨ t.levels.getLast? = some false) :
    t.bars.enter.flags ++ List.replicate (t.openParens + 1 + 1 - t.bars.enter.flags.length) false =
      false :: t.levels := by
  have hlength : t.bars.flags.length ≤ t.openParens + 1 := hroomy
  have hopen : t.openParens < 64 := hopen
  by_cases hfull : t.bars.flags.length < Nesting.depth
  · rw [length_flags_enter t.bars hfull, List.length_cons, Nat.add_sub_add_right, levels,
      List.cons_append]
  · have hdepth : Nesting.depth = 64 := rfl
    have hflags : t.levels = t.bars.flags := by
      rw [levels, show t.openParens + 1 - t.bars.flags.length = 0 by omega, List.replicate_zero,
        List.append_nil]
    have hdown : t.bars.flags.getLast? = some false := by
      rw [← hflags]
      exact hlast.resolve_left (by omega)
    obtain ⟨fs, hfs⟩ := List.getLast?_eq_some_iff.mp hdown
    have hlen : fs.length = 63 := by
      have := congrArg List.length hfs
      rw [List.length_append, List.length_singleton] at this
      omega
    have henter : t.bars.enter.flags = false :: fs := by
      show (false :: t.bars.flags).take 64 = _
      rw [hfs, ← List.cons_append]
      exact List.take_left' (by rw [List.length_cons, hlen])
    rw [henter, hflags, hfs, List.length_cons, hlen, show t.openParens = 63 by omega]
    rfl

theorem levels_leave (hopen : t.openParens ≠ 0) :
    t.bars.leave.flags ++
        List.replicate (t.openParens - 1 + 1 - t.bars.leave.flags.length) false =
      t.levels.tail := by
  unfold levels Nesting.leave
  dsimp only
  cases t.bars.flags with
  | nil =>
    rw [List.nil_append, List.tail_replicate, List.tail_nil, List.nil_append, List.length_nil]
    congr 1
    omega
  | cons f fs =>
    rw [List.cons_append, List.tail_cons, List.tail_cons, List.length_cons]
    congr 2
    omega

theorem levels_toggle (t : Stance) :
    t.bars.toggle.flags ++ List.replicate (t.openParens + 1 - t.bars.toggle.flags.length) false =
      (!t.bars.isUp) :: t.levels.tail := by
  unfold levels Nesting.toggle Nesting.set
  dsimp only
  cases hflags : t.bars.flags with
  | nil => simp [Nesting.isUp, hflags]
  | cons f fs => rfl

/-- A lexeme that ends no statement, and no level with a bar is forgotten. -/
theorem shift_of_kept (h : t.Step t' l) (hroomy : t.Roomy)
    (hkept : l = .leftParen → t.openParens + 1 < Nesting.depth ∨ t.levels.getLast? = some false)
    (hcomma : l ≠ .operator .comma) (hcolon : l ≠ .operator .colon) : Shift t t' l ∧ t'.Roomy := by
  have hlength : t.bars.flags.length ≤ t.openParens + 1 := hroomy
  have same (hbars : t'.bars = t.bars) (hopen : t'.openParens = t.openParens) :
      t'.levels = t.levels ∧ t'.Roomy := by
    refine ⟨?_, ?_⟩
    · rw [levels, hbars, hopen]
      rfl
    · rw [Roomy, hbars, hopen]
      exact hlength
  have other (h₁ : l ≠ .leftParen) (h₂ : l ≠ .rightParen) (h₃ : l ≠ .operator .modulus)
      (hbars : t'.bars = t.bars) (hopen : t'.openParens = t.openParens) :
      Shift t t' l ∧ t'.Roomy :=
    ⟨.other h₁ h₂ h₃ (same hbars hopen).1 hopen, (same hbars hopen).2⟩
  cases l with
  | leftParen =>
    obtain ⟨-, hopen, rfl⟩ := h
    exact ⟨.open (levels_enter hroomy hopen (hkept rfl)) rfl, length_enter_le hroomy⟩
  | rightParen =>
    obtain ⟨-, hopen, hup, rfl⟩ := h
    have hlevels := levels_eq_cons hroomy
    rw [hup, ← levels_leave hopen] at hlevels
    refine ⟨.close hlevels ?_, ?_⟩
    · show t.openParens = t.openParens - 1 + 1
      omega
    · show t.bars.flags.tail.length ≤ t.openParens - 1 + 1
      rw [List.length_tail]
      omega
  | operator o =>
    cases o with
    | comma => exact absurd rfl hcomma
    | colon => exact absurd rfl hcolon
    | modulus =>
      obtain ⟨-, rfl⟩ := h
      refine ⟨.bar (levels_toggle t) rfl, ?_⟩
      show ((!t.bars.isUp) :: t.bars.flags.tail).length ≤ t.openParens + 1
      rw [List.length_cons, List.length_tail]
      omega
    | assign | minus =>
      obtain ⟨-, rfl⟩ := h
      exact other nofun nofun nofun rfl rfl
    | _ =>
      obtain ⟨-, rfl⟩ := h
      exact other nofun nofun nofun rfl rfl
  | name | literal | call | flow | close =>
    obtain ⟨-, rfl⟩ := h
    exact other nofun nofun nofun rfl rfl
  | fault => exact h.elim

/-- A lexeme that ends no statement, fewer than 64 levels deep. -/
theorem shift_of_step (h : t.Step t' l) (hroomy : t.Roomy)
    (hshallow : t'.openParens < Nesting.depth) (hcomma : l ≠ .operator .comma)
    (hcolon : l ≠ .operator .colon) : Shift t t' l ∧ t'.Roomy := by
  refine shift_of_kept h hroomy (fun hl => .inl ?_) hcomma hcolon
  subst hl
  obtain ⟨-, -, rfl⟩ := h
  exact hshallow

theorem suffix_of_cons {R fs : List Bool} {f : Bool} (h : R <:+ f :: fs) (hR : R.length ≤ fs.length) :
    R <:+ fs := by
  rcases List.suffix_cons_iff.mp h with rfl | h
  · rw [List.length_cons] at hR
    omega
  · exact h

/-- What closes nothing of the outer levels `R` leaves them as they are. -/
theorem Shift.suffix (h : Shift t t' l) (hroomy : t.Roomy) {R : List Bool} (hR : R <:+ t.levels)
    (hdeep : l = .rightParen ∨ l = .operator .modulus → R.length ≤ t.openParens) :
    R <:+ t'.levels := by
  have hlength := length_levels hroomy
  cases h with
  | «open» hlevels _ =>
    rw [hlevels]
    exact hR.trans (List.suffix_cons _ _)
  | «close» hlevels hopen =>
    rw [hlevels] at hR hlength
    rw [List.length_cons] at hlength
    exact suffix_of_cons hR (by have := hdeep (.inl rfl); omega)
  | bar hlevels hopen =>
    rw [levels_eq_cons hroomy] at hR hlength
    rw [List.length_cons] at hlength
    rw [hlevels]
    exact (suffix_of_cons hR (by have := hdeep (.inr rfl); omega)).trans (List.suffix_cons _ _)
  | other _ _ _ hlevels _ =>
    rw [hlevels]
    exact hR

theorem openParens_of_steps {ls : List Lexeme} (h : t.Steps ls t') :
    t'.openParens + ls.count .rightParen = t.openParens + ls.count .leftParen := by
  induction h with
  | nil => rfl
  | cons hstep _ ih =>
    rename_i t t' t'' l ls _
    have hone : t'.openParens + [l].count .rightParen = t.openParens + [l].count .leftParen := by
      cases l with
      | leftParen =>
        obtain ⟨-, -, rfl⟩ := hstep
        rfl
      | rightParen =>
        obtain ⟨-, hopen, -, rfl⟩ := hstep
        show t.openParens - 1 + 1 = t.openParens
        omega
      | operator o =>
        cases o with
        | comma | colon =>
          obtain ⟨⟨hopen, -, -⟩, rfl⟩ := hstep
          exact hopen.symm
        | _ =>
          obtain ⟨-, rfl⟩ := hstep
          rfl
      | fault => exact hstep.elim
      | _ =>
        obtain ⟨-, rfl⟩ := hstep
        rfl
    rw [List.count_cons, List.count_cons]
    rw [List.count_singleton, List.count_singleton] at hone
    omega

end Check.Stance

namespace Compile

/-- Where the open bars stand that are told by flags, and the mark below all of them. -/
def openers : List Bool → List Int
  | [] => [noBar]
  | true :: fs => (fs.length + fs.count true : Nat) :: openers fs
  | false :: fs => openers fs

theorem openers_ne_nil (fs : List Bool) : openers fs ≠ [] := by
  induction fs with
  | nil => exact List.cons_ne_nil _ _
  | cons f fs ih =>
    cases f with
    | true => exact List.cons_ne_nil _ _
    | false => exact ih

/-- No bar stands as deep as the innermost level. -/
theorem lt_of_mem_openers {fs : List Bool} : ∀ x ∈ (openers fs).head?,
    x = noBar ∨ x + 2 ≤ (fs.length + fs.count true : Nat) := by
  induction fs with
  | nil =>
    intro x hx
    exact .inl (Option.some.inj hx).symm
  | cons f fs ih =>
    intro x hx
    cases f with
    | true =>
      obtain rfl := Option.some.inj hx
      right
      rw [List.length_cons, List.count_cons_self]
      omega
    | false =>
      refine (ih x hx).imp_right fun hle => ?_
      rw [List.length_cons, List.count_cons_of_ne Bool.false_ne_true]
      omega

/-- The check and the compiler agree about what is open. -/
structure Aligned (t : Check.Stance) (f : Footing) : Prop where
  roomy : t.Roomy
  parens : f.parens = (t.openParens + t.levels.count true : Nat)
  bars : f.bar :: f.bars = openers t.levels

namespace Aligned

variable {t t' : Check.Stance} {f : Footing} {l : Lexeme}

theorem start (env : Environment) : Aligned {} (Draft.start env).footing :=
  ⟨Nat.zero_le _, rfl, rfl⟩

/-- A bar closes one for the compiler if it does for the check. -/
theorem closes_iff (h : Aligned t f) (hshallow : t.openParens < Nesting.depth) :
    f.bar = f.parens - 1 ↔ t.bars.isUp = true := by
  have hlength := Check.Stance.length_levels h.roomy
  have hlevels := Check.Stance.levels_eq_cons h.roomy
  have hbars := h.bars
  have hparens := h.parens
  have hcount : t.levels.tail.count true ≤ t.levels.tail.length := List.count_le_length
  have htail : t.levels.tail.length = t.openParens := by
    rw [List.length_tail, hlength]
    rfl
  cases hup : t.bars.isUp with
  | true =>
    rw [hup] at hlevels
    rw [hlevels] at hbars hparens
    rw [List.count_cons_self] at hparens
    have hbar : f.bar = (t.levels.tail.length + t.levels.tail.count true : Nat) :=
      (List.cons.inj hbars).1
    exact iff_of_true (by omega) rfl
  | false =>
    rw [hup] at hlevels
    rw [hlevels] at hbars hparens
    rw [List.count_cons_of_ne Bool.false_ne_true] at hparens
    have hhead : f.bar ∈ (openers t.levels.tail).head? := by
      show f.bar ∈ (openers (false :: t.levels.tail)).head?
      rw [← hbars]
      rfl
    refine iff_of_false (fun hbar => ?_) Bool.false_ne_true
    have hdepth : Nesting.depth = 64 := rfl
    rcases lt_of_mem_openers f.bar hhead with hno | hlt
    · rw [noBar] at hno
      omega
    · omega

/-- The bars that are open at the end of a statement are none. -/
theorem ended (h : Aligned t f) (hends : t.Ends) (assignments : Int) (wants : Bool) :
    f.parens = 0 ∧ Aligned {} { f with parens := 0, assignments, wantsOperand := wants } := by
  have hlevels := Check.Stance.levels_of_ends hends h.roomy
  have hparens := h.parens
  have hbars := h.bars
  rw [hlevels] at hparens hbars
  rw [hends.1] at hparens
  exact ⟨hparens, Nat.zero_le _, rfl, hbars⟩

theorem comma (h : Aligned t f) (hends : t.Ends) : Aligned {} (f.after (.operator .comma)) := by
  have hended := h.ended hends
  unfold Footing.after
  dsimp only
  split
  · have hsame := (hended f.assignments f.wantsOperand).2
    rwa [← (hended 0 true).1] at hsame
  · exact (hended 0 true).2

theorem leftParen (h : Aligned t f) (hroomy : t'.Roomy) (hlevels : t'.levels = false :: t.levels)
    (hopen : t'.openParens = t.openParens + 1) : Aligned t' (f.after .leftParen) := by
  have hparens := h.parens
  refine ⟨hroomy, ?_, hlevels ▸ h.bars⟩
  show f.parens + 1 = _
  rw [hlevels, hopen, List.count_cons_of_ne Bool.false_ne_true]
  omega

theorem rightParen (h : Aligned t f) (hroomy : t'.Roomy) (hlevels : t.levels = false :: t'.levels)
    (hopen : t.openParens = t'.openParens + 1) : Aligned t' (f.after .rightParen) := by
  have hparens := h.parens
  have hbars := h.bars
  rw [hlevels] at hparens hbars
  rw [hopen, List.count_cons_of_ne Bool.false_ne_true] at hparens
  refine ⟨hroomy, ?_, hbars⟩
  show f.parens - 1 = _
  omega

/-- A bar that closes one takes the innermost opener away. -/
theorem closeBar (h : Aligned t f) (hshallow : t.openParens < Nesting.depth) (hroomy : t'.Roomy)
    (hup : t.bars.isUp = true) (hlevels' : t'.levels = false :: t.levels.tail)
    (hopen : t'.openParens = t.openParens) : Aligned t' (f.after (.operator .modulus)) := by
  have hparens := h.parens
  have hbars := h.bars
  have hlevels := Check.Stance.levels_eq_cons h.roomy
  rw [hup] at hlevels
  rw [hlevels] at hparens hbars
  rw [List.count_cons_self] at hparens
  have hrest : f.bars = openers t.levels.tail := (List.cons.inj hbars).2
  unfold Footing.after
  dsimp only
  rw [if_pos ((h.closes_iff hshallow).mpr hup)]
  refine ⟨hroomy, ?_, ?_⟩
  · rw [hlevels', hopen, List.count_cons_of_ne Bool.false_ne_true]
    show f.parens - 1 = _
    omega
  · rw [hlevels']
    show f.bars.headD noBar :: f.bars.tail = openers t.levels.tail
    cases hb : f.bars with
    | nil => exact absurd (hrest.symm.trans hb) (openers_ne_nil _)
    | cons x xs => rw [← hrest, hb]; rfl

/-- A bar that opens becomes the innermost opener. -/
theorem openBar (h : Aligned t f) (hshallow : t.openParens < Nesting.depth) (hroomy : t'.Roomy)
    (hup : t.bars.isUp = false) (hlevels' : t'.levels = true :: t.levels.tail)
    (hopen : t'.openParens = t.openParens) : Aligned t' (f.after (.operator .modulus)) := by
  have hparens := h.parens
  have hbars := h.bars
  have hlength := Check.Stance.length_levels h.roomy
  have hlevels := Check.Stance.levels_eq_cons h.roomy
  rw [hup] at hlevels
  rw [hlevels] at hparens hbars hlength
  rw [List.count_cons_of_ne Bool.false_ne_true] at hparens
  rw [List.length_cons] at hlength
  unfold Footing.after
  dsimp only
  rw [if_neg fun hbar => Bool.false_ne_true (hup.symm.trans ((h.closes_iff hshallow).mp hbar))]
  refine ⟨hroomy, ?_, ?_⟩
  · rw [hlevels', hopen, List.count_cons_self]
    show f.parens + 1 = _
    omega
  · rw [hlevels']
    show f.parens :: f.bar :: f.bars = (_ : Int) :: openers t.levels.tail
    have hopen' : t.openParens = t.levels.tail.length := by omega
    rw [hbars, hparens, hopen']
    rfl

/-- What is neither a parenthesis nor a bar opens and closes nothing, unless it ends a statement. -/
theorem other (h : Aligned t f) (hroomy : t'.Roomy) (hleft : l ≠ .leftParen)
    (hright : l ≠ .rightParen) (hbar : l ≠ .operator .modulus) (hcomma : l ≠ .operator .comma)
    (hcolon : l ≠ .operator .colon) (hlevels : t'.levels = t.levels)
    (hopen : t'.openParens = t.openParens) : Aligned t' (f.after l) := by
  have hsame : (f.after l).parens = f.parens ∧ (f.after l).bar = f.bar ∧
      (f.after l).bars = f.bars := by
    cases l with
    | leftParen => exact absurd rfl hleft
    | rightParen => exact absurd rfl hright
    | operator o =>
      cases o with
      | modulus => exact absurd rfl hbar
      | comma => exact absurd rfl hcomma
      | colon => exact absurd rfl hcolon
      | _ => exact ⟨rfl, rfl, rfl⟩
    | _ => exact ⟨rfl, rfl, rfl⟩
  obtain ⟨hp, hb, hbs⟩ := hsame
  refine ⟨hroomy, ?_, ?_⟩
  · rw [hp, hlevels, hopen, h.parens]
  · rw [hb, hbs, hlevels, h.bars]

theorem step (h : Aligned t f) (hstep : t.Step t' l) (hshallow : t.openParens < Nesting.depth)
    (hshallow' : t'.openParens < Nesting.depth) : Aligned t' (f.after l) := by
  by_cases hcomma : l = .operator .comma
  · subst hcomma
    obtain ⟨hends, rfl⟩ := hstep
    exact h.comma hends
  by_cases hcolon : l = .operator .colon
  · subst hcolon
    obtain ⟨hends, rfl⟩ := hstep
    exact (h.ended hends 0 true).2
  obtain ⟨hshift, hroomy⟩ := Check.Stance.shift_of_step hstep h.roomy hshallow' hcomma hcolon
  cases hshift with
  | «open» hlevels hopen => exact h.leftParen hroomy hlevels hopen
  | «close» hlevels hopen => exact h.rightParen hroomy hlevels hopen
  | bar hlevels hopen =>
    cases hup : t.bars.isUp with
    | true =>
      rw [hup] at hlevels
      exact h.closeBar hshallow hroomy hup hlevels hopen
    | false =>
      rw [hup] at hlevels
      exact h.openBar hshallow hroomy hup hlevels hopen
  | other hleft hright hbar hlevels hopen =>
    exact h.other hroomy hleft hright hbar hcomma hcolon hlevels hopen

end Aligned
end Compile
end FractalFormula
