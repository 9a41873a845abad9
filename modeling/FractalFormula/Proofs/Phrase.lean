/-
Expressions that have not ended.

While an expression is read, some parentheses and bars stand open, and behind the last of them there
is an expression or one that lacks an operand.  `Lexeme.Opens` says so of the part up to the last of
them, with one flag for each level of parentheses, and `Check.Phrase` says that the flags of the
check are these: what a run of the check over the lexemes of an expression leaves open is what they
open.
-/
import FractalFormula.Proofs.Acceptance
import FractalFormula.Proofs.Bars

namespace FractalFormula

/-! ## Lexemes outside parentheses -/

namespace Lexeme

/-- The lexemes outside all parentheses, the first of them inside `n`. -/
def outside : Nat → List Lexeme → List Lexeme
  | _, [] => []
  | n, .leftParen :: ls => outside (n + 1) ls
  | n, .rightParen :: ls => outside (n - 1) ls
  | 0, l :: ls => l :: outside 0 ls
  | n + 1, _ :: ls => outside (n + 1) ls

/-- No bar is open outside all parentheses where 64 of them are. -/
def Remembered (ls : List Lexeme) : Prop :=
  ∀ pre, pre <+: ls → pre.count .leftParen = pre.count .rightParen + Nesting.depth →
    (outside 0 pre).count (.operator .modulus) % 2 = 0

theorem remembered_of_count {ls : List Lexeme} (h : ls.count .leftParen < Nesting.depth) :
    Remembered ls := by
  intro pre hpre hdepth
  have hle := hpre.sublist.count_le .leftParen
  omega

end Lexeme

namespace Check.Stance

open Lexeme

variable {t t' : Stance} {l : Lexeme}

/-- What one lexeme adds to those outside parentheses. -/
theorem outside_of_step (h : t.Step t' l) (ls : List Lexeme) :
    outside t.openParens (l :: ls) = outside t.openParens [l] ++ outside t'.openParens ls := by
  have plain (hl : l ≠ .leftParen ∧ l ≠ .rightParen) (hopen : t'.openParens = t.openParens) :
      outside t.openParens (l :: ls) = outside t.openParens [l] ++ outside t'.openParens ls := by
    rw [hopen]
    obtain ⟨hleft, hright⟩ := hl
    cases t.openParens <;> cases l <;> simp_all [outside]
  cases l with
  | leftParen =>
    obtain ⟨-, -, rfl⟩ := h
    simp [outside]
  | rightParen =>
    obtain ⟨-, -, -, rfl⟩ := h
    simp [outside]
  | operator o =>
    cases o with
    | comma | colon =>
      obtain ⟨⟨hopen, -, -⟩, rfl⟩ := h
      exact plain ⟨nofun, nofun⟩ hopen.symm
    | _ =>
      obtain ⟨-, rfl⟩ := h
      exact plain ⟨nofun, nofun⟩ rfl
  | fault => exact h.elim
  | _ =>
    obtain ⟨-, rfl⟩ := h
    exact plain ⟨nofun, nofun⟩ rfl

theorem outside_of_steps {a : List Lexeme} (h : t.Steps a t') (b : List Lexeme) :
    outside t.openParens (a ++ b) = outside t.openParens a ++ outside t'.openParens b := by
  induction h with
  | nil => simp [outside]
  | cons hstep _ ih =>
    rw [List.cons_append, outside_of_step hstep, ih, ← List.append_assoc, ← outside_of_step hstep]

end Check.Stance

/-! ## Parts of expressions -/

/-- What may come right after a lexeme: after a function something in parentheses, and after a `^`
nothing that begins with a minus sign. -/
def Expr.Follows : Option Lexeme → Expr → Prop
  | some (.call _), e => e.isBracketed = true
  | some (.operator .caret), e => e.startsMinus = false
  | _, _ => True

theorem Expr.follows_of {e : Expr} {k : Option Lexeme}
    (hcall : ∀ f, k = some (.call f) → e.isBracketed = true)
    (hcaret : k = some (.operator .caret) → e.startsMinus = false) : e.Follows k := by
  unfold Follows
  split
  · exact hcall _ rfl
  · exact hcaret rfl
  · trivial

namespace Lexeme

/-- An expression, without a bar outside parentheses if it stands between bars itself. -/
def Complete (barred : Bool) (q : List Lexeme) : Prop :=
  ∃ e : Expr, e.Legible ∧ e.lexemes = q ∧ (barred = true → e.hasBar = false)

/-- Whatever may come next makes it an expression. -/
def Lacks (barred : Bool) (q : List Lexeme) : Prop :=
  ∀ e : Expr, e.Legible → e.Follows q.getLast? → (barred = true → e.hasBar = false) →
    Complete barred (q ++ e.lexemes)

variable {barred : Bool} {q : List Lexeme}

theorem lacks_nil (barred : Bool) : Lacks barred [] :=
  fun e he _ hbar => ⟨e, he, rfl, hbar⟩

theorem Lacks.minus (h : Lacks barred q) (hfollows : ∀ e, (Expr.minus e).Follows q.getLast?) :
    Lacks barred (q ++ [.operator .minus]) := by
  intro e he _ hbar
  rw [List.append_assoc]
  exact h (.minus e) he (hfollows e) hbar

theorem Lacks.call {f : Func} (h : Lacks barred q)
    (hfollows : ∀ e, (Expr.call f e).Follows q.getLast?) : Lacks barred (q ++ [.call f]) := by
  intro e he hbracketed hbar
  rw [List.getLast?_concat] at hbracketed
  rw [List.append_assoc]
  exact h (.call f e) ⟨hbracketed, he⟩ (hfollows e) hbar

theorem Complete.infix (h : Complete barred q) (o : Infix) :
    Lacks barred (q ++ [.operator o.operator]) := by
  obtain ⟨l, hl, rfl, hlbar⟩ := h
  intro e he hfollows hbar
  rw [List.getLast?_concat] at hfollows
  refine ⟨.binary o l e, ⟨fun ho => ?_, hl, he⟩, by simp [Expr.lexemes], fun hb => ?_⟩
  · subst ho
    exact hfollows
  · simp [Expr.hasBar, hlbar hb, hbar hb]

/-- What is open at the end of `p`, which is an opening parenthesis or bar: a flag for each level of
parentheses from the innermost on says whether a bar is open in it. -/
inductive Opens : List Lexeme → List Bool → Prop
  | nil : Opens [] [false]
  | paren {p q : List Lexeme} {b : Bool} {fs : List Bool} : Opens p (b :: fs) → Lacks b q →
    Opens (p ++ q ++ [.leftParen]) (false :: b :: fs)
  | bar {p q : List Lexeme} {fs : List Bool} : Opens p (false :: fs) → Lacks false q →
    (∀ e, (Expr.modulus e).Follows q.getLast?) →
    Opens (p ++ q ++ [.operator .modulus]) (true :: fs)

variable {p : List Lexeme} {fs : List Bool}

theorem Opens.closeParen {b : Bool} (h : Opens p (false :: b :: fs)) (hq : Complete false q) :
    ∃ p' q', p ++ q ++ [.rightParen] = p' ++ q' ∧ Opens p' (b :: fs) ∧ Complete b q' := by
  obtain ⟨e, he, rfl, -⟩ := hq
  cases h with
  | paren hp hq' =>
    rename_i p q
    have hfollows : (Expr.group e).Follows q.getLast? :=
      Expr.follows_of (fun _ _ => rfl) fun _ => rfl
    refine ⟨p, q ++ (Expr.group e).lexemes, by simp [Expr.lexemes], hp, ?_⟩
    exact hq' (.group e) he hfollows fun _ => rfl

theorem Opens.closeBar (h : Opens p (true :: fs)) (hq : Complete true q) :
    ∃ p' q', p ++ q ++ [.operator .modulus] = p' ++ q' ∧ Opens p' (false :: fs) ∧
      Complete false q' := by
  obtain ⟨e, he, rfl, hbar⟩ := hq
  cases h with
  | bar hp hq' hfollows =>
    rename_i p q
    refine ⟨p, q ++ (Expr.modulus e).lexemes, by simp [Expr.lexemes], hp, ?_⟩
    exact hq' (.modulus e) ⟨hbar rfl, he⟩ (hfollows e) fun h => absurd h Bool.false_ne_true

/-- A lexeme of an expression. -/
def Expresses : Lexeme → Prop
  | .flow _ | .operator .comma | .operator .colon | .operator .assign | .close | .fault _ => False
  | _ => True

end Lexeme

/-! ## Reading an expression -/

namespace Check

open Lexeme Stance

/-- What the check has read since the last thing that is open: something that lacks an operand, if
it wants one, and an expression otherwise. -/
def Stance.Rests (t : Stance) (q : List Lexeme) : Prop :=
  if t.wantsOperand then Lacks t.bars.isUp q else Complete t.bars.isUp q

namespace Stance

variable {t : Stance} {q : List Lexeme}

theorem Rests.lacks (h : t.Rests q) (hw : t.wantsOperand = true) : Lacks t.bars.isUp q := by
  rwa [Rests, if_pos hw] at h

theorem Rests.complete (h : t.Rests q) (hw : t.wantsOperand = false) :
    Complete t.bars.isUp q := by
  rwa [Rests, if_neg (Bool.eq_false_iff.mp hw)] at h

theorem rests_of_lacks (hw : t.wantsOperand = true) (h : Lacks t.bars.isUp q) : t.Rests q := by
  rwa [Rests, if_pos hw]

theorem rests_of_complete (hw : t.wantsOperand = false) (h : Complete t.bars.isUp q) :
    t.Rests q := by
  rwa [Rests, if_neg (Bool.eq_false_iff.mp hw)]

end Stance

/-- The check stands in `t` after the lexemes `ls` of an expression. -/
structure Phrase (ls : List Lexeme) (t : Stance) : Prop where
  roomy : t.Roomy
  /-- Whether a bar is open outside all parentheses. -/
  outer : t.levels.getLast? = some (decide ((outside 0 ls).count (.operator .modulus) % 2 = 1))
  parts : ∃ p q, ls = p ++ q ∧ Opens p t.levels ∧ t.Rests q
  caret : ls.getLast? = some (.operator .caret) → t.afterCaret = true

namespace Phrase

variable {ls : List Lexeme} {t t' : Stance} {l : Lexeme}

theorem getLast?_cons_of_ne_nil {f : Bool} {fs : List Bool} (h : fs ≠ []) :
    (f :: fs).getLast? = fs.getLast? := by
  obtain ⟨g, gs, rfl⟩ := List.exists_cons_of_ne_nil h
  exact List.getLast?_cons_cons

/-- Only a bar outside all parentheses changes the flag of the outermost level. -/
theorem outer_step (hshift : Shift t t' l) (hroomy : t.Roomy) (hroomy' : t'.Roomy) {n : Nat}
    (h : t.levels.getLast? = some (decide (n % 2 = 1))) :
    t'.levels.getLast? =
      some (decide ((n + (outside t.openParens [l]).count (.operator .modulus)) % 2 = 1)) := by
  cases hshift with
  | «open» hlevels _ =>
    rw [hlevels, getLast?_cons_of_ne_nil (levels_ne_nil hroomy), h]
    rfl
  | «close» hlevels _ =>
    rw [hlevels, getLast?_cons_of_ne_nil (levels_ne_nil hroomy')] at h
    rw [h]
    rfl
  | bar hlevels _ =>
    have hcons := levels_eq_cons hroomy
    have hlength := length_levels hroomy
    rw [hlevels]
    rw [hcons] at h hlength
    cases htail : t.levels.tail with
    | nil =>
      rw [htail] at h hlength
      have hopen : t.openParens = 0 := by simpa using hlength.symm
      have hup : t.bars.isUp = decide (n % 2 = 1) := Option.some.inj h
      rw [hopen, hup]
      show some (!decide (n % 2 = 1)) = some (decide ((n + 1) % 2 = 1))
      rcases Nat.mod_two_eq_zero_or_one n with hn | hn <;> simp [Nat.add_mod, hn]
    | cons f fs =>
      rw [htail] at h hlength
      obtain ⟨m, hopen⟩ : ∃ m, t.openParens = m + 1 := ⟨fs.length, by simpa using hlength.symm⟩
      rw [List.getLast?_cons_cons] at h ⊢
      rw [h, hopen]
      rfl
  | other h₁ h₂ h₃ hlevels _ =>
    have hnone : (outside t.openParens [l]).count (.operator .modulus) = 0 := by
      cases t.openParens <;> cases l <;> simp_all [outside]
    rw [hlevels, h, hnone, Nat.add_zero]

/-- What the check forgets where 64 parentheses are open is no bar. -/
theorem kept_of_remembered (h : t.Steps ls t') (hopen : t.openParens = 0)
    (hkept : Remembered (ls ++ [.leftParen]))
    (houter : t'.levels.getLast? =
      some (decide ((outside 0 ls).count (.operator .modulus) % 2 = 1)))
    (hlimit : t'.openParens < parenLimit) :
    t'.openParens + 1 < Nesting.depth ∨ t'.levels.getLast? = some false := by
  have hlimit : t'.openParens < 64 := hlimit
  have hdepth : Nesting.depth = 64 := rfl
  have hcount := openParens_of_steps h
  by_cases hdeep : t'.openParens + 1 < Nesting.depth
  · exact .inl hdeep
  · have heven := hkept (ls ++ [.leftParen]) (List.prefix_refl _) (by
      simp only [List.count_append, List.count_singleton]
      rw [hopen] at hcount
      simp
      omega)
    have hsame := outside_of_steps h [.leftParen]
    rw [hopen] at hsame
    rw [hsame, List.count_append] at heven
    right
    rw [houter]
    simp only [outside, List.count_nil, Nat.add_zero] at heven
    simp [heven]

theorem start (hlevels : t.levels = [false]) (hbars : t.bars = .flat) (hw : t.wantsOperand = true) :
    Phrase [] t := by
  refine ⟨?_, by simp [hlevels, outside], ⟨[], [], rfl, hlevels ▸ .nil, ?_⟩, nofun⟩
  · rw [Stance.Roomy, hbars]
    exact Nat.zero_le _
  · exact rests_of_lacks hw (lacks_nil _)

/-- What may come behind the last lexeme, if `l` may. -/
theorem follows (h : Phrase ls t) (hstep : t.Step t' l) (hadmits : ∀ k ∈ ls.getLast?, k.Admits l)
    {p q : List Lexeme} (hsplit : ls = p ++ q) {e : Expr}
    (hbrackets : l.Brackets → e.isBracketed = true)
    (hminus : l ≠ .operator .minus → e.startsMinus = false) : e.Follows q.getLast? := by
  have hlast {k : Lexeme} (hk : q.getLast? = some k) : ls.getLast? = some k := by
    rw [hsplit, List.getLast?_append, hk]
    rfl
  refine Expr.follows_of (fun f hf => hbrackets (hadmits _ (hlast hf))) fun hcaret => hminus ?_
  rintro rfl
  exact Bool.false_ne_true (hstep.1.symm.trans (h.caret (hlast hcaret)))

/-- A bar opens what lacks everything, or it closes an expression. -/
theorem parts_modulus {p q : List Lexeme} (hstep : t.Step t' (.operator .modulus))
    (hlevels : t'.levels = (!t.bars.isUp) :: t.levels.tail)
    (hopens : Opens p (t.bars.isUp :: t.levels.tail)) (hq : t.Rests q)
    (hfollows : ∀ e, (Expr.modulus e).Follows q.getLast?) :
    ∃ p' q', p ++ q ++ [.operator .modulus] = p' ++ q' ∧ Opens p' t'.levels ∧ t'.Rests q' := by
  obtain ⟨hside, ht'⟩ := hstep
  have hw' : t'.wantsOperand = t.wantsOperand := by rw [ht']
  have hup' : t'.bars.isUp = !t.bars.isUp := by
    rw [← headD_levels, hlevels]
    rfl
  cases hw : t.wantsOperand with
  | true =>
    have hup : t.bars.isUp = false := by simpa [hw] using hside
    have hlacks := hq.lacks hw
    rw [hup] at hopens hlacks
    refine ⟨_, [], (List.append_nil _).symm, ?_, rests_of_lacks (hw'.trans hw) (lacks_nil _)⟩
    rw [hlevels, hup]
    exact .bar hopens hlacks hfollows
  | false =>
    have hup : t.bars.isUp = true := by simpa [hw] using hside
    have hcomplete := hq.complete hw
    rw [hup] at hopens hcomplete
    obtain ⟨p', q', hsplit, hopens', hq'⟩ := hopens.closeBar hcomplete
    refine ⟨p', q', hsplit, ?_, rests_of_complete (hw'.trans hw) ?_⟩
    · rwa [hlevels, hup]
    · rwa [hup', hup]

/-- What opens and closes nothing continues what is there. -/
theorem rests_other {q : List Lexeme} (hstep : t.Step t' l) (hl : l.Expresses)
    (hleft : l ≠ .leftParen) (hright : l ≠ .rightParen) (hbar : l ≠ .operator .modulus)
    (hup : t'.bars.isUp = t.bars.isUp) (hq : t.Rests q)
    (hfollows : ∀ e : Expr, (l.Brackets → e.isBracketed = true) →
      (l ≠ .operator .minus → e.startsMinus = false) → e.Follows q.getLast?) :
    t'.Rests (q ++ [l]) := by
  have operand (e : Expr) (he : e.Legible) (hw : t.wantsOperand = true)
      (hw' : t'.wantsOperand = false) (hlexemes : e.lexemes = [l]) (hno : e.hasBar = false)
      (hlast : e.Follows q.getLast?) : t'.Rests (q ++ [l]) := by
    refine rests_of_complete hw' ?_
    rw [hup, ← hlexemes]
    exact hq.lacks hw e he hlast fun _ => hno
  cases l with
  | name text =>
    refine operand (.name text) trivial hstep.1 (by rw [hstep.2]) rfl rfl ?_
    exact hfollows _ False.elim fun _ => rfl
  | literal text value isPair =>
    refine operand (.literal text value isPair) trivial hstep.1 (by rw [hstep.2]) rfl rfl ?_
    refine hfollows _ (fun hb => ?_) fun _ => rfl
    cases isPair with
    | true => rfl
    | false => exact hb.elim
  | call f =>
    obtain ⟨hw, rfl⟩ := hstep
    exact rests_of_lacks hw ((hq.lacks hw).call fun e => hfollows _ False.elim fun _ => rfl)
  | operator o =>
    have infixed (i : Infix) (hi : i.operator = o) (hw : t.wantsOperand = false)
        (hw' : t'.wantsOperand = true) : t'.Rests (q ++ [.operator o]) := by
      refine rests_of_lacks hw' ?_
      rw [hup, ← hi]
      exact Complete.infix (hq.complete hw) i
    cases o with
    | comma | colon | assign => exact hl.elim
    | modulus => exact absurd rfl hbar
    | minus =>
      cases hw : t.wantsOperand with
      | true =>
        obtain ⟨-, rfl⟩ := hstep
        refine rests_of_lacks rfl ((hq.lacks hw).minus fun e => ?_)
        exact hfollows _ False.elim fun h => absurd rfl h
      | false => exact infixed .sub rfl hw (by rw [hstep.2])
    | caret => exact infixed .pow rfl hstep.1 (by rw [hstep.2])
    | star => exact infixed .mul rfl hstep.1 (by rw [hstep.2])
    | slash => exact infixed .div rfl hstep.1 (by rw [hstep.2])
    | plus => exact infixed .add rfl hstep.1 (by rw [hstep.2])
    | lt => exact infixed .lt rfl hstep.1 (by rw [hstep.2])
    | le => exact infixed .le rfl hstep.1 (by rw [hstep.2])
    | gt => exact infixed .gt rfl hstep.1 (by rw [hstep.2])
    | ge => exact infixed .ge rfl hstep.1 (by rw [hstep.2])
    | eq => exact infixed .eq rfl hstep.1 (by rw [hstep.2])
    | ne => exact infixed .ne rfl hstep.1 (by rw [hstep.2])
    | and => exact infixed .and rfl hstep.1 (by rw [hstep.2])
    | or => exact infixed .or rfl hstep.1 (by rw [hstep.2])
  | leftParen => exact absurd rfl hleft
  | rightParen => exact absurd rfl hright
  | flow | close | fault => exact hl.elim

/-- Over one lexeme of an expression. -/
theorem step (h : Phrase ls t) (hstep : t.Step t' l) (hl : l.Expresses)
    (hadmits : ∀ k ∈ ls.getLast?, k.Admits l)
    (hkept : l = .leftParen → t.openParens + 1 < Nesting.depth ∨ t.levels.getLast? = some false)
    (houter : outside 0 (ls ++ [l]) = outside 0 ls ++ outside t.openParens [l]) :
    Phrase (ls ++ [l]) t' := by
  have hcomma : l ≠ .operator .comma := by rintro rfl; exact hl
  have hcolon : l ≠ .operator .colon := by rintro rfl; exact hl
  obtain ⟨hshift, hroomy⟩ := shift_of_kept hstep h.roomy hkept hcomma hcolon
  obtain ⟨p, q, hsplit, hopens, hq⟩ := h.parts
  have hcons := levels_eq_cons h.roomy
  have hcons' := levels_eq_cons hroomy
  rw [hcons] at hopens
  have hparts : ∃ p q, ls ++ [l] = p ++ q ∧ Opens p t'.levels ∧ t'.Rests q := by
    rw [hsplit]
    cases hshift with
    | «open» hlevels _ =>
      obtain ⟨hw, -, rfl⟩ := hstep
      refine ⟨_, [], (List.append_nil _).symm, ?_, rests_of_lacks hw (lacks_nil _)⟩
      rw [hlevels, hcons]
      exact .paren hopens (hq.lacks hw)
    | «close» hlevels _ =>
      obtain ⟨hw, -, hup, rfl⟩ := hstep
      have hcomplete := hq.complete hw
      rw [hup] at hcomplete
      rw [← hcons, hlevels, hcons'] at hopens
      obtain ⟨p', q', hsplit', hopens', hq'⟩ := hopens.closeParen hcomplete
      exact ⟨p', q', hsplit', by rwa [hcons'], rests_of_complete hw hq'⟩
    | bar hlevels _ =>
      exact parts_modulus hstep hlevels hopens hq fun e =>
        h.follows hstep hadmits hsplit False.elim fun _ => rfl
    | other hleft hright hbar hlevels _ =>
      have hup : t'.bars.isUp = t.bars.isUp := by rw [← headD_levels, hlevels, headD_levels]
      refine ⟨p, q ++ [l], List.append_assoc .., by rwa [hlevels, hcons], ?_⟩
      exact rests_other hstep hl hleft hright hbar hup hq fun e =>
        h.follows hstep hadmits hsplit
  refine ⟨hroomy, ?_, hparts, fun hlast => ?_⟩
  · rw [houter, List.count_append]
    exact outer_step hshift h.roomy hroomy h.outer
  · rw [List.getLast?_concat] at hlast
    obtain rfl := Option.some.inj hlast
    obtain ⟨-, rfl⟩ := hstep
    rfl

/-- Over all lexemes of an expression. -/
theorem run {t₀ : Stance} (h : t₀.Steps ls t) (hstart : Phrase [] t₀) (hopen : t₀.openParens = 0)
    (hchain : ls.IsChain Admits) (hls : ∀ l ∈ ls, l.Expresses) (hkept : Remembered ls) :
    Phrase ls t := by
  induction ls using List.reverseRecOn generalizing t with
  | nil =>
    cases h
    exact hstart
  | append_singleton pre l ih =>
    obtain ⟨v, hpre, hstep⟩ := h.concat
    obtain ⟨hchain', -, hadmits⟩ := List.isChain_append.mp hchain
    have hv : Phrase pre v := ih hpre hchain' (fun m hm => hls m (List.mem_append_left _ hm))
      fun a ha => hkept a (ha.trans (List.prefix_append _ _))
    refine hv.step hstep (hls l (by simp)) (fun k hk => hadmits k hk l rfl) ?_ ?_
    · rintro rfl
      exact kept_of_remembered hpre hopen hkept hv.outer hstep.2.1
    · have hsame := outside_of_steps hpre [l]
      rwa [hopen] at hsame

/-- What the check has read of a statement to its end is an expression, unless it still wants an
operand. -/
theorem exists_expr (h : Phrase ls t) (hends : t.Ends) (hw : t.wantsOperand = false) :
    ∃ e : Expr, e.Legible ∧ e.lexemes = ls := by
  obtain ⟨p, q, rfl, hopens, hq⟩ := h.parts
  rw [levels_of_ends hends h.roomy] at hopens
  cases hopens
  obtain ⟨e, he, hlex, -⟩ := hq.complete hw
  exact ⟨e, he, hlex⟩

end Phrase

end Check
end FractalFormula
