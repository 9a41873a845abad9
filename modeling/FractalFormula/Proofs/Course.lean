/-
What is known of a draft while an accepted body is read.

A draft keeps in step with the check (`Compile.Course`): they agree about bars and about the operand
that is wanted, and when one is, what has been queued last binds no tighter than a sign, or it is the
marker of the statement before.
-/
import FractalFormula.Proofs.Bars
import FractalFormula.Proofs.Frame
import FractalFormula.Proofs.Resolvable

namespace FractalFormula

open Compile

namespace Lexeme

/-- What stands last is a `^` or a minus sign of its own.  Commas that separate nothing do not
count. -/
def Tied (pre : List Lexeme) : Prop :=
  ∃ before l n, pre = before ++ l :: List.replicate n (.operator .comma) ∧
    (l = .operator .caret ∨
      l = .operator .minus ∧ ∃ t, Check.Stance.Steps {} before t ∧ t.wantsOperand = true)

theorem not_tied {pre : List Lexeme} {k : Lexeme} (hlast : pre.getLast? = some k)
    (hk : k ≠ .operator .comma ∧ k ≠ .operator .caret ∧ k ≠ .operator .minus) : ¬ Tied pre := by
  rintro ⟨before, l, n, rfl, hl⟩
  cases n with
  | zero =>
    rw [List.replicate_zero, List.getLast?_concat] at hlast
    obtain rfl := Option.some.inj hlast
    exact hl.elim hk.2.1 fun h => hk.2.2 h.1
  | succ n =>
    rw [List.replicate_succ', ← List.cons_append, ← List.append_assoc, List.getLast?_concat] at hlast
    exact hk.1 (Option.some.inj hlast).symm

/-- A parenthesis has to come next. -/
def Awaits : Lexeme → Prop
  | .call _ => True
  | .flow w => w.takesCondition = true
  | _ => False

theorem Awaits.brackets {k l : Lexeme} (h : k.Awaits) (hadmits : k.Admits l) : l.Brackets := by
  cases k with
  | call f => exact hadmits
  | flow w =>
    have hcond : w.takesCondition = true := h
    rw [Admits, if_pos hcond] at hadmits
    exact hadmits
  | _ => exact h.elim

end Lexeme

namespace Compile

/-- How many levels deep a draft stands. -/
def Draft.depth (d : Draft) : Int :=
  d.parens + d.assignments

/-- The deeper, the tighter. -/
theorem Draft.prec_anti {c d : Draft} (h : c.depth ≤ d.depth) (base : Int) :
    d.prec base ≤ c.prec base := by
  have hlevel : level = 15 := rfl
  unfold Draft.depth at h
  rw [Draft.prec, Draft.prec, hlevel]
  omega

theorem Draft.prec_le_base {d : Draft} (h : 0 ≤ d.depth) (base : Int) : d.prec base ≤ base := by
  have hlevel : level = 15 := rfl
  unfold Draft.depth at h
  rw [Draft.prec, hlevel]
  omega

/-- Operators and operands take their precedence from the level they stand at. -/
theorem prec_queued_le {d : Draft} {l : Lexeme} (hflow : ∀ w, l ≠ .flow w)
    (hcomma : l ≠ .operator .comma) (hcolon : l ≠ .operator .colon) :
    ∀ p ∈ l.queued d, p.prec ≤ d.prec 7 := by
  have one {op : Opcode} {base : Int} (hbase : base ≤ 7) :
      ∀ p ∈ [(⟨some op, d.prec base⟩ : Pending Opcode)], p.prec ≤ d.prec 7 := by
    intro p hp
    rw [List.mem_singleton.mp hp]
    show base - _ ≤ 7 - _
    omega
  have none : ∀ p ∈ ([] : List (Pending Opcode)), p.prec ≤ d.prec 7 :=
    fun _ hp => absurd hp List.not_mem_nil
  cases l with
  | name | call => exact one (by decide)
  | literal text value isPair =>
    refine one ?_
    cases isPair <;> decide
  | flow w => exact absurd rfl (hflow w)
  | operator o =>
    cases o with
    | comma => exact absurd rfl hcomma
    | colon => exact absurd rfl hcolon
    | assign | modulus | minus =>
      unfold Lexeme.queued
      dsimp only
      split
      all_goals first | exact none | exact one (by decide)
    | _ => exact one (by decide)
  | _ => exact none

theorem prec_queued_le_level {d : Draft} (h : 0 ≤ d.depth) (l : Lexeme) :
    ∀ p ∈ l.queued d, p.prec ≤ level := by
  have marker (op : Opcode) :
      ∀ p ∈ [(⟨none, level⟩ : Pending Opcode), ⟨some op, separatorPrec⟩], p.prec ≤ level := by
    intro p hp
    rcases List.mem_cons.mp hp with rfl | hp
    · exact Int.le_refl _
    · rw [List.mem_singleton.mp hp]
      show separatorPrec ≤ level
      decide
  by_cases hflow : ∃ w, l = .flow w
  · obtain ⟨w, rfl⟩ := hflow
    have hall : w.piece.pending.all (fun p => decide (p.prec ≤ level)) = true := by
      cases w <;> rfl
    exact fun p hp => of_decide_eq_true (List.all_eq_true.mp hall p hp)
  by_cases hcomma : l = .operator .comma
  · subst hcomma
    unfold Lexeme.queued
    dsimp only
    split
    · exact fun _ hp => absurd hp List.not_mem_nil
    · exact marker .clear
  by_cases hcolon : l = .operator .colon
  · subst hcolon
    exact marker .endInit
  · intro p hp
    have hle := prec_queued_le (fun w hw => hflow ⟨w, hw⟩) hcomma hcolon p hp
    have hseven : (7 : Int) ≤ level := by decide
    exact Int.le_trans hle (Int.le_trans (Draft.prec_le_base h 7) hseven)

/-! ## Where an operand is wanted -/

/-- What an operand comes behind in a draft that has read `pre`. -/
def Draft.Ready (pre : List Lexeme) (d : Draft) : Prop :=
  (∀ b ∈ d.pending.head?, d.prec 1 ≤ b.prec ∧
      (b.prec ≤ d.prec 2 → Lexeme.Tied pre ∨ ∃ l ∈ pre.getLast?, l.Awaits)) ∨
    ∃ op rest, d.pending = ⟨some op, separatorPrec⟩ :: ⟨none, level⟩ :: rest ∧ d.assignments = 0

/-- A draft that has read `pre`, as the check has. -/
structure Course (pre : List Lexeme) (t : Check.Stance) (d : Draft) : Prop where
  steps : Check.Stance.Steps {} pre t
  aligned : Aligned t d.footing
  agrees : Agrees t d pre.getLast?
  wants : t.wantsOperand = true → d.wantsOperand = true ∨
    ∃ w, pre.getLast? = some (.flow w) ∧ w.takesCondition = false
  assignments : 0 ≤ d.assignments
  capped : ∀ p ∈ d.pending, p.prec ≤ level
  ready : d.wantsOperand = true → d.Ready pre

namespace Course

variable {pre : List Lexeme} {t t' : Check.Stance} {d : Draft} {l : Lexeme}

theorem start (env : Environment) : Course [] {} (.start env) :=
  ⟨.nil {}, .start env, .start env, fun _ => .inl rfl, Int.le_refl 0,
    fun _ hp => absurd hp List.not_mem_nil, fun _ => .inl nofun⟩

theorem depth_nonneg (h : Course pre t d) : 0 ≤ d.depth := by
  have hparens : d.parens = (t.openParens + t.levels.count true : Nat) := h.aligned.parens
  have hassign := h.assignments
  unfold Draft.depth
  omega

/-- A word or function that awaits its parenthesis gets no operator. -/
theorem not_awaits (hadmits : ∀ k ∈ pre.getLast?, k.Admits l) (hl : ¬ l.Brackets) :
    ¬ ∃ k ∈ pre.getLast?, k.Awaits :=
  fun ⟨k, hk, hawaits⟩ => hl (hawaits.brackets (hadmits k hk))

theorem wants_of (h : Course pre t d) (hadmits : ∀ k ∈ pre.getLast?, k.Admits l)
    (hl : ¬ l.Separates) (hw : t.wantsOperand = true) : d.wantsOperand = true := by
  rcases h.wants hw with hd | ⟨w, hlast, hcond⟩
  · exact hd
  · have hadmit := hadmits _ hlast
    rw [Lexeme.Admits, hcond] at hadmit
    exact absurd hadmit hl

theorem footing_eq (d : Draft) (l : Lexeme) : (d.take l).parens = (d.footing.after l).parens ∧
    (d.take l).assignments = (d.footing.after l).assignments :=
  ⟨congrArg Footing.parens (footing_take d l), congrArg Footing.assignments (footing_take d l)⟩

theorem ready_of_head {b : Pending Opcode} {rest : List (Pending Opcode)}
    (hpending : (d.take l).pending = b :: rest) (hb : (d.take l).prec 1 ≤ b.prec)
    (htied : b.prec ≤ (d.take l).prec 2 → Lexeme.Tied (pre ++ [l]) ∨ l.Awaits) :
    (d.take l).Ready (pre ++ [l]) := by
  left
  intro b' hb'
  rw [hpending] at hb'
  obtain rfl := Option.some.inj hb'
  refine ⟨hb, fun hle => (htied hle).imp_right fun hl => ⟨l, ?_, hl⟩⟩
  rw [List.getLast?_append, List.getLast?_singleton]
  rfl

/-- A level deeper nothing that came before is tight. -/
theorem ready_deeper {d' : Draft} {pre' : List Lexeme} (h : d.Ready pre)
    (hpending : d'.pending = d.pending) (hparens : d'.parens = d.parens + 1)
    (hassign : d'.assignments = d.assignments) : d'.Ready pre' := by
  rcases h with hhead | ⟨op, rest, hmarker, hnone⟩
  · left
    intro b hb
    rw [hpending] at hb
    have hlow := (hhead b hb).1
    have hlevel : level = 15 := rfl
    unfold Draft.prec at hlow ⊢
    rw [hparens, hassign]
    rw [hlevel] at hlow ⊢
    exact ⟨by omega, fun hle => by omega⟩
  · exact .inr ⟨op, rest, hpending.trans hmarker, hassign.trans hnone⟩

theorem ready_comma (h : Course pre t d) (hadmits : ∀ k ∈ pre.getLast?, k.Admits (.operator .comma)) :
    (d.take (.operator .comma)).Ready (pre ++ [.operator .comma]) := by
  by_cases hw : d.wantsOperand = true
  · have htake : d.take (.operator .comma) = d := if_pos hw
    rw [htake]
    refine (h.ready hw).imp_left fun hhead b hb => ⟨(hhead b hb).1, fun hle => .inl ?_⟩
    rcases (hhead b hb).2 hle with ⟨before, l, n, rfl, hl⟩ | hlast
    · refine ⟨before, l, n + 1, ?_, hl⟩
      rw [List.append_assoc, List.cons_append, List.replicate_succ']
    · exact absurd hlast (not_awaits hadmits id)
  · have htake : d.take (.operator .comma) = d.endStatement .clear := if_neg hw
    rw [htake]
    exact .inr ⟨.clear, d.pending, rfl, rfl⟩

theorem ready_assign (pre : List Lexeme) (d : Draft) :
    (d.take (.operator .assign)).Ready (pre ++ [.operator .assign]) := by
  cases hpending : d.pending with
  | nil =>
    have hnone : (d.take (.operator .assign)).pending = [] := by
      show d.assign.pending = []
      rw [Draft.assign, hpending]
    left
    intro b hb
    rw [hnone] at hb
    cases hb
  | cons p rest =>
    have hstore : (d.take (.operator .assign)).pending = ⟨some .store, d.prec 5⟩ :: rest := by
      show d.assign.pending = _
      rw [Draft.assign, hpending]
    have hprec (base : Int) : (d.take (.operator .assign)).prec base = d.prec base - level := by
      show base - (d.parens + (d.assignments + 1)) * 15 = base - (d.parens + d.assignments) * 15 - 15
      omega
    refine ready_of_head hstore ?_ fun hle => ?_
    · rw [hprec]
      show 1 - _ - (15 : Int) ≤ 5 - _
      omega
    · rw [hprec] at hle
      have hle : 5 - (d.parens + d.assignments) * level ≤
          2 - (d.parens + d.assignments) * level - 15 := hle
      omega

theorem ready_modulus (h : Course pre t d) (hstep : t.Step t' (.operator .modulus))
    (hshallow : t.openParens < Nesting.depth) (hw : (d.take (.operator .modulus)).wantsOperand = true) :
    (d.take (.operator .modulus)).Ready (pre ++ [.operator .modulus]) := by
  by_cases hbar : d.bar = d.parens - 1
  · have htake : d.take (.operator .modulus) = _ := if_pos hbar
    rw [htake] at hw
    have hup := (h.aligned.closes_iff hshallow).mp hbar
    have hwants := hstep.1
    rw [hup, h.agrees.wants hw] at hwants
    cases hwants
  · have htake : d.take (.operator .modulus) = { { d with bars := d.bar :: d.bars }.push .mod 2 with
        bar := d.parens, parens := d.parens + 1 } := if_neg hbar
    have hpending : (d.take (.operator .modulus)).pending = ⟨some .mod, d.prec 2⟩ :: d.pending := by
      rw [htake]
      rfl
    have hprec (base : Int) : (d.take (.operator .modulus)).prec base = d.prec base - level := by
      rw [htake]
      show base - (d.parens + 1 + d.assignments) * 15 = base - (d.parens + d.assignments) * 15 - 15
      omega
    refine ready_of_head hpending ?_ fun hle => ?_
    · rw [hprec]
      show 1 - _ - (15 : Int) ≤ 2 - _
      omega
    · rw [hprec] at hle
      have hle : 2 - (d.parens + d.assignments) * level ≤
          2 - (d.parens + d.assignments) * level - 15 := hle
      omega

theorem ready_take (h : Course pre t d) (hstep : t.Step t' l)
    (hadmits : ∀ k ∈ pre.getLast?, k.Admits l) (hend : l.isEnd = false)
    (hshallow : t.openParens < Nesting.depth) (hw : (d.take l).wantsOperand = true) :
    (d.take l).Ready (pre ++ [l]) := by
  -- an operator between two operands
  have infixed (op : Opcode) (base : Int)
      (hpending : (d.take l).pending = ⟨some op, d.prec base⟩ :: d.pending)
      (hprec : ∀ base, (d.take l).prec base = d.prec base)
      (hbase : 2 < base ∨ base = 2 ∧ Lexeme.Tied (pre ++ [l])) : (d.take l).Ready (pre ++ [l]) := by
    refine ready_of_head hpending ?_ fun hle => ?_
    · rw [hprec]
      show 1 - _ ≤ base - _
      omega
    · rw [hprec] at hle
      have hle : base - (d.parens + d.assignments) * 15 ≤ 2 - (d.parens + d.assignments) * 15 := hle
      exact .inl (hbase.resolve_left (by omega)).2
  cases l with
  | leftParen =>
    show ({ d with parens := d.parens + 1 } : Draft).Ready _
    exact ready_deeper (h.ready hw) rfl rfl rfl
  | rightParen =>
    have hno := hstep.1
    rw [h.agrees.wants hw] at hno
    cases hno
  | name | literal =>
    rw [wantsOperand_take] at hw
    cases hw
  | call f => exact ready_of_head rfl (Int.le_refl _) fun _ => .inr trivial
  | flow w =>
    have hcond : w.takesCondition = true := by
      rw [wantsOperand_take] at hw
      exact hw
    have hprec : d.prec 1 ≤ 1 := Draft.prec_le_base h.depth_nonneg 1
    cases w with
    | «if» | elseIf => exact ready_of_head rfl hprec fun _ => .inr rfl
    | «else» | endIf => cases hcond
  | operator o =>
    cases o with
    | comma => exact h.ready_comma hadmits
    | colon => exact .inr ⟨.endInit, d.pending, rfl, rfl⟩
    | assign => exact ready_assign pre d
    | modulus => exact h.ready_modulus hstep hshallow hw
    | minus =>
      by_cases hwants : d.wantsOperand = true
      · have htake : d.take (.operator .minus) = d.push .neg 2 := if_pos hwants
        exact infixed .neg 2 (by rw [htake]; rfl) (by rw [htake]; exact fun _ => rfl)
          (.inr ⟨rfl, pre, _, 0, rfl, .inr ⟨rfl, t, h.steps, h.agrees.wants hwants⟩⟩)
      · have htake : d.take (.operator .minus) = d.infixOperator .sub 4 := if_neg hwants
        exact infixed .sub 4 (by rw [htake]; rfl) (by rw [htake]; exact fun _ => rfl)
          (.inl (by decide))
    | caret => exact infixed _ _ rfl (fun _ => rfl) (.inr ⟨rfl, pre, _, 0, rfl, .inl rfl⟩)
    | _ => exact infixed _ _ rfl (fun _ => rfl) (.inl (by decide))
  | close => cases hend
  | fault => exact hstep.elim

theorem wants_take (h : Course pre t d) (hstep : t.Step t' l)
    (hadmits : ∀ k ∈ pre.getLast?, k.Admits l) (hend : l.isEnd = false)
    (hw : t'.wantsOperand = true) :
    (d.take l).wantsOperand = true ∨ ∃ w, l = .flow w ∧ w.takesCondition = false := by
  rw [wantsOperand_take]
  cases l with
  | leftParen => exact .inl (h.wants_of hadmits id hstep.1)
  | rightParen =>
    obtain ⟨hno, -, -, rfl⟩ := hstep
    cases hno.symm.trans hw
  | name | literal =>
    obtain ⟨-, rfl⟩ := hstep
    cases hw
  | flow w =>
    cases hcond : w.takesCondition with
    | true => exact .inl hcond
    | false => exact .inr ⟨w, rfl, hcond⟩
  | operator o =>
    left
    cases o with
    | comma =>
      unfold Footing.after
      dsimp only
      split
      · assumption
      · rfl
    | modulus =>
      obtain ⟨-, rfl⟩ := hstep
      have hd := h.wants_of hadmits Bool.false_ne_true hw
      unfold Footing.after
      dsimp only
      split <;> exact hd
    | _ => rfl
  | call => exact .inl rfl
  | close => cases hend
  | fault => exact hstep.elim

theorem take (h : Course pre t d) (hstep : t.Step t' l)
    (hadmits : ∀ k ∈ pre.getLast?, k.Admits l) (hend : l.isEnd = false)
    (hshallow : t.openParens < Nesting.depth) (hshallow' : t'.openParens < Nesting.depth) :
    Course (pre ++ [l]) t' (d.take l) := by
  have hlast : (pre ++ [l]).getLast? = some l := by
    rw [List.getLast?_append, List.getLast?_singleton]
    rfl
  refine ⟨h.steps.trans (.cons hstep (.nil t')), ?_, ?_, ?_, ?_, ?_, ?_⟩
  · rw [footing_take]
    exact h.aligned.step hstep hshallow hshallow'
  · rw [hlast]
    exact h.agrees.take hstep hadmits
  · rw [hlast]
    exact fun hw => (h.wants_take hstep hadmits hend hw).imp_right fun ⟨w, hl, hcond⟩ =>
      ⟨w, congrArg some hl, hcond⟩
  · have hassign := h.assignments
    rw [(footing_eq d l).2]
    show 0 ≤ (d.footing.after l).assignments
    cases l with
    | operator o =>
      cases o with
      | comma | modulus =>
        unfold Footing.after
        dsimp only
        split <;> first | exact hassign | exact Int.le_refl 0
      | colon => exact Int.le_refl 0
      | assign =>
        show 0 ≤ d.assignments + 1
        omega
      | _ => exact hassign
    | _ => exact hassign
  · intro p hp
    rw [pending_take] at hp
    rcases List.mem_append.mp hp with hp | hp
    · exact prec_queued_le_level h.depth_nonneg l p (List.mem_reverse.mp hp)
    · exact h.capped p ((kept_suffix d l).subset hp)
  · exact h.ready_take hstep hadmits hend hshallow

/-- No operator binds as tight as a marker. -/
theorem separatorPrec_le (h : Course pre t d) (hshallow : t.openParens < Nesting.depth) (base : Int)
    (hbase : -1000 ≤ base) (hnone : d.assignments = 0) : separatorPrec ≤ d.prec base := by
  -- there are no more levels than parentheses and bars in them
  have hparens : d.parens = (t.openParens + t.levels.count true : Nat) := h.aligned.parens
  have hlength := Check.Stance.length_levels h.aligned.roomy
  have hcount : t.levels.count true ≤ t.levels.length := List.count_le_length
  have hdepth : Nesting.depth = 64 := rfl
  rw [hdepth] at hshallow
  show -30000 ≤ base - (d.parens + d.assignments) * 15
  omega

/-- Where the same is open as before, an operand has been passed. -/
theorem passes {pre' : List Lexeme} {d' : Draft} (h : Course pre t d) (h' : Course pre' t' d')
    (hlevels : t'.levels = t.levels) (hopen : t'.openParens = t.openParens)
    (hassign : d'.assignments = d.assignments) (hw : t'.wantsOperand = false) : Passes d d' := by
  have hparens : d'.parens = (t'.openParens + t'.levels.count true : Nat) := h'.aligned.parens
  have hbars : d'.bar :: d'.bars = openers t'.levels := h'.aligned.bars
  have hbars₀ : d.bar :: d.bars = openers t.levels := h.aligned.bars
  rw [hlevels, ← hbars₀] at hbars
  rw [hlevels, hopen] at hparens
  obtain ⟨hbar, hbars⟩ := List.cons.inj hbars
  refine ⟨hparens.trans h.aligned.parens.symm, hassign, hbar, hbars, ?_⟩
  exact Bool.eq_false_iff.mpr fun hwants => Bool.noConfusion (hw.symm.trans (h'.agrees.wants hwants))

end Course

/-- The check goes from the stance `t` to `t'` over `ls`, and `d` has read `pre`, which stands before
them. -/
structure Reading (pre : List Lexeme) (t : Check.Stance) (d : Draft) (ls : List Lexeme)
    (t' : Check.Stance) : Prop where
  course : Course pre t d
  steps : t.Steps ls t'
  chain : (pre ++ ls).IsChain Lexeme.Admits
  inner : ∀ l ∈ ls, l.isEnd = false
  shallow : Lexeme.Shallow (pre ++ ls)

namespace Reading

variable {pre ls p q : List Lexeme} {t t' : Check.Stance} {d : Draft} {l : Lexeme}

theorem admits (h : Reading pre t d (l :: ls) t') : ∀ k ∈ pre.getLast?, k.Admits l :=
  fun k hk => (List.isChain_append.mp h.chain).2.2 k hk l rfl

theorem openParens_lt (h : Reading pre t d ls t') :
    t.openParens < Nesting.depth ∧ t'.openParens < Nesting.depth := by
  have hzero : ({} : Check.Stance).openParens = 0 := rfl
  have hpre := Check.Stance.openParens_of_steps h.course.steps
  have hls := Check.Stance.openParens_of_steps (h.course.steps.trans h.steps)
  have hlt := h.shallow pre (List.prefix_append pre ls)
  have hlt' := h.shallow (pre ++ ls) (List.prefix_refl _)
  omega

theorem cons (h : Reading pre t d (l :: ls) t') :
    ∃ u, t.Step u l ∧ Reading (pre ++ [l]) u (d.take l) ls t' := by
  have hchain := h.chain
  have hshallow := h.shallow
  rw [List.append_cons] at hchain hshallow
  cases h.steps with
  | cons hstep hsteps =>
    rename_i u
    have hcount :=
      Check.Stance.openParens_of_steps (h.course.steps.trans (.cons hstep (.nil u)))
    have hdeep := hshallow (pre ++ [l]) (List.prefix_append _ _)
    have hzero : ({} : Check.Stance).openParens = 0 := rfl
    have hlt : u.openParens < Nesting.depth := by omega
    exact ⟨u, hstep,
      h.course.take hstep h.admits (h.inner l List.mem_cons_self) h.openParens_lt.1 hlt, hsteps,
      hchain, fun k hk => h.inner k (List.mem_cons_of_mem l hk), hshallow⟩

/-- The draft keeps in step with the check. -/
theorem behind (h : Reading pre t d ls t') : Course (pre ++ ls) t' (d.takeAll ls) := by
  induction ls generalizing pre t d with
  | nil =>
    obtain ⟨hcourse, hsteps, -, -, -⟩ := h
    cases hsteps
    rwa [List.append_nil]
  | cons l ls ih =>
    obtain ⟨u, -, hrest⟩ := h.cons
    rw [List.append_cons]
    exact ih hrest

theorem split (h : Reading pre t d (p ++ q) t') :
    ∃ u, Reading pre t d p u ∧ Reading (pre ++ p) u (d.takeAll p) q t' := by
  obtain ⟨u, hp, hq⟩ := h.steps.append
  have hlist : pre ++ p ++ q = pre ++ (p ++ q) := List.append_assoc ..
  have hpp : pre ++ p <+: pre ++ (p ++ q) := hlist ▸ List.prefix_append _ q
  have hchain := h.chain.prefix hpp
  have hfirst : Reading pre t d p u := ⟨h.course, hp, hchain,
    fun l hl => h.inner l (List.mem_append_left q hl), fun r hr => h.shallow r (hr.trans hpp)⟩
  exact ⟨u, hfirst, hfirst.behind, hq, hlist ▸ h.chain,
    fun l hl => h.inner l (List.mem_append_right p hl), hlist ▸ h.shallow⟩

/-- What may stand behind an operator has nothing tighter waiting in front of it. -/
theorem yields (h : Reading pre t d (l :: ls) t') (hbrackets : ¬ l.Brackets)
    (hseparates : ¬ l.Separates) (hw : t.wantsOperand = true) (htied : ¬ Lexeme.Tied pre) {low : Int}
    (hlow : d.assignments = 0 → separatorPrec ≤ low) :
    Pending.Yields low (d.prec 2) d.pending.reverse := by
  rcases h.course.ready (h.course.wants_of h.admits hseparates hw) with
    hhead | ⟨op, rest, hmarker, hnone⟩
  · left
    intro b hb
    rw [List.getLast?_reverse] at hb
    by_cases hle : b.prec ≤ d.prec 2
    · rcases (hhead b hb).2 hle with htied' | hlast
      · exact absurd htied' htied
      · exact absurd hlast (Course.not_awaits h.admits hbrackets)
    · exact Int.not_le.mp hle
  · refine .inr ⟨rest.reverse, op, level, separatorPrec, ?_, fun p hp => ?_, hlow hnone⟩
    · rw [hmarker, List.reverse_cons, List.reverse_cons, List.append_assoc]
      rfl
    · refine h.course.capped p ?_
      rw [hmarker]
      exact List.mem_cons_of_mem _ (List.mem_cons_of_mem _ (List.mem_reverse.mp hp))

end Reading

/-- An accepted body is read from any place on. -/
theorem exists_reading {pre post : List Lexeme} (h : Check.Accepted (pre ++ post))
    (hshallow : Lexeme.Shallow (pre ++ post)) (env : Environment) {t : Check.Stance}
    (ht : Check.Stance.Steps {} pre t) :
    ∃ t', Reading pre t ((Draft.start env).takeAll pre) post t' := by
  obtain ⟨t', hsteps, -⟩ := h.steps
  have hbody : Reading [] {} (.start env) (pre ++ post) t' :=
    ⟨.start env, hsteps, (List.isChain_append.mp h.adjacent).1, h.inner, hshallow⟩
  obtain ⟨u, hpre, hpost⟩ := hbody.split
  obtain rfl := ht.unique hpre.steps
  exact ⟨t', hpost⟩

end Compile
end FractalFormula
