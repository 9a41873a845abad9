/-
The syntax check accepts what trees render.

The check is one pass over the tokens, so a lemma about a piece of a tree says how the state after
the piece follows from the state before it, whatever the rest of the body is (`Reads`).  Of a state
only the `Gauge` decides about complaints: the counts and places beside it are free.
-/
import FractalFormula.Grammar.Check
import FractalFormula.Proofs.Passage

namespace FractalFormula
namespace Check

/-- What decides about the next complaint.  Levels of parentheses that the check has no flag for
have their bar down. -/
structure Gauge where
  wantsOperand : Bool
  fresh : Bool
  assignable : Bool
  afterCaret : Bool
  openParens : Nat
  /-- For each level of parentheses, the innermost first, whether a bar is open. -/
  bars : Nat → Bool
  elses : List Bool
  openIfs : Nat
  jumps : Nat
  colonSeen : Bool

namespace State

def gauge (s : State) : Gauge :=
  { wantsOperand := s.wantsOperand, fresh := s.fresh, assignable := s.assignable,
    afterCaret := s.afterCaret, openParens := s.openParens,
    bars := fun i => s.bars.flags.getD i false, elses := s.elses.flags, openIfs := s.openIfs,
    jumps := s.tally.jumps, colonSeen := s.colonSeen }

/-- One lexeme, whose token has the given size and place. -/
def take (s : State) (l : Lexeme) (size : Nat) (place : Span) : State :=
  if s.afterCaret && l == .operator .minus then
    { s with afterCaret := false }.note .negativeExponent place
  else
    let s := { s with afterCaret := false }.addChars size
    match l with
    | .fault f => { s with assignable := false }.note (.ofFault f) place
    | .leftParen => s.leftParen place
    | .rightParen => s.rightParen place
    | .name _ => s.operand true place
    | .literal _ _ _ => s.operand false place
    | .call _ => s.call place
    | .flow w => s.flow w place
    | .operator o => s.operator o place
    | .close => s.close place

theorem read_eq_take (s : State) (t : Token) : s.read t = s.take t.lexeme t.size t.span := by
  obtain ⟨text, kind, span⟩ := t
  cases kind with
  | operator o => cases o <;> rfl
  | _ => cases h : s.afterCaret <;> simp only [read, take, Token.lexeme, h] <;> rfl

/-- A state without a complaint, in which no level of parentheses has been forgotten. -/
structure Clean (s : State) (g : Gauge) : Prop where
  gauge : s.gauge = g
  findings : s.findings = []
  bars : s.bars.flags.length ≤ s.openParens + 1

end State

/-- Lexemes that take every clean state with gauge `g` to one with gauge `g'`, without a complaint
and without an end. -/
def Reads (g : Gauge) (ls : List Lexeme) (g' : Gauge) : Prop :=
  ∀ (s : State) (tokens rest : List Token), s.Clean g → tokens.map Token.lexeme = ls →
    ∃ s' : State, s'.Clean g' ∧ run s (tokens ++ rest) = run s' rest

namespace Reads

theorem nil (g : Gauge) : Reads g [] g := by
  intro s tokens rest hs htokens
  obtain rfl := List.map_eq_nil_iff.mp htokens
  exact ⟨s, hs, rfl⟩

theorem append {g₁ g₂ g₃ : Gauge} {a b : List Lexeme} (ha : Reads g₁ a g₂) (hb : Reads g₂ b g₃) :
    Reads g₁ (a ++ b) g₃ := by
  intro s tokens rest hs htokens
  obtain ⟨ts, us, rfl, hts, hus⟩ := List.map_eq_append_iff.mp htokens
  obtain ⟨s₂, hs₂, hrun₂⟩ := ha s ts (us ++ rest) hs hts
  obtain ⟨s₃, hs₃, hrun₃⟩ := hb s₂ us rest hs₂ hus
  exact ⟨s₃, hs₃, by rw [List.append_assoc, hrun₂, hrun₃]⟩

theorem cons {g₁ g₂ g₃ : Gauge} {l : Lexeme} {ls : List Lexeme} (hl : Reads g₁ [l] g₂)
    (hls : Reads g₂ ls g₃) : Reads g₁ (l :: ls) g₃ :=
  append hl hls

/-- One lexeme that is neither the end of the body nor a fault. -/
theorem of_read {g g' : Gauge} {l : Lexeme} (hclose : l ≠ .close) (hfault : ∀ f, l ≠ .fault f)
    (h : ∀ (s : State) (size : Nat) (place : Span), s.Clean g → (s.take l size place).Clean g') :
    Reads g [l] g' := by
  intro s tokens rest hs htokens
  obtain ⟨t, rfl, ht⟩ := List.map_eq_singleton_iff.mp htokens
  have hkind : t.kind ≠ .fault .endOfText := fun e =>
    hfault .endOfText (by rw [← ht, Token.lexeme, e])
  have hlast : t.kind ≠ .close := fun e => hclose (by rw [← ht, Token.lexeme, e])
  have hclean : (s.read t).Clean g' := by
    rw [State.read_eq_take, ht]
    exact h s t.size t.span hs
  refine ⟨s.read t, hclean, ?_⟩
  rw [List.singleton_append, run, if_neg hkind]
  have hgo : ¬(t.kind = .close ∨ complaintLimit ≤ (s.read t).findings.length) := by
    rw [hclean.findings]
    simp [hlast, complaintLimit]
  exact if_neg hgo

end Reads

/-! ## Single lexemes -/

namespace Gauge

/-- Inside a parenthesis that has just been opened. -/
def enter (g : Gauge) : Gauge :=
  { g with
    assignable := false, fresh := false, afterCaret := false, openParens := g.openParens + 1,
    bars := fun i => match i with | 0 => false | i + 1 => g.bars i }

/-- Outside the innermost parenthesis. -/
def leave (g : Gauge) : Gauge :=
  { g with
    assignable := false, fresh := false, afterCaret := false, openParens := g.openParens - 1,
    bars := fun i => g.bars (i + 1) }

/-- With the innermost bar raised or lowered. -/
def toggle (g : Gauge) : Gauge :=
  { g with
    assignable := false, afterCaret := false,
    bars := fun i => match i with | 0 => !g.bars 0 | i + 1 => g.bars (i + 1) }

/-- After an operand; only a variable can be assigned to. -/
def operand (g : Gauge) (isVariable : Bool) : Gauge :=
  { g with
    wantsOperand := false, fresh := false, assignable := g.assignable && isVariable,
    afterCaret := false }

/-- After an operator that wants an operand. -/
def operator (g : Gauge) (o : Operator) : Gauge :=
  { g with wantsOperand := true, assignable := false, afterCaret := o == .caret }

end Gauge

namespace State

theorem isUp_eq (s : State) : s.bars.isUp = s.gauge.bars 0 := by
  show s.bars.flags.headD false = s.bars.flags.getD 0 false
  cases s.bars.flags <;> rfl

theorem anyUp_eq_false {s : State} (h : ∀ i, s.gauge.bars i = false) : s.bars.anyUp = false := by
  refine List.any_eq_false.mpr fun b hb => ?_
  obtain ⟨i, hi, rfl⟩ := List.mem_iff_getElem.mp hb
  have : s.bars.flags.getD i false = false := h i
  rw [List.getD_eq_getElem?_getD, List.getElem?_eq_getElem hi] at this
  simpa using this

end State

theorem reads_operand {g : Gauge} (h : g.wantsOperand = true) :
    (∀ text, Reads g [.name text] (g.operand true)) ∧
      ∀ text value isPair, Reads g [.literal text value isPair] (g.operand false) := by
  have key (v : Bool) (s : State) (size : Nat) (place : Span) (hs : s.Clean g) :
      (({ s with afterCaret := false }.addChars size).operand v place).Clean (g.operand v) := by
    obtain ⟨rfl, hfindings, hbars⟩ := hs
    have hw : s.wantsOperand = true := h
    constructor <;>
      simp [State.operand, State.addChars, State.addOps, State.noteIf, hw, hfindings, hbars,
        State.gauge, Gauge.operand]
  constructor
  · exact fun text => .of_read (by simp) (by simp) fun s size place hs => by
      simpa [State.take] using key true s size place hs
  · exact fun text value isPair => .of_read (by simp) (by simp) fun s size place hs => by
      simpa [State.take] using key false s size place hs

theorem reads_leftParen {g : Gauge} (h : g.wantsOperand = true) (hdepth : g.openParens + 1 < 64) :
    Reads g [.leftParen] g.enter := by
  refine .of_read (by simp) (by simp) fun s size place hs => ?_
  obtain ⟨rfl, hfindings, hbars⟩ := hs
  have hw : s.wantsOperand = true := h
  have hopen : s.openParens + 1 < 64 := hdepth
  have hlimit : ¬ parenLimit < s.openParens + 1 := by
    show ¬ 64 < s.openParens + 1
    omega
  have henter : s.bars.enter.flags = false :: s.bars.flags := by
    refine List.take_of_length_le ?_
    show s.bars.flags.length + 1 ≤ 64
    omega
  have hflags : (fun i => (false :: s.bars.flags).getD i false) = s.gauge.enter.bars := by
    funext i
    cases i <;> rfl
  have hstate : s.take .leftParen size place =
      { s with
        tally := { s.tally with chars := s.tally.chars + size }, assignable := false,
        fresh := false, afterCaret := false, openParens := s.openParens + 1,
        bars := s.bars.enter } := by
    simp [State.take, State.leftParen, State.addChars, State.noteIf, hw, hlimit]
  rw [hstate]
  refine ⟨?_, hfindings, ?_⟩
  · simp only [State.gauge, henter, hflags]
    rfl
  · rw [henter]
    exact Nat.succ_le_succ hbars

theorem reads_rightParen {g : Gauge} {n : Nat} (h : g.wantsOperand = false)
    (hopen : g.openParens = n + 1) (hbar : g.bars 0 = false) : Reads g [.rightParen] g.leave := by
  refine .of_read (by simp) (by simp) fun s size place hs => ?_
  obtain ⟨rfl, hfindings, hbars⟩ := hs
  have hw : s.wantsOperand = false := h
  have hup : s.bars.isUp = false := s.isUp_eq.trans hbar
  have hn : s.openParens = n + 1 := hopen
  have hflags : (fun i => s.bars.flags.tail.getD i false) = s.gauge.leave.bars := by
    funext i
    show s.bars.flags.tail.getD i false = s.bars.flags.getD (i + 1) false
    cases s.bars.flags <;> rfl
  have hstate : s.take .rightParen size place =
      { s with
        tally := { s.tally with chars := s.tally.chars + size }, assignable := false,
        fresh := false, afterCaret := false, openParens := s.openParens - 1,
        bars := s.bars.leave } := by
    simp [State.take, State.rightParen, State.addChars, State.noteIf, hw, hup, hn]
  rw [hstate]
  refine ⟨?_, hfindings, ?_⟩
  · simp only [State.gauge, Nesting.leave, hflags]
    rfl
  · show s.bars.flags.tail.length ≤ s.openParens - 1 + 1
    rw [List.length_tail]
    omega

theorem reads_call {g : Gauge} (h : g.wantsOperand = true) (f : Func) :
    Reads g [.call f] { g with assignable := false, fresh := false, afterCaret := false } := by
  refine .of_read (by simp) (by simp) fun s size place hs => ?_
  obtain ⟨rfl, hfindings, hbars⟩ := hs
  have hw : s.wantsOperand = true := h
  constructor <;>
    simp [State.take, State.call, State.addChars, State.addOps, State.noteIf, hw, hfindings, hbars,
      State.gauge]

/-- An operator between two operands. -/
theorem reads_infix {g : Gauge} (h : g.wantsOperand = false) (hc : g.afterCaret = false)
    (o : Infix) : Reads g [.operator o.operator] (g.operator o.operator) := by
  refine .of_read (by simp) (by simp) fun s size place hs => ?_
  obtain ⟨rfl, hfindings, hbars⟩ := hs
  have hw : s.wantsOperand = false := h
  have hcaret : s.afterCaret = false := hc
  cases o <;> constructor <;>
    simp [State.take, State.operator, State.infixOperator, State.addChars, State.addOps,
      State.noteIf, hw, hcaret, hfindings, hbars, State.gauge, Gauge.operator, Infix.operator]

/-- A minus sign before its operand. -/
theorem reads_minus {g : Gauge} (h : g.wantsOperand = true) (hc : g.afterCaret = false) :
    Reads g [.operator .minus] { g with assignable := false } := by
  refine .of_read (by simp) (by simp) fun s size place hs => ?_
  obtain ⟨rfl, hfindings, hbars⟩ := hs
  have hw : s.wantsOperand = true := h
  have hcaret : s.afterCaret = false := hc
  constructor <;>
    simp [State.take, State.operator, State.addChars, State.addOps, hw, hcaret, hfindings, hbars,
      State.gauge]

theorem reads_modulus {g : Gauge} (h : g.wantsOperand = !g.bars 0) :
    Reads g [.operator .modulus] g.toggle := by
  refine .of_read (by simp) (by simp) fun s size place hs => ?_
  obtain ⟨rfl, hfindings, hbars⟩ := hs
  have hw : s.wantsOperand = !s.bars.isUp := by rw [s.isUp_eq]; exact h
  have hflags : (fun i => ((!s.bars.isUp) :: s.bars.flags.tail).getD i false)
      = s.gauge.toggle.bars := by
    funext i
    cases i with
    | zero => exact congrArg (! ·) s.isUp_eq
    | succ i =>
      show s.bars.flags.tail.getD i false = s.bars.flags.getD (i + 1) false
      cases s.bars.flags <;> rfl
  have hstate : ∃ n, s.take (.operator .modulus) size place =
      { s with
        tally := { s.tally with chars := s.tally.chars + size, ops := n }, assignable := false,
        afterCaret := false, bars := s.bars.toggle } := by
    cases hup : s.bars.isUp with
    | false =>
      rw [hup] at hw
      exact ⟨s.tally.ops, by
        simp [State.take, State.operator, State.modulus, State.addChars, State.noteIf, hw, hup]⟩
    | true =>
      rw [hup] at hw
      exact ⟨s.tally.ops + 1, by
        simp [State.take, State.operator, State.modulus, State.addChars, State.addOps,
          State.noteIf, hw, hup]⟩
  obtain ⟨n, hstate⟩ := hstate
  rw [hstate]
  refine ⟨?_, hfindings, ?_⟩
  · simp only [State.gauge, Nesting.toggle, Nesting.set, hflags]
    rfl
  · show s.bars.flags.tail.length + 1 ≤ s.openParens + 1
    rw [List.length_tail]
    omega

/-- An assignment to the variable before it. -/
theorem reads_assign {g : Gauge} (h : g.assignable = true) (hc : g.afterCaret = false) :
    Reads g [.operator .assign] { g with wantsOperand := true } := by
  refine .of_read (by simp) (by simp) fun s size place hs => ?_
  obtain ⟨rfl, hfindings, hbars⟩ := hs
  have ha : s.assignable = true := h
  have hcaret : s.afterCaret = false := hc
  constructor <;>
    simp [State.take, State.operator, State.assign, State.addChars, State.noteIf, ha, hcaret,
      hfindings, hbars, State.gauge]

end Check

/-! ## Expressions -/

namespace Expr

def isName : Expr → Bool
  | name _ => true
  | _ => false

def startsMinus : Expr → Bool
  | minus _ => true
  | binary _ l _ => l.startsMinus
  | _ => false

/-- There is a bar outside all parentheses. -/
def hasBar : Expr → Bool
  | name _ | literal _ _ _ | group _ => false
  | call _ e | minus e => e.hasBar
  | binary _ l r => l.hasBar || r.hasBar
  | modulus _ => true

/-- The lexemes are read the way the tree has them: a bar inside bars stands in parentheses, and no
exponent begins with a minus sign. -/
def Legible : Expr → Prop
  | name _ | literal _ _ _ => True
  | group e | minus e => e.Legible
  | call _ e => e.isBracketed = true ∧ e.Legible
  | binary o l r => (o = .pow → r.startsMinus = false) ∧ l.Legible ∧ r.Legible
  | modulus e => e.hasBar = false ∧ e.Legible

theorem Plain.startsMinus {e : Expr} (h : e.Plain) : e.startsMinus = false := by
  induction e with
  | binary o l r ihl _ => exact ihl h.1
  | minus => exact h.elim
  | _ => rfl

theorem Plain.legible {e : Expr} (h : e.Plain) : e.Legible := by
  induction e with
  | name | literal => trivial
  | group e ih => exact ih h
  | call f e ih => exact ⟨h.1, ih h.2⟩
  | binary o l r ihl ihr => exact ⟨fun _ => h.2.startsMinus, ihl h.1, ihr h.2⟩
  | minus | modulus => exact h.elim

open Check in
/-- An expression is read as one operand would be. -/
theorem reads (e : Expr) : ∀ {g : Gauge}, e.Legible → g.wantsOperand = true →
    (g.afterCaret = true → e.startsMinus = false) → (e.hasBar = true → g.bars 0 = false) →
    g.openParens + e.depth < 64 → Reads g e.lexemes (g.operand e.isName) := by
  induction e with
  | name text => exact fun _ hw _ _ _ => (reads_operand hw).1 text
  | literal text value isPair => exact fun _ hw _ _ _ => (reads_operand hw).2 text value isPair
  | group e ih =>
    intro g hlegible hw _ _ hdepth
    rw [depth] at hdepth
    have hopen := reads_leftParen hw (show g.openParens + 1 < 64 by omega)
    have hin := ih (g := g.enter) hlegible hw (fun h => Bool.noConfusion h) (fun _ => rfl)
      (show g.openParens + 1 + e.depth < 64 by omega)
    have hclose : Reads (g.enter.operand e.isName) [.rightParen] (g.enter.operand e.isName).leave :=
      reads_rightParen rfl rfl rfl
    have hleave : (g.enter.operand e.isName).leave = g.operand false := by
      simp [Gauge.leave, Gauge.operand, Gauge.enter]
    rw [hleave] at hclose
    exact hopen.cons (hin.append hclose)
  | call f e ih =>
    intro g hlegible hw _ hbar hdepth
    have hcall := reads_call hw f
    have harg := ih (g := { g with assignable := false, fresh := false, afterCaret := false })
      hlegible.2 hw (fun h => Bool.noConfusion h) hbar hdepth
    exact hcall.cons (by simpa [Gauge.operand, isName] using harg)
  | binary o l r ihl ihr =>
    intro g hlegible hw hcaret hbar hdepth
    obtain ⟨hpow, hl, hr⟩ := hlegible
    rw [depth] at hdepth
    have hbarl : l.hasBar = true → g.bars 0 = false := fun h => hbar (by simp [hasBar, h])
    have hbarr : r.hasBar = true → g.bars 0 = false := fun h => hbar (by simp [hasBar, h])
    have hleft := ihl hl hw hcaret hbarl (by omega)
    have hop : Reads (g.operand l.isName) [.operator o.operator] _ := reads_infix rfl rfl o
    have hstart : (o.operator == .caret) = true → r.startsMinus = false := by
      intro h
      refine hpow ?_
      cases o <;> first | rfl | simp [Infix.operator] at h
    have hright := ihr (g := (g.operand l.isName).operator o.operator) hr rfl hstart hbarr
      (show g.openParens + r.depth < 64 by omega)
    exact hleft.append (hop.cons (by simpa [Gauge.operand, Gauge.operator, isName] using hright))
  | minus e ih =>
    intro g hlegible hw hcaret hbar hdepth
    have hnot : g.afterCaret = false :=
      Bool.eq_false_iff.mpr fun h => absurd (hcaret h) (by simp [startsMinus])
    have hminus := reads_minus hw hnot
    have harg := ih (g := { g with assignable := false }) hlegible hw
      (fun h => absurd (hnot.symm.trans h) Bool.false_ne_true) hbar hdepth
    exact hminus.cons (by simpa [Gauge.operand, isName] using harg)
  | modulus e ih =>
    intro g hlegible hw _ hbar hdepth
    have hdown : g.bars 0 = false := hbar rfl
    have hopen : Reads g [.operator .modulus] g.toggle := reads_modulus (by rw [hw, hdown]; rfl)
    have hin := ih (g := g.toggle) hlegible.2 hw (fun h => Bool.noConfusion h)
      (fun h => absurd (hlegible.1.symm.trans h) Bool.false_ne_true) hdepth
    have hclose : Reads (g.toggle.operand e.isName) [.operator .modulus] _ :=
      reads_modulus (by simp [Gauge.operand, Gauge.toggle, hdown])
    have hbars : (fun i => match i with | 0 => !!g.bars 0 | i + 1 => g.bars (i + 1)) = g.bars := by
      funext i
      cases i <;> simp
    have hafter : (g.toggle.operand e.isName).toggle = g.operand false := by
      simp only [Gauge.toggle, Gauge.operand, Bool.and_false, hbars]
    rw [hafter] at hclose
    exact hopen.cons (hin.append hclose)

end Expr

/-! ## Statements and branches -/

namespace Check

/-- What one statement leaves for the next. -/
structure Frame where
  elses : List Bool
  openIfs : Nat
  jumps : Nat
  colonSeen : Bool

namespace Frame

/-- The beginning of a statement. -/
def start (f : Frame) : Gauge :=
  { wantsOperand := true, fresh := true, assignable := true, afterCaret := false, openParens := 0,
    bars := fun _ => false, elses := f.elses, openIfs := f.openIfs, jumps := f.jumps,
    colonSeen := f.colonSeen }

/-- Just after a word that branches. -/
def branching (f : Frame) : Gauge :=
  { f.start with assignable := false }

/-- A place where a statement may end. -/
structure Ends (g : Gauge) (f : Frame) : Prop where
  complete : g.wantsOperand = true → g.fresh = true
  openParens : g.openParens = 0
  bars : ∀ i, g.bars i = false
  frame : (⟨g.elses, g.openIfs, g.jumps, g.colonSeen⟩ : Frame) = f

theorem Ends.start (f : Frame) : Ends f.start f :=
  ⟨fun _ => rfl, rfl, fun _ => rfl, rfl⟩

theorem Ends.branching (f : Frame) : Ends f.branching f :=
  ⟨fun _ => rfl, rfl, fun _ => rfl, rfl⟩

theorem Ends.operand {g : Gauge} {f : Frame} (h : Ends g f) (v : Bool) : Ends (g.operand v) f :=
  ⟨fun hw => Bool.noConfusion hw, h.openParens, h.bars, h.frame⟩

theorem reads_comma {g : Gauge} {f : Frame} (h : Ends g f) :
    Reads g [.operator .comma] f.start := by
  refine .of_read (by simp) (by simp) fun s size place hs => ?_
  obtain ⟨rfl, hfindings, hbars⟩ := hs
  obtain ⟨hdone, hopen, hdown, rfl⟩ := h
  have hparens : s.openParens = 0 := hopen
  have hup : s.bars.anyUp = false := State.anyUp_eq_false hdown
  have hfresh : s.wantsOperand = true → s.fresh = true := hdone
  cases hw : s.wantsOperand with
  | false =>
    constructor <;>
      simp [State.take, State.operator, State.separator, State.closeGroups, State.addChars,
        State.addOps, State.noteIf, hw, hparens, hup, hfindings, State.gauge, start, Nesting.flat]
  | true =>
    have hf := hfresh hw
    constructor <;>
      simp [State.take, State.operator, State.separator, State.closeGroups, State.addChars,
        State.addOps, State.noteIf, hw, hf, hparens, hup, hfindings, State.gauge, start,
        Nesting.flat]

theorem reads_colon {g : Gauge} {f : Frame} (h : Ends g f) (hopen : f.openIfs = 0)
    (hseen : f.colonSeen = false) :
    Reads g [.operator .colon] { f with colonSeen := true }.start := by
  refine .of_read (by simp) (by simp) fun s size place hs => ?_
  obtain ⟨rfl, hfindings, hbars⟩ := hs
  obtain ⟨hdone, hparens, hdown, rfl⟩ := h
  have hparens : s.openParens = 0 := hparens
  have hup : s.bars.anyUp = false := State.anyUp_eq_false hdown
  have hfresh : s.wantsOperand = true → s.fresh = true := hdone
  have hopen : s.openIfs = 0 := hopen
  have hseen : s.colonSeen = false := hseen
  cases hw : s.wantsOperand with
  | false =>
    constructor <;>
      simp [State.take, State.operator, State.separator, State.closeGroups, State.addChars,
        State.addOps, State.noteIf, State.colon, hw, hparens, hup, hopen, hseen, hfindings,
        State.gauge, start, Nesting.flat]
  | true =>
    have hf := hfresh hw
    constructor <;>
      simp [State.take, State.operator, State.separator, State.closeGroups, State.addChars,
        State.addOps, State.noteIf, State.colon, hw, hf, hparens, hup, hopen, hseen, hfindings,
        State.gauge, start, Nesting.flat]

/-- The end of the body. -/
theorem run_close {g : Gauge} {f : Frame} (h : Ends g f) (hopen : f.openIfs = 0)
    (hjumps : f.jumps < jumpLimit) {s : State} {t : Token} (hs : s.Clean g)
    (ht : t.lexeme = .close) : ∃ tally, run s [t] = .ok tally := by
  have hkind : t.kind = .close := by
    obtain ⟨text, kind, span⟩ := t
    cases kind <;> simp [Token.lexeme] at ht ⊢
  obtain ⟨rfl, hfindings, hbars⟩ := hs
  obtain ⟨hdone, hparens, hdown, rfl⟩ := h
  have hparens : s.openParens = 0 := hparens
  have hup : s.bars.anyUp = false := State.anyUp_eq_false hdown
  have hopen : s.openIfs = 0 := hopen
  have hlimit : ¬ jumpLimit ≤ s.tally.jumps := Nat.not_le.mpr hjumps
  have hend : (s.wantsOperand && !s.fresh) = false := by
    cases hw : s.wantsOperand with
    | false => rfl
    | true =>
      have hf : s.fresh = true := hdone hw
      rw [hf]; rfl
  have hread : (s.read t).findings = [] := by
    rw [State.read_eq_take, ht]
    simp [State.take, State.close, State.closeGroups, State.addChars, State.addOps, State.noteIf,
      hparens, hup, hopen, hlimit, hend, hfindings]
  refine ⟨(s.read t).tally, ?_⟩
  rw [run, if_neg (by simp [hkind])]
  simp only [hkind, true_or, if_true, State.verdict, hread, List.isEmpty_nil]

/-! ### Words that branch -/

/-- Inside a new group.  The outermost level is forgotten when there is no room for one more. -/
def inner (f : Frame) : Frame :=
  { f with
    elses := (false :: f.elses).take Nesting.depth, openIfs := f.openIfs + 1, jumps := f.jumps + 1 }

/-- After the `elseif` of a group. -/
def next (f : Frame) : Frame :=
  { f with jumps := f.jumps + 2 }

/-- After the `else` of a group. -/
def last (f : Frame) : Frame :=
  { f with elses := true :: f.elses.tail, jumps := f.jumps + 1 }

/-- After the `endif` of a group. -/
def outer (f : Frame) : Frame :=
  { f with elses := f.elses.tail, openIfs := f.openIfs - 1, jumps := f.jumps + 1 }

theorem reads_if (f : Frame) : Reads f.start [.flow .if] f.inner.branching := by
  refine .of_read (by simp) (by simp) fun s size place hs => ?_
  obtain ⟨hgauge, hfindings, hbars⟩ := hs
  have hfresh : s.fresh = true := congrArg Gauge.fresh hgauge
  have hstate : s.take (.flow .if) size place =
      { s with
        tally := ⟨s.tally.ops + 1, s.tally.loads, s.tally.stores, s.tally.jumps + 1,
          s.tally.chars + size, true⟩,
        assignable := false, afterCaret := false, elses := s.elses.enter,
        openIfs := s.openIfs + 1 } := by
    simp [State.take, State.flow, State.addChars, State.addOps, State.addJumps, hfresh]
  rw [hstate]
  exact ⟨congrArg (fun g : Gauge => { g with
    assignable := false, afterCaret := false, elses := (false :: g.elses).take Nesting.depth,
    openIfs := g.openIfs + 1, jumps := g.jumps + 1 }) hgauge, hfindings, hbars⟩

theorem reads_elseIf {f : Frame} (hopen : f.openIfs ≠ 0) (helse : f.elses.headD false = false) :
    Reads f.start [.flow .elseIf] f.next.branching := by
  refine .of_read (by simp) (by simp) fun s size place hs => ?_
  obtain ⟨hgauge, hfindings, hbars⟩ := hs
  have hfresh : s.fresh = true := congrArg Gauge.fresh hgauge
  have hifs : s.openIfs ≠ 0 := fun h => hopen ((congrArg Gauge.openIfs hgauge).symm.trans h)
  have hup : s.elses.isUp = false :=
    (congrArg (fun g : Gauge => g.elses.headD false) hgauge).trans helse
  have hstate : s.take (.flow .elseIf) size place =
      { s with
        tally := ⟨s.tally.ops + 1 + 3, s.tally.loads, s.tally.stores, s.tally.jumps + 1 + 1,
          s.tally.chars + size, true⟩,
        assignable := false, afterCaret := false } := by
    simp [State.take, State.flow, State.branch, State.addChars, State.addOps, State.addJumps,
      State.noteIf, hfresh, hifs, hup]
  rw [hstate]
  exact ⟨congrArg (fun g : Gauge => { g with
    assignable := false, afterCaret := false, jumps := g.jumps + 2 }) hgauge, hfindings, hbars⟩

theorem reads_else {f : Frame} (hopen : f.openIfs ≠ 0) (helse : f.elses.headD false = false) :
    Reads f.start [.flow .else] f.last.branching := by
  refine .of_read (by simp) (by simp) fun s size place hs => ?_
  obtain ⟨hgauge, hfindings, hbars⟩ := hs
  have hfresh : s.fresh = true := congrArg Gauge.fresh hgauge
  have hifs : s.openIfs ≠ 0 := fun h => hopen ((congrArg Gauge.openIfs hgauge).symm.trans h)
  have hup : s.elses.isUp = false :=
    (congrArg (fun g : Gauge => g.elses.headD false) hgauge).trans helse
  have hstate : s.take (.flow .else) size place =
      { s with
        tally := ⟨s.tally.ops + 1, s.tally.loads, s.tally.stores, s.tally.jumps + 1,
          s.tally.chars + size, true⟩,
        assignable := false, afterCaret := false, elses := s.elses.set true } := by
    simp [State.take, State.flow, State.branch, State.addChars, State.addOps, State.addJumps,
      State.noteIf, hfresh, hifs, hup]
  rw [hstate]
  exact ⟨congrArg (fun g : Gauge => { g with
    assignable := false, afterCaret := false, elses := true :: g.elses.tail,
    jumps := g.jumps + 1 }) hgauge, hfindings, hbars⟩

theorem reads_endIf {f : Frame} (hopen : f.openIfs ≠ 0) :
    Reads f.start [.flow .endIf] f.outer.branching := by
  refine .of_read (by simp) (by simp) fun s size place hs => ?_
  obtain ⟨hgauge, hfindings, hbars⟩ := hs
  have hfresh : s.fresh = true := congrArg Gauge.fresh hgauge
  have hifs : s.openIfs ≠ 0 := fun h => hopen ((congrArg Gauge.openIfs hgauge).symm.trans h)
  have hstate : s.take (.flow .endIf) size place =
      { s with
        tally := ⟨s.tally.ops + 1, s.tally.loads, s.tally.stores, s.tally.jumps + 1,
          s.tally.chars + size, true⟩,
        assignable := false, afterCaret := false, elses := s.elses.leave,
        openIfs := s.openIfs - 1 } := by
    simp [State.take, State.flow, State.addChars, State.addOps, State.addJumps, hfresh, hifs]
  rw [hstate]
  exact ⟨congrArg (fun g : Gauge => { g with
    assignable := false, afterCaret := false, elses := g.elses.tail, openIfs := g.openIfs - 1,
    jumps := g.jumps + 1 }) hgauge, hfindings, hbars⟩

/-! ### Whole blocks -/

/-- `f'` is how `f` is left by complete groups with `n` entries of the jump table.  Of the levels
outside these groups some may have been forgotten. -/
structure After (f : Frame) (n : Nat) (f' : Frame) : Prop where
  elses : f'.elses <+: f.elses
  openIfs : f'.openIfs = f.openIfs
  jumps : f'.jumps = f.jumps + n
  colonSeen : f'.colonSeen = f.colonSeen

theorem After.refl (f : Frame) : f.After 0 f :=
  ⟨List.prefix_refl _, rfl, rfl, rfl⟩

theorem After.trans {f f' f'' : Frame} {m n : Nat} (h : f.After m f') (h' : f'.After n f'') :
    f.After (m + n) f'' :=
  ⟨h'.elses.trans h.elses, h'.openIfs.trans h.openIfs, by rw [h'.jumps, h.jumps, Nat.add_assoc],
    h'.colonSeen.trans h.colonSeen⟩

/-- What can be read of a statement. -/
def Readable (e : Expr) : Prop :=
  e.Legible ∧ e.depth < 64

theorem reads_condition {f : Frame} {c : Expr} (h : Readable c) :
    ∃ g, Ends g f ∧ Reads f.branching c.lexemes g := by
  refine ⟨_, (Ends.branching f).operand c.isName, c.reads h.1 rfl (fun h => Bool.noConfusion h)
    (fun _ => rfl) ?_⟩
  show 0 + c.depth < 64
  rw [Nat.zero_add]
  exact h.2

/-- After some assignments a statement is as it was, but no longer fresh. -/
theorem reads_targets (f : Frame) (targets : List String) (b : Bool) :
    ∃ b', Reads { f.start with fresh := b }
      (targets.flatMap fun v => [.name v, .operator .assign]) { f.start with fresh := b' } := by
  induction targets generalizing b with
  | nil => exact ⟨b, .nil _⟩
  | cons v targets ih =>
    obtain ⟨b', hrest⟩ := ih false
    have hname := (reads_operand (g := { f.start with fresh := b }) rfl).1 v
    have hassign := reads_assign (g := Gauge.operand { f.start with fresh := b } true) rfl rfl
    exact ⟨b', (hname.cons hassign).append hrest⟩

theorem reads_statement (f : Frame) {s : Statement} (h : Readable s.value) :
    ∃ g, Ends g f ∧ Reads f.start s.lexemes g := by
  obtain ⟨b, htargets⟩ := reads_targets f s.targets true
  have hvalue := s.value.reads (g := { f.start with fresh := b }) h.1 rfl
    (fun h => Bool.noConfusion h) (fun _ => rfl)
    (show 0 + s.value.depth < 64 by rw [Nat.zero_add]; exact h.2)
  exact ⟨_, ⟨fun h => Bool.noConfusion h, rfl, fun _ => rfl, rfl⟩, htargets.append hvalue⟩

/-- In a group whose `else` has not come, all levels but the innermost may have been forgotten. -/
theorem headD_eq_false {levels flags : List Bool} (h : flags <+: false :: levels) :
    flags.headD false = false := by
  cases flags with
  | nil => rfl
  | cons b flags => exact (List.cons_prefix_cons.mp h).1

theorem tail_prefix_tail {l l' : List Bool} (h : l <+: l') : l.tail <+: l'.tail := by
  cases l with
  | nil => exact List.nil_prefix
  | cons a l =>
    cases l' with
    | nil => simp at h
    | cons a' l' => exact (List.cons_prefix_cons.mp h).2

mutual

/-- A passage is read from wherever its first item may begin. -/
theorem reads_passage {b : Break} {f : Frame} {g : Gauge} :
    ∀ {x : Passage}, x.All Readable → Ends g f → Reads g b.lexemes f.start →
      ∃ f' g', f.After x.words.length f' ∧ Ends g' f' ∧ Reads g (x.lexemes b) g'
  | .nil, _, hend, _ => ⟨f, g, .refl f, hend, .nil g⟩
  | .blank next, h, _, hb => by
    have hstart := Ends.start f
    obtain ⟨f', g', hafter, hend, hnext⟩ :=
      reads_passage (b := .comma) (x := next) h hstart (reads_comma hstart)
    exact ⟨f', g', hafter, hend, hb.append hnext⟩
  | .statement s next, h, _, hb => by
    obtain ⟨g₁, hend₁, hs⟩ := reads_statement f h.1
    obtain ⟨f', g', hafter, hend, hnext⟩ :=
      reads_passage (b := .comma) h.2 hend₁ (reads_comma hend₁)
    exact ⟨f', g', hafter, hend, (hb.append hs).append hnext⟩
  | .branch c body rest next, h, _, hb => by
    obtain ⟨⟨_, hc⟩, hbody, hrest, hnext⟩ := h
    obtain ⟨g₁, hend₁, hcond⟩ := reads_condition (f := f.inner) hc
    obtain ⟨f₂, g₂, hafter₂, hend₂, hbody⟩ :=
      reads_passage (b := .comma) hbody hend₁ (reads_comma hend₁)
    have hlevel : f₂.elses <+: false :: f.elses :=
      hafter₂.elses.trans (List.take_prefix _ _)
    obtain ⟨f₃, g₃, hafter₃, hend₃, hrest⟩ := reads_closing hrest hend₂ hlevel hafter₂.openIfs
    obtain ⟨f₄, g₄, hafter₄, hend₄, hnext⟩ :=
      reads_passage (b := .comma) hnext hend₃ (reads_comma hend₃)
    have hgroup : f.After (1 + body.words.length + rest.words.length) f₃ := by
      refine ⟨hafter₃.elses, hafter₃.openIfs, ?_, hafter₃.colonSeen.trans hafter₂.colonSeen⟩
      rw [hafter₃.jumps, hafter₂.jumps]
      show f.jumps + 1 + _ + _ = _
      omega
    refine ⟨f₄, g₄, ?_, hend₄, ?_⟩
    · have := hgroup.trans hafter₄
      simpa [Passage.words, Nat.add_comm, Nat.add_left_comm, Nat.add_assoc] using this
    · exact (((hb.append ((reads_if f).cons hcond)).append hbody).append hrest).append hnext

theorem reads_closing {f : Frame} {g : Gauge} {levels : List Bool} {n : Nat} :
    ∀ {x : Closing}, x.All Readable → Ends g f → f.elses <+: false :: levels →
      f.openIfs = n + 1 →
      ∃ f' g', Frame.After { f with elses := levels, openIfs := n } x.words.length f' ∧
        Ends g' f' ∧ Reads g x.lexemes g'
  | .endIf, _, hend, hlevel, hopen => by
    have hend' := reads_endIf (f := f) (by omega)
    refine ⟨f.outer, _, ⟨tail_prefix_tail hlevel, ?_, rfl, rfl⟩, .branching _,
      (reads_comma hend).cons hend'⟩
    show f.openIfs - 1 = n
    omega
  | .else body, h, hend, hlevel, hopen => by
    have helse := reads_else (f := f) (by omega) (headD_eq_false hlevel)
    have hstart := Ends.branching f.last
    obtain ⟨f₂, g₂, hafter, hend₂, hbody⟩ :=
      reads_passage (b := .comma) (x := body) h hstart (reads_comma hstart)
    have hopen₂ : f₂.openIfs = n + 1 := hafter.openIfs.trans hopen
    have hlevel₂ : f₂.elses.tail <+: f.last.elses.tail := tail_prefix_tail hafter.elses
    have hend' := reads_endIf (f := f₂) (by omega)
    refine ⟨f₂.outer, _, ⟨hlevel₂.trans (tail_prefix_tail hlevel), ?_, ?_, hafter.colonSeen⟩,
      .branching _,
      (((reads_comma hend).cons helse).append hbody).append ((reads_comma hend₂).cons hend')⟩
    · show f₂.openIfs - 1 = n
      omega
    · show f₂.jumps + 1 = f.jumps + (Closing.else body).words.length
      rw [hafter.jumps, Closing.words, List.length_append, List.length_cons,
        List.length_singleton]
      show f.jumps + 1 + _ + 1 = _
      omega
  | .elseIf c body rest, h, hend, hlevel, hopen => by
    obtain ⟨⟨_, hc⟩, hbody, hrest⟩ := h
    have helseIf := reads_elseIf (f := f) (by omega) (headD_eq_false hlevel)
    obtain ⟨g₁, hend₁, hcond⟩ := reads_condition (f := f.next) hc
    obtain ⟨f₂, g₂, hafter, hend₂, hbody⟩ :=
      reads_passage (b := .comma) hbody hend₁ (reads_comma hend₁)
    obtain ⟨f₃, g₃, hafter₃, hend₃, hrest⟩ :=
      reads_closing hrest hend₂ (hafter.elses.trans hlevel) (hafter.openIfs.trans hopen)
    refine ⟨f₃, g₃, ⟨hafter₃.elses, hafter₃.openIfs, ?_, hafter₃.colonSeen.trans hafter.colonSeen⟩,
      hend₃, (((reads_comma hend).cons (helseIf.cons hcond)).append hbody).append hrest⟩
    rw [hafter₃.jumps, Closing.words, List.length_append, List.length_cons, List.length_cons]
    show f₂.jumps + _ = f.jumps + _
    rw [hafter.jumps]
    show f.jumps + 2 + _ + _ = _
    omega

end

end Frame

end Check

/-! ## Whole bodies -/

namespace Script

open Check Check.Frame

/-- The whole body but for its closing brace. -/
theorem reads {s : Script} (h : s.All Readable) :
    ∃ f g ls, s.lexemes = ls ++ [.close] ∧ Reads (Frame.start ⟨[], 0, 0, false⟩) ls g ∧
      Ends g f ∧ f.openIfs = 0 ∧ f.jumps = s.words.length := by
  obtain ⟨init, loop⟩ := s
  cases init with
  | none =>
    obtain ⟨f, g, hafter, hend, hloop⟩ :=
      reads_passage (b := .none) h.2 (.start _) (.nil _)
    exact ⟨f, g, _, rfl, hloop, hend, hafter.openIfs, hafter.jumps.trans (Nat.zero_add _)⟩
  | some init =>
    obtain ⟨f, g, hafter, hend, hinit⟩ :=
      reads_passage (b := .none) (f := ⟨[], 0, 0, false⟩) (h.1 init rfl) (.start _) (.nil _)
    have hcolon := reads_colon hend hafter.openIfs hafter.colonSeen
    obtain ⟨f', g', hafter', hend', hloop⟩ :=
      reads_passage (b := .none) h.2 (.start { f with colonSeen := true }) (.nil _)
    refine ⟨f', g', init.lexemes .none ++ .operator .colon :: loop.lexemes .none,
      by simp [Script.lexemes], hinit.append (hcolon.cons hloop), hend',
      hafter'.openIfs.trans hafter.openIfs, ?_⟩
    rw [hafter'.jumps]
    show f.jumps + _ = (init.words ++ loop.words).length
    rw [hafter.jumps, List.length_append, Nat.zero_add]

/-- After a leading comma, if there is one, what is written down is accepted. -/
theorem check_of_lexemes {s : Script} {b : Break} {text : String} {offset : Nat}
    (h : s.All Readable) (hjumps : s.words.length < jumpLimit) (hb : b ≠ .colon)
    (htokens : (Token.stream (Cursor.seek text offset)).map Token.lexeme = b.lexemes ++ s.lexemes) :
    ∃ tally, check text offset = .ok tally := by
  have hlead : Reads (Frame.start ⟨[], 0, 0, false⟩) b.lexemes (Frame.start ⟨[], 0, 0, false⟩) := by
    cases b with
    | none => exact .nil _
    | comma => exact reads_comma (.start _)
    | colon => exact absurd rfl hb
  obtain ⟨f, g, ls, hls, hreads, hend, hopen, hcount⟩ := reads h
  rw [hls, ← List.append_assoc] at htokens
  obtain ⟨ts, us, hstream, hts, hus⟩ := List.map_eq_append_iff.mp htokens
  obtain ⟨t, rfl, ht⟩ := List.map_eq_singleton_iff.mp hus
  have hclean : (State.start offset).Clean (Frame.start ⟨[], 0, 0, false⟩) := by
    refine ⟨?_, rfl, Nat.zero_le _⟩
    simp [State.gauge, State.start, Frame.start, Nesting.flat]
  obtain ⟨s', hs', hrun⟩ := hlead.append hreads _ ts [t] hclean hts
  rw [check, hstream, hrun]
  exact run_close hend hopen (hcount ▸ hjumps) hs' ht

end Script

/-- Up to the first fault are all tokens, or the last is a fault. -/
theorem Token.untilFault_or (tokens : List Token) : Token.untilFault tokens = tokens ∨
    ∃ t ∈ (Token.untilFault tokens).getLast?, t.isFault = true := by
  induction tokens with
  | nil => exact .inl rfl
  | cons t rest ih =>
    by_cases ht : t.isFault = true
    · exact .inr ⟨t, by simp [Token.untilFault, ht], ht⟩
    · rcases ih with ih | ⟨u, hu, hfault⟩
      · exact .inl (by simp [Token.untilFault, ht, ih])
      · refine .inr ⟨u, ?_, hfault⟩
        simp only [Token.untilFault, ht, Bool.false_eq_true, if_false]
        rw [List.getLast?_cons, Option.mem_def.mp hu]
        rfl

namespace Script

open Check

/-- The check accepts every body that is written as it should be: between its separators stand
statements, some of them empty, and branches, and no expression or condition is deeper than 63
parentheses; at most one of the separators is a colon, outside all branches, and the branches take
fewer entries of the jump table than there are. -/
theorem accepted {s : Script} {text : String} {offset : Nat} (h : s.All Frame.Readable)
    (hjumps : s.words.length < jumpLimit)
    (hbody : (Token.body text offset).map Token.lexeme = s.lexemes) :
    ∃ tally, check text offset = .ok tally := by
  refine check_of_lexemes (b := .none) h hjumps nofun ?_
  obtain hall | ⟨t, ht, hfault⟩ := Token.untilFault_or (Token.stream (Cursor.seek text offset))
  · rwa [Token.body, hall] at hbody
  · obtain ⟨-, -, ls, hls, -⟩ := reads h
    have hlast : t.lexeme = .close := by
      have hmap := congrArg List.getLast? hbody
      rw [hls, List.getLast?_concat, List.getLast?_map, Token.body, Option.mem_def.mp ht] at hmap
      exact Option.some.inj hmap
    obtain ⟨text, kind, place⟩ := t
    cases kind <;> simp [Token.lexeme, Token.isFault] at hlast hfault

theorem accepted_modulus :
    let text := "\nz=-2:\nif(z)\nx=z=|-z|^p1+sin(c)\nelse\nendif\n\x7d"
    let z := Expr.name "z"
    let two := Expr.literal "2" ⟨Decimal.leading ['2'], 0⟩ false
    let value : Expr :=
      .binary .add (.binary .pow (.modulus (.minus z)) (.name "p1")) (.call .sin (.group (.name "c")))
    let s : Script :=
      ⟨some (.blank (.statement ⟨["z"], .minus two⟩ .nil)),
        .branch (.group z) (.statement ⟨["x", "z"], value⟩ .nil) (.else .nil) .nil⟩
    s.All Frame.Readable ∧ s.words.length < jumpLimit ∧
      (Token.body text 0).map Token.lexeme = s.lexemes ∧ ∃ tally, check text 0 = .ok tally := by
  intro text z two value s
  have hall : s.All Frame.Readable := by
    simp [s, value, z, two, All, Passage.All, Closing.All, Frame.Readable, Expr.Legible,
      Expr.isBracketed, Expr.depth, Expr.startsMinus, Expr.hasBar]
  have hwords : s.words.length < jumpLimit := by decide
  have hbody : (Token.body text 0).map Token.lexeme = s.lexemes := by
    rw [Token.body, Token.stream_eq_firstTokens (n := 60) (by decide +kernel)]
    decide +kernel
  exact ⟨hall, hwords, hbody, accepted hall hwords hbody⟩

end Script

namespace Source

open Check Check.Frame

/-- Bodies that trees render are accepted: their parentheses are nested fewer than 64 deep and their
branches take fewer entries of the jump table than there are. -/
theorem check_of_renders {s : Source} {text : String} {offset : Nat} (h : s.All Readable)
    (hjumps : s.words.length < jumpLimit)
    (hrender : s.Renders (Token.stream (Cursor.seek text offset))) :
    ∃ tally, check text offset = .ok tally := by
  obtain ⟨b, hb, htokens⟩ := hrender
  rw [← lexemes_script h] at htokens
  rw [← s.words_script] at hjumps
  exact Script.check_of_lexemes (all_script h) hjumps hb htokens

end Source
end FractalFormula
