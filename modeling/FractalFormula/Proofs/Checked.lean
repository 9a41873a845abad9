/-
What the check assures of a program.

The words of the jump table, the jump instructions and the end of the init section come from the
same lexemes (`Compile.adds_takeAll`), so the table of an accepted body is balanced and has an entry
for every jump of the code, and the init section ends once (`checked_of_check`).
-/
import FractalFormula.Proofs.Balance
import FractalFormula.Proofs.Compile
import FractalFormula.Proofs.Postfix

namespace FractalFormula

open Compile

/-! ## The tables of jumps -/

namespace Lexeme

/-- The jumps and marks that a lexeme queues. -/
def marks : Lexeme → List Opcode
  | .flow .if => [.jumpOnFalse]
  | .flow .elseIf => [.jump, .jumpOnFalse]
  | .flow .else => [.jump]
  | .flow .endIf => [.label]
  | .operator .colon => [.endInit]
  | _ => []

end Lexeme

/-- What has an entry in the jump table, or ends the init section. -/
def Opcode.isMark (op : Opcode) : Bool :=
  op.isJump || op == .endInit

namespace Compile

/-- How many of the pending instructions satisfy `q`. -/
def Draft.awaiting (d : Draft) (q : Opcode → Bool) : Nat :=
  (d.pending.filterMap Pending.op).countP q

/-- `d'` has no more jumps and marks than `d`. -/
structure Quiet (d d' : Draft) : Prop where
  jumps : d'.jumps = d.jumps
  hasInit : d'.hasInit = d.hasInit
  awaiting : ∀ q : Opcode → Bool, (∀ op, q op = true → op.isMark = true) →
    d'.awaiting q ≤ d.awaiting q

namespace Quiet

variable {d d' d'' : Draft}

/-- The pending instructions are the same, or the last of them is gone. -/
theorem of_pending (hjumps : d'.jumps = d.jumps) (hinit : d'.hasInit = d.hasInit)
    (h : d'.pending <:+ d.pending) : Quiet d d' :=
  ⟨hjumps, hinit, fun _ _ => (h.sublist.filterMap _).countP_le⟩

theorem push (h : Quiet d d') {op : Opcode} (hop : op.isMark = false) (base : Int) :
    Quiet d (d'.push op base) := by
  refine ⟨h.jumps, h.hasInit, fun q hq => ?_⟩
  have hno : ¬ q op = true := fun hyes => Bool.noConfusion (hop.symm.trans (hq op hyes))
  have hpush : (d'.push op base).awaiting q = d'.awaiting q :=
    List.countP_cons_of_neg hno
  rw [hpush]
  exact h.awaiting q hq

theorem load (h : Quiet d d') (slot : Nat) (base : Int) : Quiet d (d'.load slot base) := by
  have hloads : Quiet d { d' with loads := slot :: d'.loads } := ⟨h.jumps, h.hasInit, h.awaiting⟩
  exact hloads.push rfl base

theorem name (d : Draft) (text : String) : Quiet d (d.take (.name text)) := by
  match d.take (.name text), nameTaken d text with
  | _, .known _ | _, .fresh _ =>
    refine load ?_ _ _
    exact of_pending rfl rfl (List.suffix_refl _)

theorem literal (d : Draft) (text : String) (z : Complex Float) (isPair : Bool) :
    Quiet d (d.take (.literal text z isPair)) := by
  match isPair, d.take (.literal text z isPair), literalTaken d text z isPair with
  | _, _, .known _ | _, _, .plain .. =>
    refine load ?_ _ _
    exact of_pending rfl rfl (List.suffix_refl _)
  | _, _, .signed _ hsign =>
    refine load ?_ _ _
    exact of_pending rfl rfl (hsign ▸ List.suffix_cons _ _)

theorem infixOperator (d : Draft) {op : Opcode} (hop : op.isMark = false) (base : Int) :
    Quiet d (d.infixOperator op base) := by
  have hd : Quiet d { d with wantsOperand := true } := of_pending rfl rfl (List.suffix_refl _)
  exact hd.push hop base

theorem modulus (d : Draft) : Quiet d d.modulus := by
  unfold Draft.modulus
  split
  · exact of_pending rfl rfl (List.suffix_refl _)
  · have hbars : Quiet d { d with bars := d.bar :: d.bars } :=
      of_pending rfl rfl (List.suffix_refl _)
    have hmod : Opcode.mod.isMark = false := rfl
    have h := hbars.push hmod 2
    exact ⟨h.jumps, h.hasInit, h.awaiting⟩

theorem assign (d : Draft) : Quiet d d.assign := by
  unfold Draft.assign
  refine ⟨rfl, rfl, fun q hq => ?_⟩
  have hstore : ¬ q .store = true := fun hyes => Bool.noConfusion (hq _ hyes)
  cases hd : d.pending with
  | nil => exact Nat.zero_le _
  | cons p rest =>
    have hrest : rest <:+ d.pending := hd ▸ List.suffix_cons p rest
    have hle := (hrest.sublist.filterMap Pending.op).countP_le (p := q)
    refine Nat.le_trans (Nat.le_of_eq ?_) hle
    exact List.countP_cons_of_neg hstore

theorem endStatement (d : Draft) : Quiet d (d.endStatement .clear) := by
  refine ⟨rfl, rfl, fun q hq => ?_⟩
  have hclear : ¬ q .clear = true := fun hyes => Bool.noConfusion (hq _ hyes)
  exact Nat.le_of_eq (List.countP_cons_of_neg hclear)

end Quiet

/-- What a lexeme adds to the jumps and marks of a draft. -/
structure Adds (d d' : Draft) (l : Lexeme) : Prop where
  jumps : d'.jumps = (l.words.map JumpEntry.unresolved).reverse ++ d.jumps
  hasInit : d'.hasInit = (d.hasInit || l == .operator .colon)
  awaiting : ∀ q : Opcode → Bool, (∀ op, q op = true → op.isMark = true) →
    d'.awaiting q ≤ d.awaiting q + l.marks.countP q

theorem Quiet.adds {d d' : Draft} (h : Quiet d d') {l : Lexeme} (hwords : l.words = [])
    (hl : (l == .operator .colon) = false) : Adds d d' l :=
  ⟨by rw [h.jumps, hwords]; rfl, by rw [h.hasInit, hl, Bool.or_false],
    fun q hq => Nat.le_trans (h.awaiting q hq) (Nat.le_add_right _ _)⟩

theorem countP_cons_eq (q : Opcode → Bool) (op : Opcode) (ops : List Opcode) :
    (op :: ops).countP q = ops.countP q + [op].countP q := by
  rw [List.countP_cons, List.countP_singleton]

theorem adds_operator (d : Draft) (o : Operator) : Adds d (d.operator o) (.operator o) := by
  cases o with
  | comma =>
    refine Quiet.adds ?_ rfl rfl
    unfold Draft.operator
    dsimp only
    split
    · exact .of_pending rfl rfl (List.suffix_refl _)
    · exact .endStatement d
  | colon =>
    refine ⟨rfl, (Bool.or_true _).symm, fun q _ => ?_⟩
    exact Nat.le_of_eq (countP_cons_eq q _ _)
  | assign => exact Quiet.adds (.assign d) rfl rfl
  | modulus => exact Quiet.adds (.modulus d) rfl rfl
  | minus =>
    refine Quiet.adds ?_ rfl rfl
    unfold Draft.operator
    dsimp only
    split
    · exact .push (.of_pending rfl rfl (List.suffix_refl _)) rfl 2
    · exact .infixOperator d rfl 4
  | _ => exact Quiet.adds (.infixOperator d rfl _) rfl rfl

theorem adds_flow (d : Draft) (w : FlowWord) : Adds d (d.flow w) (.flow w) := by
  cases w with
  | elseIf =>
    refine ⟨rfl, (Bool.or_false _).symm, fun q hq => ?_⟩
    have hclear : ¬ q .clear = true := fun hyes => Bool.noConfusion (hq _ hyes)
    let ops := d.pending.filterMap Pending.op
    have hcount : (.jumpOnFalse :: .clear :: .jump :: ops).countP q =
        ops.countP q + [.jump, .jumpOnFalse].countP q := by
      rw [List.countP_cons, List.countP_cons_of_neg hclear, List.countP_cons, List.countP_cons,
        List.countP_singleton]
      omega
    exact Nat.le_of_eq hcount
  | _ =>
    refine ⟨rfl, (Bool.or_false _).symm, fun q _ => ?_⟩
    exact Nat.le_of_eq (countP_cons_eq q _ _)

theorem adds_take (d : Draft) (l : Lexeme) : Adds d (d.take l) l := by
  have same : Quiet d d := .of_pending rfl rfl (List.suffix_refl _)
  cases l with
  | operator o => exact adds_operator d o
  | flow w => exact adds_flow d w
  | leftParen | rightParen =>
    refine Quiet.adds ?_ rfl rfl
    exact .of_pending rfl rfl (List.suffix_refl _)
  | name text => exact Quiet.adds (.name d text) rfl rfl
  | literal text value isPair => exact Quiet.adds (.literal d text value isPair) rfl rfl
  | call f =>
    have hd : Quiet d { d with wantsOperand := true, usage := d.usage.noteCall f } :=
      .of_pending rfl rfl (List.suffix_refl _)
    exact Quiet.adds (hd.push rfl 1) rfl rfl
  | close | fault => exact Quiet.adds same rfl rfl

/-- What lexemes add to the jumps and marks of a draft. -/
theorem adds_takeAll (ls : List Lexeme) : ∀ d : Draft,
    (d.takeAll ls).jumps = ((ls.flatMap Lexeme.words).map JumpEntry.unresolved).reverse ++ d.jumps ∧
      (d.takeAll ls).hasInit = (d.hasInit || ls.contains (.operator .colon)) ∧
      ∀ q : Opcode → Bool, (∀ op, q op = true → op.isMark = true) →
        (d.takeAll ls).awaiting q ≤ d.awaiting q + (ls.flatMap Lexeme.marks).countP q := by
  induction ls with
  | nil => exact fun d => ⟨rfl, (Bool.or_false _).symm, fun _ _ => Nat.le_refl _⟩
  | cons l ls ih =>
    intro d
    have hl := adds_take d l
    obtain ⟨hjumps, hinit, hcount⟩ := ih (d.take l)
    rw [Draft.takeAll_cons]
    refine ⟨?_, ?_, fun q hq => ?_⟩
    · rw [hjumps, hl.jumps, List.flatMap_cons, List.map_append, List.reverse_append,
        List.append_assoc]
    · have hcomm : (l == .operator .colon) = (Lexeme.operator .colon == l) := BEq.comm
      rw [hinit, hl.hasInit, List.contains_cons, Bool.or_assoc, hcomm]
    · have := hl.awaiting q hq
      have := hcount q hq
      rw [List.flatMap_cons, List.countP_append]
      omega

theorem countP_code (d : Draft) (text : String) (q : Opcode → Bool) :
    (d.finish text).code.countP q = d.awaiting q := by
  show (Pending.linearize d.pending.reverse).countP q = _
  rw [(Pending.linearize_perm _).countP_eq, Pending.outputs, List.filterMap_reverse,
    List.countP_reverse]
  rfl

theorem countP_marks (ls : List Lexeme) :
    (ls.flatMap Lexeme.marks).countP Opcode.isJump = (ls.flatMap Lexeme.words).length ∧
      (ls.flatMap Lexeme.marks).count .endInit = ls.count (.operator .colon) := by
  induction ls with
  | nil => exact ⟨rfl, rfl⟩
  | cons l ls ih =>
    have hl : l.marks.countP Opcode.isJump = l.words.length ∧
        l.marks.count .endInit = [l].count (.operator .colon) := by
      cases l with
      | flow w => cases w <;> exact ⟨rfl, rfl⟩
      | operator o => cases o <;> exact ⟨rfl, rfl⟩
      | _ => exact ⟨rfl, rfl⟩
    rw [List.flatMap_cons, List.flatMap_cons, List.countP_append, List.count_append,
      List.length_append, ih.1, ih.2, hl.1, hl.2, ← List.count_append]
    exact ⟨rfl, rfl⟩

end Compile

/-! ## Checked programs -/

/-- There are no more ends of an init section than colons. -/
theorem count_endInit_le (env : Environment) (formula : String) (ls : List Lexeme) :
    (((Draft.start env).takeAll ls).finish formula).code.count .endInit ≤
      ls.count (.operator .colon) := by
  have hcount := (adds_takeAll ls (.start env)).2.2 (· == .endInit) fun op hop => by
    simp [Opcode.isMark, hop]
  rw [List.count, countP_code, ← (countP_marks ls).2]
  exact Nat.le_trans hcount (Nat.le_of_eq (Nat.zero_add _))

/-- What the check assures of a program whose jumps lead nowhere yet. -/
structure Program.Checked (p : Program) : Prop where
  jumps : ∃ words, Balanced 0 words ∧ p.jumps = words.map .unresolved ∧
    p.code.countP Opcode.isJump ≤ words.length
  ends : p.code.count .endInit ≤ 1
  noInit : p.hasInit = false → .endInit ∉ p.code

theorem checked_of_check {text : String} {offset : Nat} {tally : Tally}
    (h : check text offset = .ok tally) (env : Environment) :
    (compile (Token.body text offset) env).Checked := by
  obtain ⟨pre, t, rest, hstream, ht, hpre, hthreads⟩ := exists_of_check h
  have hcolon := Check.count_colon_of_threads hthreads
  have hbody : Token.body text offset = Token.untilFault (pre ++ t :: rest) := by
    rw [Token.body, hstream]
  let ls := pre.map Token.lexeme
  let d := (Draft.start env).takeAll ls
  have hcompile : compile (Token.body text offset) env =
      d.finish (String.join ((significant (Token.body text offset)).map Token.text)) := by
    rw [compile, hbody, foldl_significant_append ht hpre]
  obtain ⟨hjumps, hinit, hcount⟩ := adds_takeAll ls (.start env)
  have hends := count_endInit_le env
    (String.join ((significant (Token.body text offset)).map Token.text)) ls
  rw [hcompile]
  refine ⟨⟨ls.flatMap Lexeme.words, Check.balanced_of_threads hthreads, ?_, ?_⟩, ?_, ?_⟩
  · show d.jumps.reverse = _
    rw [hjumps, List.reverse_append, List.reverse_reverse]
    rfl
  · have := hcount Opcode.isJump fun op hop => by simp [Opcode.isMark, hop]
    rw [countP_code, ← (countP_marks ls).1]
    exact Nat.le_trans this (Nat.le_of_eq (Nat.zero_add _))
  · exact Nat.le_trans hends hcolon
  · intro hno
    have hno' : ls.contains (.operator .colon) = false :=
      (Bool.or_eq_false_iff.mp (hinit.symm.trans hno)).2
    have hzero : ls.count (.operator .colon) = 0 :=
      List.count_eq_zero.mpr (by simpa using hno')
    rw [← List.count_eq_zero]
    exact Nat.eq_zero_of_le_zero (hzero ▸ hends)

end FractalFormula
