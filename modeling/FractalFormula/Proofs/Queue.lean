/-
What a lexeme queues.

A lexeme puts the operators `Lexeme.queued` behind those that a draft has, of which it takes away the
last at most: a sign that becomes part of a literal, or what an assignment puts its store in place of
(`Compile.pending_take`).  Nothing that is proved about the order of instructions needs to look at a
draft beyond that.
-/
import FractalFormula.Proofs.Compile
import FractalFormula.Proofs.Postfix

namespace FractalFormula

open Compile

/-- The operator between two operands that a symbol stands for. -/
def Infix.of? : Operator → Option Infix
  | .caret => some .pow
  | .star => some .mul
  | .slash => some .div
  | .plus => some .add
  | .minus => some .sub
  | .lt => some .lt
  | .le => some .le
  | .gt => some .gt
  | .ge => some .ge
  | .eq => some .eq
  | .ne => some .ne
  | .and => some .and
  | .or => some .or
  | .comma | .colon | .assign | .modulus => none

/-- A negation is pending last. -/
def Compile.Draft.signed (d : Draft) : Bool :=
  match d.pending with
  | ⟨some .neg, _⟩ :: _ => true
  | _ => false

namespace Lexeme

/-- What becomes pending for a lexeme in the draft `d`. -/
def queued (d : Draft) : Lexeme → List (Pending Opcode)
  | .name _ => [⟨some .load, d.prec 1⟩]
  | .literal _ _ isPair => [⟨some .load, d.prec (if isPair then 1 - level else 1)⟩]
  | .call f => [⟨some (.call f), d.prec 1⟩]
  | .flow w => w.piece.pending
  | .operator .comma => if d.wantsOperand then [] else Break.comma.piece.pending
  | .operator .colon => Break.colon.piece.pending
  | .operator .assign => if d.pending.isEmpty then [] else [⟨some .store, d.prec 5⟩]
  | .operator .modulus => if d.bar = d.parens - 1 then [] else [⟨some .mod, d.prec 2⟩]
  | .operator .minus =>
    if d.wantsOperand then [⟨some .neg, d.prec 2⟩] else [⟨some .sub, d.prec 4⟩]
  | .operator o => (Infix.of? o).toList.map fun i => ⟨some i.opcode, d.prec i.base⟩
  | .leftParen | .rightParen | .close | .fault _ => []

/-- A literal that gets a slot of its own takes up the sign that is pending last. -/
def takesSign (d : Draft) : Lexeme → Bool
  | .literal text _ isPair =>
    (isPair || (d.slots.findIdx? (·.name == text)).isNone) && d.signed
  | _ => false

/-- What stays pending when a lexeme is read in the draft `d`. -/
def kept (d : Draft) : Lexeme → List (Pending Opcode)
  | .operator .assign => d.pending.tail
  | l => if l.takesSign d then d.pending.tail else d.pending

end Lexeme

namespace Compile

theorem Draft.signed_iff {d : Draft} :
    d.signed = true ↔ ∃ prec rest, d.pending = ⟨some .neg, prec⟩ :: rest := by
  constructor
  · intro h
    unfold Draft.signed at h
    split at h
    · exact ⟨_, _, by assumption⟩
    · cases h
  · rintro ⟨prec, rest, hpending⟩
    rw [Draft.signed, hpending]

theorem kept_of_ne {l : Lexeme} (h : l ≠ .operator .assign) (d : Draft) :
    l.kept d = if l.takesSign d then d.pending.tail else d.pending := by
  unfold Lexeme.kept
  split
  · exact absurd rfl h
  · rfl

theorem kept_literal {d : Draft} {text : String} {isPair : Bool}
    (hslot : isPair = true ∨ d.slots.findIdx? (·.name == text) = none) (z : Complex Float) :
    (Lexeme.literal text z isPair).kept d = if d.signed then d.pending.tail else d.pending := by
  have hgets : (isPair || (d.slots.findIdx? (·.name == text)).isNone) = true := by
    rcases hslot with rfl | hnone
    · rfl
    · rw [hnone, Option.isNone_none, Bool.or_true]
  have hne : Lexeme.literal text z isPair ≠ .operator .assign := nofun
  rw [kept_of_ne hne, Lexeme.takesSign, hgets, Bool.true_and]

theorem pending_literal (d : Draft) (text : String) (z : Complex Float) (isPair : Bool) :
    (d.take (.literal text z isPair)).pending =
      ⟨some .load, d.prec (if isPair then 1 - level else 1)⟩ ::
        (Lexeme.literal text z isPair).kept d := by
  match isPair, d.take (.literal text z isPair), literalTaken d text z isPair with
  | _, _, .known hslot =>
    have hkept : (Lexeme.literal text z false).kept d = d.pending := by
      simp [Lexeme.kept, Lexeme.takesSign, hslot]
    rw [hkept]
    rfl
  | _, _, .plain hslot hsign =>
    have hsigned : ¬ d.signed = true := fun h => by
      obtain ⟨prec, rest, hpending⟩ := Draft.signed_iff.mp h
      exact hsign prec rest hpending
    rw [kept_literal hslot, if_neg hsigned]
    rfl
  | _, _, .signed hslot hsign =>
    rw [kept_literal hslot, if_pos (Draft.signed_iff.mpr ⟨_, _, hsign⟩), hsign]
    rfl

theorem pending_name (d : Draft) (text : String) :
    (d.take (.name text)).pending = ⟨some .load, d.prec 1⟩ :: d.pending := by
  match d.take (.name text), nameTaken d text with
  | _, .known _ | _, .fresh _ => rfl

theorem pending_take (d : Draft) (l : Lexeme) :
    (d.take l).pending = (l.queued d).reverse ++ l.kept d := by
  cases l with
  | name text => exact pending_name d text
  | literal text value isPair => exact pending_literal d text value isPair
  | operator o =>
    cases o with
    | comma =>
      unfold Draft.take Draft.operator Lexeme.queued
      dsimp only
      split <;> rfl
    | assign =>
      show d.assign.pending = _
      unfold Draft.assign Lexeme.queued Lexeme.kept
      cases d.pending <;> rfl
    | modulus =>
      show d.modulus.pending = _
      unfold Draft.modulus Lexeme.queued
      split <;> rfl
    | minus =>
      unfold Draft.take Draft.operator Lexeme.queued
      dsimp only
      split <;> rfl
    | _ => rfl
  | flow w => cases w <;> rfl
  | _ => rfl

theorem kept_suffix (d : Draft) (l : Lexeme) : l.kept d <:+ d.pending := by
  unfold Lexeme.kept
  repeat' split
  · exact List.tail_suffix _
  · exact List.tail_suffix _
  · exact List.suffix_refl _

theorem head_of_takesSign {d : Draft} {l : Lexeme} (h : l.takesSign d = true) :
    ∃ prec rest, d.pending = ⟨some .neg, prec⟩ :: rest := by
  refine Draft.signed_iff.mp ?_
  unfold Lexeme.takesSign at h
  split at h
  · exact (Bool.and_eq_true_iff.mp h).2
  · cases h

/-! ## Instructions of a kind -/

/-- The instructions of the kind `q` among those that are pending, the newest first. -/
def Draft.pendingOf (d : Draft) (q : Opcode → Bool) : List Opcode :=
  (Pending.outputs d.pending).filter q

theorem filter_outputs_tail {q : Opcode → Bool} {ps : List (Pending Opcode)}
    (h : ∀ p ∈ ps.head?, ∀ op, p.op = some op → q op = false) :
    (Pending.outputs ps.tail).filter q = (Pending.outputs ps).filter q := by
  cases ps with
  | nil => rfl
  | cons p ps =>
    have hone : (Pending.outputs [p]).filter q = [] := by
      refine List.filter_eq_nil_iff.mpr fun op hop hq => ?_
      obtain ⟨p', hp', hop⟩ := List.mem_filterMap.mp hop
      rw [List.mem_singleton.mp hp'] at hop
      exact Bool.noConfusion ((h p rfl op hop).symm.trans hq)
    rw [show p :: ps = [p] ++ ps from rfl, Pending.outputs_append, List.filter_append, hone]
    rfl

/-- Signs may go with literals, and what stands to the left of an assignment goes with it; of any
other kind a lexeme adds what it queues. -/
theorem pendingOf_take {q : Opcode → Bool} (hneg : q .neg = false) {d : Draft} {l : Lexeme}
    (hassign : l = .operator .assign → ∀ p ∈ d.pending.head?, ∀ op, p.op = some op → q op = false) :
    (d.take l).pendingOf q =
      ((Pending.outputs (l.queued d)).filter q).reverse ++ d.pendingOf q := by
  have hkept : (Pending.outputs (l.kept d)).filter q = d.pendingOf q := by
    by_cases hl : l = .operator .assign
    · rw [hl]
      exact filter_outputs_tail (hassign hl)
    · rw [kept_of_ne hl]
      by_cases hsign : l.takesSign d = true
      · obtain ⟨prec, rest, hpending⟩ := head_of_takesSign hsign
        rw [if_pos hsign]
        refine filter_outputs_tail fun p hp op hop => ?_
        rw [hpending] at hp
        obtain rfl := Option.some.inj hp
        obtain rfl := Option.some.inj hop
        exact hneg
      · rw [if_neg hsign]
        rfl
  rw [Draft.pendingOf, pending_take, Pending.outputs_append, List.filter_append, hkept,
    Pending.outputs, List.filterMap_reverse, List.filter_reverse]
  rfl

end Compile
end FractalFormula
