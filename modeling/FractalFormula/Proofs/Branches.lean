/-
Where the jumps of a tree lead.

The entries of a tree are numbered through, and each leads to an entry of the same `if`: a condition
to the next branch, the end of a branch to the `endif` (`Block.leads`).  That is what `resolve` finds
from the end of the table (`Block.leads_backward`), so the jumps of a rendered body can be resolved
(`Source.resolve_of_tables`).
-/
import FractalFormula.Proofs.Linked
import FractalFormula.Proofs.Postorder

namespace FractalFormula

open Jumps

mutual

/-- The entries that the entries of a block lead to; the first has number `k`. -/
def Block.leads (k : Nat) : Block → List (Option Nat)
  | .nil => []
  | .statement _ next => next.leads k
  | .branch _ body rest next =>
    let r := k + 1 + body.words.length
    let n := r + rest.words.length
    some r :: body.leads (k + 1) ++ rest.leads r (n - 1) ++ next.leads n

/-- The `endif` has number `last`. -/
def Tail.leads (k last : Nat) : Tail → List (Option Nat)
  | .endIf => [none]
  | .else body => some last :: body.leads (k + 1) ++ [none]
  | .elseIf _ body rest =>
    let r := k + 2 + body.words.length
    some last :: some r :: body.leads (k + 2) ++ rest.leads r last

end

namespace Jumps

theorem backward_append (k : Nat) (a b : List FlowWord) (rest : List (Nat × FlowWord)) :
    backward k (a ++ b) ++ rest = backward (k + a.length) b ++ (backward k a ++ rest) := by
  simp [backward, List.zipIdx_append]

end Jumps

mutual

theorem Block.length_leads : ∀ (x : Block) (k : Nat), (x.leads k).length = x.words.length
  | .nil, _ => rfl
  | .statement _ next, k => next.length_leads k
  | .branch _ body rest next, k => by
    simp [Block.leads, Block.words, body.length_leads, rest.length_leads, next.length_leads]

theorem Tail.length_leads : ∀ (x : Tail) (k last : Nat), (x.leads k last).length = x.words.length
  | .endIf, _, _ => rfl
  | .else body, k, _ => by simp [Tail.leads, Tail.words, body.length_leads]
  | .elseIf _ body rest, k, last => by
    simp [Tail.leads, Tail.words, body.length_leads, rest.length_leads]

end

mutual

/-- What `leads` makes of a block, whatever comes before and after it. -/
theorem Block.leads_backward : ∀ (x : Block) (k : Nat) (groups : List Group)
    (found : List (Option Nat)) (rest : List (Nat × FlowWord)),
    Jumps.leads groups found (backward k x.words ++ rest) =
      Jumps.leads groups (x.leads k ++ found) rest
  | .nil, _, _, _, _ => rfl
  | .statement _ next, k, groups, found, rest => next.leads_backward k groups found rest
  | .branch c body tail next, k, groups, found, rest => by
    show Jumps.leads groups found
      (backward k (.if :: body.words ++ tail.words ++ next.words) ++ rest) = _
    rw [backward_append, next.leads_backward, backward_append, tail.leads_backward,
      backward_cons, body.leads_backward, Jumps.leads, Block.leads]
    have hrest : k + (body.words.length + 1) = k + 1 + body.words.length := by omega
    have hnext : k + (body.words.length + tail.words.length + 1) =
        k + 1 + body.words.length + tail.words.length := by omega
    simp only [List.length_append, List.length_cons, List.append_assoc, List.cons_append, hrest,
      hnext]

/-- A tail opens the group that its `if` closes. -/
theorem Tail.leads_backward : ∀ (x : Tail) (k : Nat) (outer : List Group)
    (found : List (Option Nat)) (rest : List (Nat × FlowWord)),
    Jumps.leads outer found (backward k x.words ++ rest) =
      Jumps.leads (⟨k + x.words.length - 1, k⟩ :: outer)
        (x.leads k (k + x.words.length - 1) ++ found) rest
  | .endIf, k, outer, found, rest => by
    cases outer <;> rfl
  | .else body, k, outer, found, rest => by
    have hlast (groups : List Group) (found : List (Option Nat)) (rest : List (Nat × FlowWord))
        (i : Nat) : Jumps.leads groups found (backward i [.endIf] ++ rest) =
        Jumps.leads (⟨i, i⟩ :: groups) (none :: found) rest := by
      cases groups <;> rfl
    show Jumps.leads outer found (backward k (.else :: body.words ++ [.endIf]) ++ rest) = _
    rw [backward_append, hlast, backward_cons, body.leads_backward, Jumps.leads]
    have hlen : k + (Tail.else body).words.length - 1 = k + (FlowWord.else :: body.words).length := by
      simp [Tail.words]
    rw [hlen, Tail.leads]
    simp only [List.append_assoc, List.cons_append, List.nil_append]
  | .elseIf c body tail, k, outer, found, rest => by
    show Jumps.leads outer found
      (backward k (.elseIf :: .elseIf :: body.words ++ tail.words) ++ rest) = _
    rw [backward_append, tail.leads_backward, backward_cons, backward_cons, body.leads_backward,
      Jumps.leads]
    have hlen : k + (FlowWord.elseIf :: .elseIf :: body.words).length + tail.words.length - 1 =
        k + (Tail.elseIf c body tail).words.length - 1 := by
      simp only [Tail.words, List.length_append, List.length_cons]
      omega
    have hbranch : k + (FlowWord.elseIf :: .elseIf :: body.words).length =
        k + 2 + body.words.length := by
      simp only [List.length_cons]
      omega
    rw [hlen, hbranch, Tail.leads]
    simp only [List.append_assoc, List.cons_append]

end

/-! ## The instructions of the table -/

theorem Expr.filter_isJump (e : Expr) : e.postorder.filter Opcode.isJump = [] := by
  induction e with
  | name | literal => rfl
  | group e ih => exact ih
  | call f e ih | minus e ih | modulus e ih => rw [postorder, List.filter_append, ih]; rfl
  | binary o l r ihl ihr =>
    have ho : [o.opcode].filter Opcode.isJump = [] := by cases o <;> rfl
    rw [postorder, List.filter_append, List.filter_append, ihl, ihr, ho]
    rfl

theorem Statement.filter_isJump (s : Statement) : s.code.filter Opcode.isJump = [] := by
  rw [code, List.filter_append, s.value.filter_isJump, List.filter_replicate_of_neg (by decide)]
  rfl

theorem Break.filter_isJump (b : Break) : b.code.filter Opcode.isJump = [] := by
  cases b <;> rfl

mutual

/-- The jump instructions of a block are those that its entries stand for. -/
theorem Block.filter_isJump (b : Break) : ∀ (x : Block) (words : List FlowWord),
    expected false (x.words ++ words) = (x.code b).filter Opcode.isJump ++ expected false words
  | .nil, _ => rfl
  | .statement s next, words => by
    rw [Block.words, next.filter_isJump .comma, Block.code, List.filter_append, List.filter_append,
      b.filter_isJump, s.filter_isJump]
    rfl
  | .branch c body rest next, words => by
    have hif (ops : List Opcode) : (Opcode.jumpOnFalse :: ops).filter Opcode.isJump =
        .jumpOnFalse :: ops.filter Opcode.isJump := rfl
    simp only [Block.words, Block.code, List.append_assoc, List.cons_append, expected,
      body.filter_isJump .comma, rest.filter_isJump, next.filter_isJump .comma,
      List.filter_append, b.filter_isJump, c.filter_isJump, hif, List.nil_append]

theorem Tail.filter_isJump : ∀ (x : Tail) (words : List FlowWord),
    expected false (x.words ++ words) = x.code.filter Opcode.isJump ++ expected false words
  | .endIf, _ => rfl
  | .else body, words => by
    have helse (ops : List Opcode) : (Opcode.clear :: .jump :: ops).filter Opcode.isJump =
        .jump :: ops.filter Opcode.isJump := rfl
    have hend : [Opcode.clear, .label].filter Opcode.isJump = [.label] := rfl
    simp only [Tail.words, Tail.code, List.append_assoc, List.cons_append, expected,
      body.filter_isJump .comma, List.filter_append, helse, hend, List.nil_append]
  | .elseIf c body rest, words => by
    have helse (ops : List Opcode) : (Opcode.clear :: .jump :: .clear :: ops).filter Opcode.isJump =
        .jump :: ops.filter Opcode.isJump := rfl
    have hif (ops : List Opcode) : (Opcode.jumpOnFalse :: ops).filter Opcode.isJump =
        .jumpOnFalse :: ops.filter Opcode.isJump := rfl
    simp only [Tail.words, Tail.code, List.append_assoc, List.cons_append, expected, Bool.not_false,
      Bool.not_true, if_true, Bool.false_eq_true, if_false, body.filter_isJump .comma,
      rest.filter_isJump, List.filter_append, c.filter_isJump, helse, hif, List.nil_append]

end

/-! ## Whole bodies -/

mutual

/-- Only an `if` comes first in a block, and only an `endif` last. -/
theorem Block.head?_words : ∀ x : Block, x.words = [] ∨ x.words.head? = some .if
  | .nil => .inl rfl
  | .statement _ next => next.head?_words
  | .branch _ _ _ _ => .inr rfl

theorem Tail.getLast?_words : ∀ x : Tail, x.words.getLast? = some .endIf
  | .endIf => rfl
  | .else body => by
    show (FlowWord.else :: body.words ++ [FlowWord.endIf]).getLast? = _
    rw [List.getLast?_append]
    rfl
  | .elseIf _ body rest => by
    have := rest.getLast?_words
    rw [Tail.words, List.getLast?_append, this]
    rfl

end

theorem Block.getLast?_words : ∀ x : Block, x.words = [] ∨ x.words.getLast? = some .endIf
  | .nil => .inl rfl
  | .statement _ next => next.getLast?_words
  | .branch _ body rest next => by
    refine .inr ?_
    rw [Block.words, List.getLast?_append, List.getLast?_append, rest.getLast?_words]
    rcases next.getLast?_words with h | h <;> rw [h] <;> rfl

namespace Source

/-- The entries that the entries of a body lead to. -/
def leads (s : Source) : List (Option Nat) :=
  match s.init with
  | none => s.loop.leads 0
  | some b => b.leads 0 ++ s.loop.leads b.words.length

theorem leads_backward (s : Source) :
    Jumps.leads [] [] (backward 0 s.words) = some s.leads := by
  obtain ⟨init, loop⟩ := s
  cases init with
  | none =>
    have := loop.leads_backward 0 [] [] []
    rwa [List.append_nil, List.append_nil, Jumps.leads] at this
  | some init =>
    have hinit := init.leads_backward 0 [] (loop.leads init.words.length) []
    have hloop := loop.leads_backward init.words.length [] [] (backward 0 init.words ++ [])
    rw [List.append_nil (loop.leads _), hinit, Jumps.leads] at hloop
    have happend := backward_append 0 init.words loop.words []
    rw [List.append_nil, Nat.zero_add] at happend
    exact (congrArg (Jumps.leads [] []) happend).trans hloop

theorem filter_isJump (s : Source) : s.code.filter Opcode.isJump = expected false s.words := by
  obtain ⟨init, loop⟩ := s
  cases init with
  | none =>
    have := loop.filter_isJump .none []
    rw [List.append_nil, expected, List.append_nil] at this
    exact this.symm
  | some init =>
    have hloop := loop.filter_isJump .colon []
    rw [List.append_nil, expected, List.append_nil] at hloop
    exact (List.filter_append _ _).trans
      ((init.filter_isJump .none loop.words).trans (congrArg _ hloop)).symm

theorem head?_words (s : Source) : s.words = [] ∨ s.words.head? = some .if := by
  obtain ⟨init, loop⟩ := s
  cases init with
  | none => exact loop.head?_words
  | some init =>
    show init.words ++ loop.words = [] ∨ (init.words ++ loop.words).head? = _
    rcases init.head?_words with h | h
    · rw [h]
      exact loop.head?_words
    · rw [List.head?_append, h]
      exact .inr rfl

theorem getLast?_words (s : Source) : s.words = [] ∨ s.words.getLast? = some .endIf := by
  obtain ⟨init, loop⟩ := s
  cases init with
  | none => exact loop.getLast?_words
  | some init =>
    show init.words ++ loop.words = [] ∨ (init.words ++ loop.words).getLast? = _
    rcases loop.getLast?_words with h | h
    · rw [h, List.append_nil]
      exact init.getLast?_words
    · rw [List.getLast?_append, h]
      exact .inr rfl

/-- The jumps of a body that `s` renders can be resolved, and lead where the tree has it. -/
theorem resolve_of_tables {s : Source} {p : Program} (h : s.Tables p) :
    p.resolve = .ok { p with jumps := linked p.code p.jumps s.leads } := by
  have hwords : p.jumps.map JumpEntry.word = s.words := by
    rw [h.jumps, List.map_map]
    exact List.map_id s.words
  by_cases hnil : s.words = []
  · have hjumps : p.jumps = [] := by rw [h.jumps, hnil]; rfl
    have hlinked : linked p.code p.jumps s.leads = p.jumps := by rw [hjumps]; rfl
    rw [hlinked, Program.resolve]
    dsimp only
    rw [if_pos (by rw [hjumps]; rfl)]
  · refine Program.resolve_of ?_ ?_ ?_ ?_
    · rw [hwords, h.code, s.filter_isJump]
    · rw [hwords]
      exact s.head?_words.resolve_left hnil
    · rw [hwords]
      exact s.getLast?_words.resolve_left hnil
    · rw [hwords, s.leads_backward]

end Source

end FractalFormula
