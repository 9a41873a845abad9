/-
What moves a machine.

Most instructions leave the places of a machine alone and only step over themselves; jumps, loads,
stores and the end of the init section are the others.
-/
import FractalFormula.Machine.Run
import FractalFormula.Proofs.Place

namespace FractalFormula
namespace State

variable {N : Type}

/-- The places of the two states are the same. -/
structure Still (s s' : State N) : Prop where
  here : s'.here = s.here
  entry : s'.entry = s.entry

theorem Still.trans {s s' s'' : State N} (h : Still s s') (h' : Still s' s'') : Still s s'' :=
  ⟨h'.here.trans h.here, h'.entry.trans h.entry⟩

theorem still_push (s : State N) (z : Complex N) : Still s (s.push z) := by
  unfold push
  dsimp only
  split <;> exact ⟨rfl, rfl⟩

variable [Scalar N]

theorem still_unary (s : State N) (f : Complex N → Option (Complex N)) : Still s (s.unary f) := by
  unfold unary
  split <;> exact ⟨rfl, rfl⟩

theorem still_binary (s : State N) (f : Complex N → Complex N → Option (Complex N)) :
    Still s (s.binary f) := by
  unfold binary
  dsimp only
  split <;> exact ⟨rfl, rfl⟩

theorem still_square (s : State N) : Still s s.square := by
  unfold square
  dsimp only
  split
  · refine Still.trans ?_ (still_unary _ _)
    exact ⟨rfl, rfl⟩
  · exact ⟨rfl, rfl⟩

theorem still_call (s : State N) (f : Func) : Still s (s.call f) := by
  unfold call
  split
  · exact still_square s
  · exact ⟨rfl, rfl⟩
  · split
    · exact still_unary s _
    · split
      · exact still_unary s _
      · exact ⟨rfl, rfl⟩

theorem here_load (s : State N) (slot : Option Nat) :
    (s.load slot).here = { s.here with loads := s.here.loads + 1 } :=
  (still_push _ _).here

theorem here_store (s : State N) (slot : Option Nat) :
    (s.store slot).here = { s.here with stores := s.here.stores + 1 } := by
  cases slot <;> rfl

/-- An instruction other than a jump moves the cursors past itself. -/
theorem here_execute (r : Routine N) {op : Opcode} (h : op.isJump = false) (s : State N) :
    (s.execute r op).advance.here = s.here.past [op] := by
  have still {t : State N} (ht : Still s t) :
      t.advance.here = { s.here with op := s.here.op + 1 } := by
    rw [advance, ht.here]
  cases op with
  | jump | jumpOnFalse | jumpOnTrue | label => cases h
  | load => rw [execute, advance, here_load]; rfl
  | store => rw [execute, advance, here_store]; rfl
  | clear | endInit | unassigned => rfl
  | call f => rw [execute]; exact still (still_call s _)
  | neg | mod => rw [execute]; exact still (still_unary s _)
  | add | sub | mul | div | pow => rw [execute]; exact still (still_binary s _)
  | _ => rw [execute]; exact still (still_binary s _)

/-- A jump goes on behind itself, or where its entry leads. -/
theorem here_execute_jump (r : Routine N) {op : Opcode} (h : op.isJump = true) (s : State N) :
    (s.execute r op).advance.here = s.here.past [op] ∨
      op ≠ .label ∧ (s.execute r op).advance.here = (s.jump r.jumps[s.here.jumps]?).advance.here := by
  have hskip : s.skipJump.advance.here = s.here.past [op] := by
    cases op with
    | jump | jumpOnFalse | jumpOnTrue | label => rfl
    | _ => cases h
  cases op with
  | jump => exact Or.inr ⟨nofun, rfl⟩
  | label => exact Or.inl hskip
  | jumpOnFalse =>
    rw [execute]
    split
    · exact Or.inr ⟨nofun, rfl⟩
    · exact Or.inl hskip
  | jumpOnTrue =>
    rw [execute]
    split
    · exact Or.inl hskip
    · exact Or.inr ⟨nofun, rfl⟩
  | _ => cases h

/-- Only the end of the init section touches the saved entry. -/
theorem entry_execute (r : Routine N) (op : Opcode) (s : State N) :
    (s.execute r op).advance.entry =
      if op = .endInit then { s.entry with jumps := s.here.jumps } else s.entry := by
  have hjump (e : Option JumpEntry) : (s.jump e).entry = s.entry := by cases e <;> rfl
  cases op with
  | endInit => rfl
  | load => exact (still_push _ _).entry
  | store => rw [execute]; cases r.stores[s.here.stores]? <;> rfl
  | clear | unassigned | label => rfl
  | jump => exact hjump _
  | jumpOnFalse | jumpOnTrue =>
    rw [execute]
    split
    · first | exact hjump _ | rfl
    · first | exact hjump _ | rfl
  | call f => exact (still_call s _).entry
  | neg | mod => rw [execute]; exact (still_unary s _).entry
  | _ => rw [execute]; exact (still_binary s _).entry

theorem still_preset (values : List (Builtin × Complex Float)) : ∀ s : State N,
    Still s (s.preset values) := by
  induction values with
  | nil => exact fun _ => ⟨rfl, rfl⟩
  | cons v values ih =>
    intro s
    unfold preset
    split
    · refine Still.trans ?_ (ih _)
      exact ⟨rfl, rfl⟩
    · exact ⟨rfl, rfl⟩

end State
end FractalFormula
