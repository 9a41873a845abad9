/-
What a run reaches.

`State.Reaches` says of a run that it comes to a state that shows a given scene.  Runs are put
together from single instructions (`of_plain`, `pass`, `jump`) in the order of time (`andThen`,
`andMove`), and nothing follows an overflow.
-/
import FractalFormula.Proofs.Linked
import FractalFormula.Proofs.View

namespace FractalFormula

open Compile

namespace State

/-! ## The stack -/

section

variable {N : Type}

/-- Nothing but the current value of the stack is another. -/
structure Level (s s' : State N) : Prop where
  top : s'.top = s.top
  below : ∀ j < s.top, s'.stack[j]? = s.stack[j]?

theorem level_setValue (s : State N) (z : Complex N) : Level s (s.setValue z) := by
  refine ⟨rfl, fun j hj => ?_⟩
  rw [setValue, Array.getElem?_setIfInBounds_ne (Nat.ne_of_gt hj)]

/-- The code has been executed, and a value was put on top of the stack. -/
structure Raised (s : State N) (ops : List Opcode) (s' : State N) : Prop where
  here : s'.here = s.here.past ops
  top : s'.top = s.top + 1
  below : ∀ j ≤ s.top, s'.stack[j]? = s.stack[j]?

end

variable {N : Type} [Scalar N] {r : Routine N} {s : State N}

theorem level_unary (s : State N) (f : Complex N → Option (Complex N)) : Level s (s.unary f) := by
  unfold unary
  split
  · exact level_setValue s _
  · exact ⟨rfl, fun _ _ => rfl⟩

theorem level_call (s : State N) (f : Func) : Level s (s.call f) := by
  unfold call
  split
  · unfold square
    dsimp only
    split
    · exact ⟨(level_unary (s.setVar _ _) _).top, (level_unary (s.setVar _ _) _).below⟩
    · exact ⟨rfl, fun _ _ => rfl⟩
  · exact ⟨rfl, (level_setValue _ _).below⟩
  · split
    · exact level_unary s _
    · split
      · exact level_unary s _
      · exact ⟨rfl, fun _ _ => rfl⟩

theorem Raised.step {ops : List Opcode} {s' : State N} {op : Opcode} (h : Raised s ops s')
    (hjump : op.isJump = false) (hlevel : Level s' (s'.execute r op)) :
    Raised s (ops ++ [op]) (s'.execute r op).advance := by
  refine ⟨?_, hlevel.top.trans h.top, fun j hj => ?_⟩
  · rw [here_execute r hjump, h.here, ← Place.past_append]
  · exact (hlevel.below j (by rw [h.top]; omega)).trans (h.below j hj)

theorem raised_load {slot : Option Nat} (hs : s.top < s.stack.size) :
    Raised s [.load] (s.load slot).advance := by
  refine ⟨by rw [advance, here_load]; rfl, ?_, fun j hj => ?_⟩
  · unfold load push
    dsimp only
    split <;> rfl
  · unfold load push
    dsimp only
    split
    · exact Array.getElem?_push_lt (Nat.lt_of_le_of_lt hj hs) ▸
        (Array.getElem?_eq_getElem (Nat.lt_of_le_of_lt hj hs)).symm
    · exact Array.getElem?_setIfInBounds_ne (by omega)

/-- The operands of an operator leave their values one above the other. -/
theorem Raised.binary {xs ys : List Opcode} {s₁ s₂ : State N} {op : Opcode} (h₁ : Raised s xs s₁)
    (h₂ : Raised s₁ ys s₂) {f : Complex N → Complex N → Option (Complex N)}
    (hjump : op.isJump = false) (hop : s₂.execute r op = s₂.binary f) :
    Raised s (xs ++ ys ++ [op]) (s₂.execute r op).advance := by
  have hlevel : Level ({ s₂ with top := s₂.top - 1 } : State N) (s₂.binary f) := by
    unfold State.binary
    dsimp only
    split
    · exact level_setValue _ _
    · exact ⟨rfl, fun _ _ => rfl⟩
  refine ⟨?_, ?_, fun j hj => ?_⟩
  · rw [here_execute r hjump, h₂.here, h₁.here, ← Place.past_append, ← Place.past_append,
      List.append_assoc]
  · rw [hop]
    refine hlevel.top.trans ?_
    show s₂.top - 1 = s.top + 1
    rw [h₂.top, h₁.top]
    omega
  · rw [hop]
    refine (hlevel.below j ?_).trans ((h₂.below j ?_).trans (h₁.below j hj))
    · show j < s₂.top - 1
      rw [h₂.top, h₁.top]
      omega
    · rw [h₁.top]
      omega

/-! ## Runs -/

/-- A run from `s` that has the budget for the rest of the code comes to `s'`, and has it there
again, or ends there with an overflow. -/
def Runs (r : Routine N) (initOnly : Bool) (s s' : State N) : Prop :=
  ∀ budget, r.code.size ≤ s.here.op + budget →
    ∃ rest, r.code.size ≤ s'.here.op + rest ∧
      s.run r initOnly budget = if s'.overflow then s' else s'.run r initOnly rest

section

variable {initOnly : Bool} {s' s'' : State N}

theorem Runs.refl (h : s.overflow = false) : Runs r initOnly s s := by
  intro budget hbudget
  exact ⟨budget, hbudget, by rw [h, if_neg Bool.false_ne_true]⟩

theorem Runs.trans (h : Runs r initOnly s s') (hover : s'.overflow = false)
    (h' : Runs r initOnly s' s'') : Runs r initOnly s s'' := by
  intro budget hbudget
  obtain ⟨rest, hrest, hrun⟩ := h budget hbudget
  obtain ⟨last, hlast, hrun'⟩ := h' rest hrest
  exact ⟨last, hlast, by rw [hrun, hover, if_neg Bool.false_ne_true, hrun']⟩

theorem Runs.step {op : Opcode} (hop : r.code[s.here.op]? = some op) (hend : op ≠ .endInit)
    (hforward : s.here.op < (s.execute r op).advance.here.op) :
    Runs r initOnly s (s.execute r op).advance := by
  intro budget hbudget
  have hlt : s.here.op < r.code.size := (Array.getElem?_eq_some_iff.mp hop).1
  obtain ⟨rest, rfl⟩ : ∃ rest, budget = rest + 1 := ⟨budget - 1, by omega⟩
  refine ⟨rest, by omega, ?_⟩
  rw [run, hop]
  dsimp only
  rw [beq_false_of_ne hend, Bool.and_false, Bool.or_false]

end

/-- A run from `s` comes to a state that shows `sc`, and that satisfies `Q` if there was no
overflow. -/
def Reaches (r : Routine N) (slots : List Slot) (initOnly : Bool) (s : State N) (sc : Scene N)
    (Q : State N → Prop) : Prop :=
  ∃ s', Runs r initOnly s s' ∧ s'.entry = s.entry ∧ s'.Shows slots sc ∧
    (sc.overflow = false → Q s')

variable {slots : List Slot} {initOnly : Bool} {sc : Scene N} {Q : State N → Prop}

namespace Reaches

theorem refl (h : s.Shows slots sc) (hover : sc.overflow = false) (hQ : Q s) :
    Reaches r slots initOnly s sc Q :=
  ⟨s, .refl (h.overflow.trans hover), rfl, h, fun _ => hQ⟩

theorem bind {sc' : Scene N} {Q' : State N → Prop} (h : Reaches r slots initOnly s sc Q)
    (hstop : sc.overflow = true → sc' = sc)
    (hnext : ∀ s', s'.Shows slots sc → sc.overflow = false → Q s' →
      Reaches r slots initOnly s' sc' Q') : Reaches r slots initOnly s sc' Q' := by
  obtain ⟨s', hruns, hentry, hshows, hQ⟩ := h
  cases hover : sc.overflow with
  | true =>
    refine ⟨s', hruns, hentry, ?_, fun hno => ?_⟩
    · rwa [hstop hover]
    · rw [hstop hover, hover] at hno
      cases hno
  | false =>
    obtain ⟨s'', hruns', hentry', hlast⟩ := hnext s' hshows hover (hQ hover)
    exact ⟨s'', hruns.trans (hshows.overflow.trans hover) hruns', hentry'.trans hentry, hlast⟩

theorem andThen {f : Scene N → Scene N} {Q' : State N → Prop}
    (h : Reaches r slots initOnly s sc Q)
    (hnext : ∀ s', s'.Shows slots sc → sc.overflow = false → Q s' →
      Reaches r slots initOnly s' (f sc) Q') :
    Reaches r slots initOnly s (sc.andThen f) Q' := by
  refine h.bind (fun hover => by rw [Scene.andThen, if_pos hover]) fun s' hshows hover hQ => ?_
  rw [Scene.andThen, hover, if_neg Bool.false_ne_true]
  exact hnext s' hshows hover hQ

/-- What follows leaves the scene as it is. -/
theorem andMove {Q' : State N → Prop} (h : Reaches r slots initOnly s sc Q)
    (hnext : ∀ s', s'.Shows slots sc → sc.overflow = false → Q s' →
      Reaches r slots initOnly s' sc Q') : Reaches r slots initOnly s sc Q' :=
  h.bind (fun _ => rfl) hnext

theorem mono {Q' : State N → Prop} (h : Reaches r slots initOnly s sc Q) (hQ : ∀ s', Q s' → Q' s') :
    Reaches r slots initOnly s sc Q' := by
  obtain ⟨s', hruns, hentry, hshows, h⟩ := h
  exact ⟨s', hruns, hentry, hshows, fun hover => hQ s' (h hover)⟩

/-! ## Single instructions -/

theorem of_step {op : Opcode} (hop : r.code[s.here.op]? = some op) (hend : op ≠ .endInit)
    (hforward : s.here.op < (s.execute r op).advance.here.op)
    (h : (s.execute r op).Shows slots sc)
    (hQ : sc.overflow = false → Q (s.execute r op).advance) : Reaches r slots initOnly s sc Q := by
  refine ⟨_, .step hop hend hforward, ?_, h.at_place _ _, hQ⟩
  rw [entry_execute, if_neg hend]

theorem of_plain {op : Opcode} (hop : r.code[s.here.op]? = some op) (hend : op ≠ .endInit)
    (hjump : op.isJump = false) (h : (s.execute r op).Shows slots sc)
    (hQ : sc.overflow = false → Q (s.execute r op).advance) : Reaches r slots initOnly s sc Q := by
  refine of_step hop hend ?_ h hQ
  rw [here_execute r hjump]
  exact Nat.lt_succ_self _

theorem clear (hop : r.code[s.here.op]? = some .clear) (h : s.Shows slots sc) :
    Reaches r slots initOnly s sc (·.here = s.here.past [.clear]) :=
  of_plain hop nofun rfl h.clear fun _ => here_execute r rfl s

/-- A jump that is not taken. -/
theorem pass {op : Opcode} (hop : r.code[s.here.op]? = some op) (hjump : op.isJump = true)
    (hpass : s.execute r op = s.skipJump) (h : s.Shows slots sc) :
    Reaches r slots initOnly s sc (·.here = s.here.past [op]) := by
  have hhere : (s.execute r op).advance.here = s.here.past [op] := by
    rw [hpass, Place.past_jump hjump]
    rfl
  refine of_step hop (by rintro rfl; cases hjump) ?_ ?_ fun _ => hhere
  · rw [hhere]
    exact Nat.lt_succ_self _
  · rw [hpass]
    exact h.at_place _ _

/-- A jump that is taken. -/
theorem jump {op : Opcode} {entries : List JumpEntry} {there : Place}
    (hop : r.code[s.here.op]? = some op) (hjump : op.isJump = true)
    (hentries : r.jumps = entries.toArray)
    (htaken : s.execute r op = s.jump r.jumps[s.here.jumps]?)
    (hlands : Jumps.Lands entries s.here.jumps there) (hforward : s.here.op < there.op)
    (h : s.Shows slots sc) : Reaches r slots initOnly s sc (·.here = there) := by
  obtain ⟨e, he, hthere⟩ := hlands
  rw [hentries, List.getElem?_toArray, he] at htaken
  have hhere : (s.execute r op).advance.here = there := by
    rw [htaken, ← hthere]
    rfl
  refine of_step hop (by rintro rfl; cases hjump) (hhere ▸ hforward) ?_ fun _ => hhere
  rw [htaken]
  exact h.at_place _ _

end Reaches

end State
end FractalFormula
