/-
What a scene shows of a machine.

`State.scene` forgets the places, the stack below the current value and the slots of literals.  A
machine is `Upright` if its stack has room and its literals hold their values; then what an
instruction does to it can be seen in its scene (`Shows`).
-/
import FractalFormula.Proofs.Motion
import FractalFormula.Proofs.Scene
import FractalFormula.Proofs.Slots

namespace FractalFormula

open Compile

namespace State

variable {N : Type} [Scalar N]

/-- The scene of a state.  A name without a slot stands for zero. -/
def scene (slots : List Slot) (s : State N) : Scene N :=
  { vars := fun name => ((slots.findIdx? (Text.sameName ·.name name)).map s.var).getD Complex.zero
    value := s.value, random := s.random, overflow := s.overflow }

/-- The stack has room for the current value, and literals hold their values. -/
structure Upright (slots : List Slot) (s : State N) : Prop where
  top : s.top < s.stack.size
  size : s.vars.size = slots.length
  literals : ∀ i slot, slots[i]? = some slot → slot.kind = .constant →
    s.var i = literalValue slot.value

/-- The state is upright and shows the scene. -/
structure Shows (slots : List Slot) (s : State N) (sc : Scene N) : Prop where
  upright : s.Upright slots
  scene : s.scene slots = sc

variable {slots : List Slot} {s : State N} {sc : Scene N}

namespace Shows

theorem value (h : s.Shows slots sc) : s.value = sc.value := by
  rw [← h.scene]
  rfl

theorem overflow (h : s.Shows slots sc) : s.overflow = sc.overflow := by
  rw [← h.scene]
  rfl

theorem random (h : s.Shows slots sc) : s.random = sc.random := by
  rw [← h.scene]
  rfl

/-! ## Values -/

theorem setValue (h : s.Shows slots sc) (z : Complex N) :
    (s.setValue z).Shows slots { sc with value := z } := by
  obtain ⟨⟨htop, hsize, hlit⟩, rfl⟩ := h
  refine ⟨⟨by simpa [State.setValue] using htop, hsize, hlit⟩, ?_⟩
  have hvalue : (s.setValue z).value = z := by simp [State.value, State.setValue, htop]
  rw [State.scene, hvalue]
  rfl

theorem overflowed (h : s.Shows slots sc) :
    s.overflowed.Shows slots { sc with overflow := true } := by
  obtain ⟨⟨htop, hsize, hlit⟩, rfl⟩ := h
  exact ⟨⟨htop, hsize, hlit⟩, rfl⟩

theorem unary (h : s.Shows slots sc) (f : Complex N → Option (Complex N)) :
    (s.unary f).Shows slots (sc.unary f) := by
  rw [State.unary, Scene.unary, h.value]
  cases f sc.value with
  | none => exact h.overflowed
  | some z => exact h.setValue z

/-! ## Variables -/

end Shows

/-- A slot that a name refers to is found under the names like it, and under no others. -/
theorem findIdx?_eq_iff {i : Nat} {text : String} (h : Holds slots i (.name text)) (name : String) :
    slots.findIdx? (Text.sameName ·.name name) = some i ↔ Text.sameName name text = true := by
  obtain ⟨hi, -⟩ := h
  have hfold {a b : String} : Text.sameName a b = true ↔
      a.toList.map Char.toLower = b.toList.map Char.toLower := beq_iff_eq
  constructor
  · intro hname
    obtain ⟨hlt, hsame, -⟩ := List.findIdx?_eq_some_iff_getElem.mp hname
    obtain ⟨_, hsame', -⟩ := List.findIdx?_eq_some_iff_getElem.mp hi
    exact hfold.mpr ((hfold.mp hsame).symm.trans (hfold.mp hsame'))
  · intro hname
    have hpred : (fun s : Slot => Text.sameName s.name name) =
        fun s => Text.sameName s.name text := by
      funext s
      rw [Bool.eq_iff_iff, hfold, hfold, hfold.mp hname]
    rw [hpred, hi]

namespace Shows

theorem setVar (h : s.Shows slots sc) {i : Nat} {text : String} (hi : Holds slots i (.name text))
    (z : Complex N) : (s.setVar i z).Shows slots (sc.set text z) := by
  obtain ⟨⟨htop, hsize, hlit⟩, rfl⟩ := h
  obtain ⟨slot, hslot, hkind⟩ := hi.2
  have hlt : i < s.vars.size := hsize ▸ (List.getElem?_eq_some_iff.mp hslot).1
  have hvar (j : Nat) : (s.setVar i z).var j = if i = j then z else s.var j := by
    unfold State.var State.setVar
    rw [Array.getD_eq_getD_getElem?, Array.getD_eq_getD_getElem?, Array.getElem?_setIfInBounds]
    by_cases hij : i = j
    · rw [if_pos hij, if_pos hij, if_pos hlt]
      rfl
    · rw [if_neg hij, if_neg hij]
  refine ⟨⟨htop, ?_, fun j slot' hj hconst => ?_⟩, ?_⟩
  · simpa [State.setVar] using hsize
  · have hij : i ≠ j := by
      rintro rfl
      rw [Option.some.inj (hslot.symm.trans hj)] at hkind
      exact hkind hconst
    rw [hvar, if_neg hij, hlit j slot' hj hconst]
  · have hvars : ((s.setVar i z).scene slots).vars = ((s.scene slots).set text z).vars := by
      funext name
      show ((slots.findIdx? _).map (s.setVar i z).var).getD _ =
        if Text.sameName name text then z else ((slots.findIdx? _).map s.var).getD _
      cases hfind : slots.findIdx? (Text.sameName ·.name name) with
      | none =>
        have hno : ¬ Text.sameName name text = true := fun hsame => by
          rw [(findIdx?_eq_iff hi name).mpr hsame] at hfind
          cases hfind
        rw [if_neg hno]
        rfl
      | some j =>
        have hiff := findIdx?_eq_iff hi name
        rw [hfind, Option.some.injEq] at hiff
        simp only [Option.map_some, Option.getD_some, hvar]
        by_cases hij : i = j
        · rw [if_pos hij, if_pos (hiff.mp hij.symm)]
        · rw [if_neg hij, if_neg fun hsame => hij (hiff.mpr hsame).symm]
    exact congrArg (fun vars => ({ s.scene slots with vars } : Scene N)) hvars

theorem var (h : s.Shows slots sc) {i : Nat} {text : String} (hi : Holds slots i (.name text)) :
    s.var i = sc.vars text := by
  obtain ⟨-, rfl⟩ := h
  show _ = ((slots.findIdx? _).map s.var).getD _
  rw [hi.1]
  rfl

theorem literal (h : s.Shows slots sc) {i : Nat} {text : String} {z : Complex Float}
    (hi : Holds slots i (.literal text z)) : s.var i = literalValue z :=
  h.upright.literals i _ hi rfl

end Shows

/-! ## Functions -/

/-- The variables that every formula finds in place are where they belong. -/
def Furnished (slots : List Slot) : Prop :=
  ∀ v : Builtin, Holds slots v.slot (.name v.name)

theorem furnished_of_prefix {env : Environment} (h : Draft.builtinSlots env <+: slots) :
    Furnished slots := by
  refine fun v => Holds.mono h ⟨?_, ⟨v.name, .predefined, env.value v⟩, ?_, nofun⟩
  · show (Builtin.all.map _).findIdx? _ = _
    rw [List.findIdx?_map]
    show Builtin.all.findIdx? (fun w => Text.sameName w.name v.name) = some v.slot
    cases v <;> decide +kernel
  · show (Builtin.all.map _)[_]? = _
    rw [List.getElem?_map, v.all_getElem_slot]
    rfl

namespace Shows

theorem withRandom (h : s.Shows slots sc) (random : RandomState) :
    ({ s with random } : State N).Shows slots { sc with random } := by
  obtain ⟨⟨htop, hsize, hlit⟩, rfl⟩ := h
  exact ⟨⟨htop, hsize, hlit⟩, rfl⟩

theorem refreshRandom (h : s.Shows slots sc) (hf : Furnished slots) :
    s.refreshRandom.Shows slots sc.refreshRandom := by
  rw [State.refreshRandom, Scene.refreshRandom, h.random]
  exact (h.withRandom _).setVar (hf .rand) _

theorem seedRandom (h : s.Shows slots sc) (hf : Furnished slots) :
    s.seedRandom.Shows slots sc.seedRandom := by
  rw [State.seedRandom, Scene.seedRandom, h.value, h.random]
  have hrefresh := (h.withRandom (sc.random.seed (Scalar.seedBits sc.value.x)
    (Scalar.seedBits sc.value.y))).refreshRandom hf
  have hvar := hrefresh.var (hf .rand)
  rw [← hvar]
  exact hrefresh.setValue _

theorem square (h : s.Shows slots sc) (hf : Furnished slots) :
    s.square.Shows slots sc.square := by
  rw [State.square, Scene.square, h.value]
  cases hxx : Scalar.mul? sc.value.x sc.value.x with
  | none => exact h.overflowed
  | some xx =>
    cases hyy : Scalar.mul? sc.value.y sc.value.y with
    | none => exact h.overflowed
    | some yy => exact (h.setVar (hf .lastSqr) _).unary _

theorem call (h : s.Shows slots sc) (hf : Furnished slots) (f : Func) :
    (s.call f).Shows slots (sc.call f) := by
  cases f with
  | sqr => exact h.square hf
  | srand => exact h.seedRandom hf
  | _ =>
    rw [State.call, Scene.call]
    · first | exact h | exact h.unary _
    all_goals (intro h; cases h)

theorem preset (hf : Furnished slots) (values : List (Builtin × Complex Float)) :
    ∀ {s : State N} {sc : Scene N}, s.Shows slots sc →
      (s.preset values).Shows slots (sc.preset values) := by
  induction values with
  | nil => exact fun h => h
  | cons v values ih =>
    intro s sc h
    rw [State.preset, Scene.preset]
    cases Complex.ofFloat? (N := N) v.2 with
    | none => exact h.overflowed
    | some z => exact ih (h.setVar (hf v.1) z)

/-! ## The stack -/

/-- The places of a machine are not seen. -/
theorem at_place (h : s.Shows slots sc) (here entry : Place) :
    ({ s with here, entry } : State N).Shows slots sc := by
  obtain ⟨⟨htop, hsize, hlit⟩, rfl⟩ := h
  exact ⟨⟨htop, hsize, hlit⟩, rfl⟩

theorem push (h : s.Shows slots sc) (z : Complex N) :
    (s.push z).Shows slots { sc with value := z } := by
  obtain ⟨⟨htop, hsize, hlit⟩, rfl⟩ := h
  have hpush : (s.push z).value = z ∧ (s.push z).top < (s.push z).stack.size := by
    unfold State.push State.value
    dsimp only
    split
    · rename_i hfull
      rw [hfull]
      simp
    · have : s.top + 1 < s.stack.size := by omega
      simp [this]
  have hvars : (s.push z).vars = s.vars ∧ (s.push z).random = s.random ∧
      (s.push z).overflow = s.overflow := by
    unfold State.push
    dsimp only
    split <;> exact ⟨rfl, rfl, rfl⟩
  obtain ⟨hvars, hrandom, hover⟩ := hvars
  have hvar : (s.push z).var = s.var := by
    funext i
    rw [State.var, hvars]
    rfl
  refine ⟨⟨hpush.2, hvars ▸ hsize, fun i slot hi hk => by rw [hvar]; exact hlit i slot hi hk⟩, ?_⟩
  rw [State.scene, hpush.1, hvar, hrandom, hover]
  rfl

/-- The value below the current one is the left operand. -/
theorem binary (h : s.Shows slots sc) {left : Complex N} (hleft : s.stack[s.top - 1]? = some left)
    (f : Complex N → Complex N → Option (Complex N)) :
    (s.binary f).Shows slots (sc.combine f left) := by
  have hdrop : ({ s with top := s.top - 1 } : State N).Shows slots { sc with value := left } := by
    obtain ⟨⟨htop, hsize, hlit⟩, rfl⟩ := h
    refine ⟨⟨(Array.getElem?_eq_some_iff.mp hleft).1, hsize, hlit⟩, ?_⟩
    have hvalue : ({ s with top := s.top - 1 } : State N).value = left := by
      rw [State.value, Array.getD_eq_getD_getElem?, hleft]
      rfl
    rw [State.scene, hvalue]
    rfl
  rw [State.binary, Scene.combine, h.value]
  rw [hdrop.value]
  cases f left sc.value with
  | none => exact hdrop.overflowed
  | some z => exact hdrop.setValue z

theorem clear (h : s.Shows slots sc) : s.clear.Shows slots sc := by
  obtain ⟨⟨htop, hsize, hlit⟩, rfl⟩ := h
  have hpos : 0 < s.stack.size := Nat.lt_of_le_of_lt (Nat.zero_le _) htop
  have hvalue : s.clear.value = s.value := by
    unfold State.clear State.value
    simp [hpos]
  refine ⟨⟨by simpa [State.clear] using hpos, hsize, hlit⟩, ?_⟩
  rw [State.scene, hvalue]
  rfl

end Shows
end State
end FractalFormula
