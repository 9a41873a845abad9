/-
The square as a product.

The square of a number takes three products of its parts and the product of the number with itself
takes four.  The two in the middle are the same where factors may change places (`FactorsCommute`),
and they fit the number format where both squares do (`SquaresSuffice`).  So `sqr` overflows only if
one of the squares does, before `lastsqr` is set, and this is when the product overflows
(`State.square_cases`).
-/
import FractalFormula.Proofs.Overflow

namespace FractalFormula

/-- The factors of a product may change places. -/
class FactorsCommute (N : Type) [Scalar N] : Prop where
  mul?_comm (a b : N) : Scalar.mul? a b = Scalar.mul? b a

instance {s : Scale} : FactorsCommute (Fixed s) where
  mul?_comm a b := by
    show Fixed.narrow? _ = Fixed.narrow? _
    rw [Int.mul_comm]

instance : FactorsCommute Extended where
  mul?_comm a b := by
    have hsign : (a.neg != b.neg) = (b.neg != a.neg) := by rw [bne, bne, Bool.beq_comm]
    show some (Extended.mul a b) = some (Extended.mul b a)
    rw [Extended.mul, Extended.mul, Bool.or_comm, hsign, Int.add_comm a.exp, Nat.mul_comm a.mant]

namespace Complex

variable {N : Type} [Scalar N] {z : Complex N}

/-- Where the squared modulus overflows, so does the product. -/
theorem mul?_self_eq_none (h : z.modulus? = none) : z.mul? z = none := by
  unfold modulus? at h
  unfold mul?
  cases hx : Scalar.mul? z.x z.x with
  | none => rfl
  | some xx =>
    cases hy : Scalar.mul? z.y z.y with
    | none => rfl
    | some yy =>
      rw [hx, hy] at h
      cases h

end Complex

namespace State

variable {N : Type} [Scalar N] {r : Routine N} {s t : State N} {z w : Complex N}

/-- The value below the current one. -/
def left (s : State N) : Complex N :=
  { s with top := s.top - 1 }.value

/-- The stack has room for the current value, and nothing has overflowed. -/
structure Ready (s : State N) : Prop where
  top : s.top < s.stack.size
  overflow : s.overflow = false

/-- The state is ready for an operation on a value with itself. -/
structure Twice (z : Complex N) (s : State N) : Prop extends s.Ready where
  left : s.left = z
  value : s.value = z

theorem value_setValue (h : s.top < s.stack.size) (w : Complex N) : (s.setValue w).value = w := by
  simp [value, setValue, h]

/-- A value pushed onto itself is there twice. -/
theorem Ready.twice (h : s.Ready) : (s.push s.value).Twice s.value := by
  have htop := h.top
  unfold push
  dsimp only
  split
  case isTrue hfull =>
    exact ⟨⟨by simp [hfull], h.overflow⟩, by simp [left, value, Array.getD_eq_getD_getElem?,
      Array.getElem?_push, Nat.ne_of_lt htop], by simp [value, hfull]⟩
  case isFalse hfull =>
    exact ⟨⟨by simp; omega, h.overflow⟩, by simp [left, value, Array.getD_eq_getD_getElem?],
      by simp [value, Array.getD_eq_getD_getElem?]; omega⟩

/-! ## The instructions -/

/-- A product that overflows leaves the flag, and another one leaves its value. -/
theorem mul_of_twice (h : t.Twice z) :
    (z.mul? z = none → (t.execute r .mul).overflow = true) ∧
      ∀ w, z.mul? z = some w →
        (t.execute r .mul).overflow = false ∧ (t.execute r .mul).value = w := by
  have hmul : t.execute r .mul = t.binary Complex.mul? := rfl
  have hleft : { t with top := t.top - 1 }.value = z := h.left
  have htop : t.top - 1 < t.stack.size := Nat.lt_of_le_of_lt (Nat.sub_le _ _) h.top
  rw [hmul, binary, h.value, hleft]
  refine ⟨fun hnone => ?_, fun w hw => ?_⟩
  · rw [hnone]
    rfl
  · rw [hw]
    exact ⟨h.overflow, value_setValue htop w⟩

theorem mod_of_modulus (h : s.Ready) {m : N} (hm : s.value.modulus? = some m) :
    (s.execute r .mod).overflow = false ∧ (s.execute r .mod).value = Complex.real m := by
  have hmod : s.execute r .mod = s.unary fun z => z.modulus?.map Complex.real := rfl
  rw [hmod, unary, hm]
  exact ⟨h.overflow, value_setValue h.top _⟩

/-- The square overflows with the squared modulus, and so does the product.  Otherwise there is the
product, which the square leaves, and the squared modulus, which it leaves in `lastsqr`. -/
theorem square_cases [SquaresSuffice N] [FactorsCommute N] (s : State N) :
    (s.value.modulus? = none ∧ s.value.mul? s.value = none ∧ s.square = s.overflowed) ∨
      ∃ m w, s.value.modulus? = some m ∧ s.value.mul? s.value = some w ∧
        s.square = (s.setVar Builtin.lastSqr.slot (Complex.real m)).setValue w := by
  cases hm : s.value.modulus? with
  | none => exact .inl ⟨rfl, Complex.mul?_self_eq_none hm, s.square_of_modulus.1 hm⟩
  | some m =>
    right
    simp only [Complex.modulus?, Option.bind_eq_bind, Option.bind_eq_some_iff, Option.pure_def,
      Option.some.injEq] at hm
    obtain ⟨xx, hx, yy, hy, rfl⟩ := hm
    -- The products in the middle are one and the same, and there is no third case.
    obtain ⟨xy, hxy⟩ := SquaresSuffice.exists_mul hx hy
    have hyx : Scalar.mul? s.value.y s.value.x = some xy := by
      rw [FactorsCommute.mul?_comm, hxy]
    refine ⟨Scalar.add xx yy, ⟨Scalar.sub xx yy, Scalar.add xy xy⟩, rfl, ?_, ?_⟩
    · rw [Complex.mul?, hx, hy, hxy, hyx]
      rfl
    · have hvalue : (s.setVar Builtin.lastSqr.slot (.real (Scalar.add xx yy))).value = s.value :=
        rfl
      rw [square, hx, hy]
      dsimp only
      rw [unary, hvalue, hxy]
      rfl

/-- Squaring the current value of `s` does the same as the product that `t` is ready for, and
besides leaves in `lastsqr` what the instruction for the squared modulus does. -/
structure SquaresAs (r : Routine N) (s t : State N) : Prop where
  overflow_iff :
    (s.execute r (.call .sqr)).overflow = true ↔ (t.execute r .mul).overflow = true
  of_fits : (t.execute r .mul).overflow = false →
    (s.execute r (.call .sqr)).value = (t.execute r .mul).value ∧
      (s.execute r .mod).overflow = false ∧ (s.execute r .mod).value.y = Scalar.zero ∧
        (s.execute r (.call .sqr)).vars =
          (s.setVar Builtin.lastSqr.slot (s.execute r .mod).value).vars
  of_overflow : (t.execute r .mul).overflow = true →
    (s.execute r (.call .sqr)).value = s.value ∧ (s.execute r (.call .sqr)).vars = s.vars

theorem squaresAs [SquaresSuffice N] [FactorsCommute N] (r : Routine N) (hs : s.Ready)
    (ht : t.Twice s.value) : s.SquaresAs r t := by
  have hsqr : s.execute r (.call .sqr) = s.square := rfl
  obtain ⟨hover, hfits⟩ := mul_of_twice (r := r) ht
  rcases s.square_cases with ⟨-, hnone, hsquare⟩ | ⟨m, w, hm, hw, hsquare⟩
  · have hproduct := hover hnone
    rw [← hsqr] at hsquare
    constructor
    case overflow_iff => rw [hsquare, hproduct]; exact iff_of_true rfl rfl
    case of_fits => exact fun h => Bool.noConfusion (h.symm.trans hproduct)
    case of_overflow => exact fun _ => by rw [hsquare]; exact ⟨rfl, rfl⟩
  · obtain ⟨hproduct, hvalue⟩ := hfits w hw
    obtain ⟨hmod, hmodulus⟩ := mod_of_modulus (r := r) hs hm
    rw [← hsqr] at hsquare
    constructor
    case overflow_iff =>
      rw [hsquare, hproduct]
      exact iff_of_false (fun h => Bool.noConfusion (hs.overflow.symm.trans h)) Bool.false_ne_true
    case of_fits =>
      intro _
      rw [hsquare, hvalue, hmodulus]
      exact ⟨value_setValue hs.top w, hmod, rfl, rfl⟩
    case of_overflow => exact fun h => Bool.noConfusion (hproduct.symm.trans h)

end State

/-- In fixed point with any number of bits behind the point and in extended precision, `sqr` of a
value is its product with itself. -/
theorem sqr_is_product :
    (∀ (scale : Scale) (r : Routine (Fixed scale)) (s t : State (Fixed scale)),
      s.Ready → t.Twice s.value → s.SquaresAs r t) ∧
    ∀ (r : Routine Extended) (s t : State Extended),
      s.Ready → t.Twice s.value → s.SquaresAs r t :=
  ⟨fun _ r _ _ => State.squaresAs r, fun r _ _ => State.squaresAs r⟩

/-- A state in which the current value is `z`, and nothing else. -/
def State.holding {N : Type} [Scalar N] (z : Complex N) : State N :=
  (State.initial (Array.replicate 19 Complex.zero) .initial).setValue z

/-- In fixed point with 16 bits the square of `3 + 4i` is there and that of `200` overflows.  In
extended precision the square of `1 + i` is there. -/
theorem sqr_is_product_instances :
    let scale : Scale := ⟨16, by decide, by decide⟩
    let r : Routine (Fixed scale) := ⟨#[], #[], #[], #[], false, {}, [], #[], none⟩
    let r' : Routine Extended := ⟨#[], #[], #[], #[], false, {}, [], #[], none⟩
    let s : State (Fixed scale) := .holding ⟨⟨196608⟩, ⟨262144⟩⟩
    let s' : State (Fixed scale) := .holding ⟨⟨13107200⟩, ⟨0⟩⟩
    let s'' : State Extended := .holding ⟨.one, .one⟩
    (s.SquaresAs r (s.push s.value) ∧ (s.execute r (.call .sqr)).overflow = false) ∧
      (s'.SquaresAs r (s'.push s'.value) ∧ (s'.execute r (.call .sqr)).overflow = true) ∧
        s''.SquaresAs r' (s''.push s''.value) := by
  intro scale r r' s s' s''
  have hs : s.Ready := ⟨by decide, rfl⟩
  have hs' : s'.Ready := ⟨by decide, rfl⟩
  have hs'' : s''.Ready := ⟨by decide, rfl⟩
  exact ⟨⟨sqr_is_product.1 scale r s _ hs hs.twice, by decide⟩,
    ⟨sqr_is_product.1 scale r s' _ hs' hs'.twice, by decide⟩,
    sqr_is_product.2 r' s'' _ hs'' hs''.twice⟩

end FractalFormula
