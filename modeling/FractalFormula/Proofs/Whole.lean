/-
Whole parts in extended precision.

From the exponent 63 on a number is whole, below the exponent 0 nothing of it is, and in between the
bits behind the point are cleared (`splits_split`).  What rounds down or up takes one off the whole
part or adds one to it.  The result needs 64 bits at most, so that the sum is exact: rounding toward
zero, down and up gives the integers that these are for rationals (`denotes_trunc`,
`denotes_floor`, `denotes_ceil`).
-/
import FractalFormula.Proofs.Sums
import FractalFormula.Proofs.WholePart

namespace FractalFormula
namespace Extended

variable {a b r r' : Extended} {neg : Bool} {q x y : ℚ}

/-! ## The form of a rational -/

/-- The number `r` is the form of the rational `q`. -/
structure Denotes (r : Extended) (q : ℚ) : Prop where
  canonical : r.Canonical
  value : r.value = q

theorem Denotes.of_canonical (h : a.Canonical) : a.Denotes a.value :=
  ⟨h, rfl⟩

theorem Denotes.truncates (h : r.Denotes q) : Truncates q r :=
  h.value ▸ truncates_value h.canonical

/-- A rational has one form. -/
theorem Denotes.eq_iff (h : r.Denotes q) : r' = r ↔ r'.Denotes q :=
  ⟨fun he => he ▸ h, fun h' => h'.truncates.unique h.truncates⟩

theorem Faithful.denotes (h : Faithful q r) (hq : Representable q) : r.Denotes q :=
  ⟨h.canonical, h.exact hq⟩

theorem denotes_zero : zero.Denotes 0 :=
  ⟨canonical_zero, value_zero⟩

theorem denotes_one : one.Denotes 1 := by
  refine ⟨by decide, ?_⟩
  norm_num [value, magnitude, ulp, one, signed, top]

theorem denotes_add (ha : a.Denotes x) (hb : b.Denotes y) (h : Representable (x + y)) :
    (a.add b).Denotes (x + y) := by
  rw [← ha.value, ← hb.value] at h ⊢
  exact (faithful_add ha.canonical hb.canonical).1.denotes h

theorem denotes_negate (ha : a.Denotes x) : a.negate.Denotes (-x) :=
  ⟨canonical_negate ha.canonical, by rw [value_negate, ha.value]⟩

theorem denotes_sub (ha : a.Denotes x) (hb : b.Denotes y) (h : Representable (x - y)) :
    (a.sub b).Denotes (x - y) := by
  rw [sub_eq_add_neg] at h ⊢
  exact denotes_add ha (denotes_negate hb) h

theorem representable_intCast {n : ℤ} (h : n.natAbs < 2 * top) : Representable (n : ℚ) :=
  ⟨n.natAbs, 0, h, by rw [zpow_zero, mul_one, Nat.cast_natAbs, Int.cast_abs]⟩

/-! ## Size and exponent -/

theorem magnitude_of_pos (h : 0 < a.value) : a.magnitude = a.value := by
  rw [← abs_value, abs_of_pos h]

theorem magnitude_of_neg (h : a.value < 0) : a.magnitude = -a.value := by
  rw [← abs_value, abs_of_neg h]

theorem magnitude_lt_two_zpow (ha : a.Canonical) : a.magnitude < 2 ^ (a.exp + 1) := by
  have hm : (a.mant : ℚ) < 2 ^ 64 := by exact_mod_cast ha.mant_lt
  have hexp : (2 : ℚ) ^ (a.exp + 1) = 2 ^ 64 * a.ulp := by
    rw [ulp, ← zpow_natCast, ← zpow_add₀ two_ne_zero]
    congr 1
    push_cast
    ring
  rw [hexp]
  exact mul_lt_mul_of_pos_right hm a.ulp_pos

theorem two_zpow_le_magnitude (ha : a.Canonical) (hz : a ≠ zero) : 2 ^ a.exp ≤ a.magnitude := by
  have hm : (2 : ℚ) ^ 63 ≤ a.mant := by exact_mod_cast (ha.resolve_left hz).1
  have hexp : (2 : ℚ) ^ a.exp = 2 ^ 63 * a.ulp := by
    rw [ulp, ← zpow_natCast, ← zpow_add₀ two_ne_zero]
    congr 1
    push_cast
    ring
  rw [hexp]
  exact mul_le_mul_of_nonneg_right hm a.ulp_pos.le

theorem value_neg_iff (ha : a.Canonical) : a.value < 0 ↔ a.isNegative = true := by
  by_cases hz : a = zero
  · subst hz
    simp [show zero.isNegative = false from rfl]
  · have hm : a.mant ≠ 0 := fun hm => hz (ha.eq_zero hm)
    rw [value, signed_lt_zero_iff (ha.magnitude_pos hz), isNegative]
    simp [hm]

theorem signed_inj (neg : Bool) : signed neg x = signed neg y ↔ x = y := by
  cases neg <;> simp [signed]

theorem wholePart_signed (neg : Bool) (hx : 0 ≤ x) :
    (wholePart (signed neg x) : ℚ) = signed neg ⌊x⌋₊ := by
  have hfloor : (wholePart x : ℚ) = ⌊x⌋₊ := by
    rw [wholePart_of_nonneg hx, natCast_floor_eq_intCast_floor hx]
  cases neg
  case false => exact hfloor
  case true => rw [signed, if_pos rfl, wholePart_neg, Int.cast_neg, hfloor]; rfl

theorem wholePart_value (a : Extended) : (wholePart a.value : ℚ) = signed a.neg ⌊a.magnitude⌋₊ :=
  wholePart_signed _ a.magnitude_nonneg

theorem cast_div_eq_iff {m n : ℕ} (hn : 0 < n) : (m : ℚ) / n = (m / n : ℕ) ↔ n ∣ m := by
  have hn' : (n : ℚ) ≠ 0 := by exact_mod_cast hn.ne'
  constructor
  · intro h
    rw [div_eq_iff hn'] at h
    exact ⟨m / n, by rw [mul_comm]; exact_mod_cast h⟩
  · exact fun h => (Nat.cast_div h hn').symm

/-! ## Clearing what stands behind the point -/

/-- The first part of `p` is the whole part of `a`, and the second says whether there is more. -/
structure Splits (a : Extended) (p : Extended × Bool) : Prop where
  denotes : p.1.Denotes (wholePart a.value)
  cut : p.2 = true ↔ a.value ≠ wholePart a.value

/-- From the exponent 63 on the last bit stands for a whole number. -/
theorem value_eq_wholePart (h : 63 ≤ a.exp) : a.value = wholePart a.value := by
  obtain ⟨k, hk⟩ := Int.le.dest h
  have hmag : a.magnitude = (a.mant * 2 ^ k : ℕ) := by
    rw [magnitude, ulp, show a.exp - 63 = k by omega, zpow_natCast]
    push_cast
    rfl
  rw [wholePart_value, hmag, Nat.floor_natCast, ← hmag, value]

theorem splits_of_whole (ha : a.Canonical) (h : a.value = wholePart a.value) :
    a.Splits (a, false) where
  denotes := ⟨ha, h⟩
  cut := by simp [← h]

/-- Below the exponent 0 all bits stand behind the point. -/
theorem splits_of_neg (ha : a.Canonical) (hz : a ≠ zero) (h : a.exp < 0) :
    a.Splits (zero, true) := by
  have hlt : a.magnitude < 1 :=
    calc a.magnitude < 2 ^ (a.exp + 1) := magnitude_lt_two_zpow ha
      _ ≤ 1 := zpow_le_one_of_nonpos₀ one_le_two (by omega)
  have hwhole : (wholePart a.value : ℚ) = 0 := by
    rw [wholePart_value, Nat.floor_eq_zero.mpr hlt]
    cases a.neg <;> simp [signed]
  constructor
  case denotes => exact hwhole ▸ denotes_zero
  case cut => simp [hwhole, ha.value_eq_zero_iff, hz]

/-- In between, the bits behind the point are the last `k`. -/
theorem splits_cleared (ha : a.Canonical) (hz : a ≠ zero) {k : ℕ} (hk : k ≤ 63)
    (he : a.exp = 63 - k) :
    a.Splits ({ a with mant := a.mant / 2 ^ k * 2 ^ k }, a.mant % 2 ^ k != 0) := by
  have hulp : a.ulp = (2 ^ k)⁻¹ := by
    rw [ulp, he, show (63 : ℤ) - k - 63 = -k by ring, zpow_neg, zpow_natCast]
  have hmag : a.magnitude = a.mant / (2 ^ k : ℕ) := by
    rw [magnitude, hulp, Nat.cast_pow, Nat.cast_ofNat]
    rfl
  have hfloor : (wholePart a.value : ℚ) = signed a.neg (a.mant / 2 ^ k : ℕ) := by
    rw [wholePart_value, hmag, Nat.floor_div_eq_div]
  have hkept : magnitude { a with mant := a.mant / 2 ^ k * 2 ^ k } = (a.mant / 2 ^ k : ℕ) := by
    show ((a.mant / 2 ^ k * 2 ^ k : ℕ) : ℚ) * a.ulp = _
    rw [hulp]
    push_cast
    field_simp
  constructor
  case denotes =>
    constructor
    case canonical =>
      refine Or.inr ⟨?_, (Nat.div_mul_le_self _ _).trans_lt ha.mant_lt⟩
      have hdvd : 2 ^ k ∣ top := pow_dvd_pow 2 hk
      calc top = top / 2 ^ k * 2 ^ k := (Nat.div_mul_cancel hdvd).symm
        _ ≤ a.mant / 2 ^ k * 2 ^ k :=
          Nat.mul_le_mul_right _ (Nat.div_le_div_right (ha.resolve_left hz).1)
    case value => rw [value, hkept, hfloor]
  case cut =>
    have hsame : a.value = wholePart a.value ↔ a.mant % 2 ^ k = 0 := by
      rw [hfloor, value, signed_inj, hmag, cast_div_eq_iff (Nat.two_pow_pos k),
        Nat.dvd_iff_mod_eq_zero]
    rw [bne_iff_ne, ne_eq, ne_eq, hsame]

theorem splits_split (ha : a.Canonical) : a.Splits a.split := by
  rw [split]
  split
  case isTrue h =>
    rw [Bool.or_eq_true, ha.isZero_iff, decide_eq_true_eq] at h
    apply splits_of_whole ha
    rcases h with rfl | h
    · simp [wholePart]
    · exact value_eq_wholePart h
  case isFalse h =>
    rw [Bool.or_eq_true, not_or, ha.isZero_iff, decide_eq_true_eq] at h
    split
    case isTrue hneg => exact splits_of_neg ha h.1 hneg
    case isFalse hneg =>
      rw [Nat.one_shiftLeft]
      exact splits_cleared ha h.1 (by omega) (by omega)

/-! ## Rounding to a whole number -/

theorem denotes_trunc (ha : a.Canonical) : a.trunc.Denotes (wholePart a.value) :=
  (splits_split ha).denotes

/-- Where something was cut off, the number has fewer than 64 bits in front of the point. -/
theorem exp_lt_of_cut (h : a.value ≠ wholePart a.value) : a.exp < 63 := by
  by_contra hexp
  exact h (value_eq_wholePart (not_lt.mp hexp))

theorem abs_value_lt_of_cut (ha : a.Canonical) (h : a.value ≠ wholePart a.value) :
    |a.value| < top := by
  rw [abs_value]
  calc a.magnitude < 2 ^ (a.exp + 1) := magnitude_lt_two_zpow ha
    _ ≤ 2 ^ (63 : ℤ) := zpow_le_zpow_right₀ one_le_two (by have := exp_lt_of_cut h; omega)
    _ = top := by norm_num [top]

theorem denotes_floor (ha : a.Canonical) : a.floor.Denotes ⌊a.value⌋ := by
  have hsplit := splits_split ha
  rw [floor]
  split
  case isTrue h =>
    rw [Bool.and_eq_true, ← value_neg_iff ha, hsplit.cut] at h
    have hfloor := floor_eq_wholePart_sub_one h.1 h.2
    have hsmall := abs_lt.mp (abs_value_lt_of_cut ha h.2)
    have hrep : Representable (⌊a.value⌋ : ℚ) := by
      apply representable_intCast
      have hlow : -(top : ℤ) ≤ ⌊a.value⌋ := Int.le_floor.mpr (by exact_mod_cast hsmall.1.le)
      have hhigh : ⌊a.value⌋ < top := Int.floor_lt.mpr (by exact_mod_cast hsmall.2)
      omega
    rw [hfloor] at hrep ⊢
    push_cast at hrep ⊢
    exact denotes_sub hsplit.denotes denotes_one hrep
  case isFalse h =>
    rw [Bool.and_eq_true, ← value_neg_iff ha, hsplit.cut, not_and_or, not_lt, not_not] at h
    rw [floor_eq_wholePart h]
    exact hsplit.denotes

theorem denotes_ceil (ha : a.Canonical) : a.ceil.Denotes ⌈a.value⌉ := by
  have hsplit := splits_split ha
  rw [ceil]
  split
  case isTrue h =>
    rw [Bool.and_eq_true, Bool.not_eq_true', ← Bool.not_eq_true, ← value_neg_iff ha, hsplit.cut,
      not_lt] at h
    have hceil := ceil_eq_wholePart_add_one h.1 h.2
    have hsmall := abs_lt.mp (abs_value_lt_of_cut ha h.2)
    have hrep : Representable (⌈a.value⌉ : ℚ) := by
      apply representable_intCast
      have hlow : -(top : ℤ) < ⌈a.value⌉ := Int.lt_ceil.mpr (by exact_mod_cast hsmall.1)
      have hhigh : ⌈a.value⌉ ≤ top := Int.ceil_le.mpr (by exact_mod_cast hsmall.2.le)
      omega
    rw [hceil] at hrep ⊢
    push_cast at hrep ⊢
    exact denotes_add hsplit.denotes denotes_one hrep
  case isFalse h =>
    rw [Bool.and_eq_true, Bool.not_eq_true', ← Bool.not_eq_true, ← value_neg_iff ha, hsplit.cut,
      not_and_or, not_not, not_not] at h
    rw [ceil_eq_wholePart h]
    exact hsplit.denotes

end Extended
end FractalFormula
