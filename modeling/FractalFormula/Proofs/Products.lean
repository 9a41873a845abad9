/-
Products and quotients.

A product in extended precision is the exact product cut off behind the 64th bit, and a quotient is
the exact quotient cut off there (`mul_div_truncate`).  The product of two mantissas has 127 or 128
bits and the quotient, with 64 zeros behind the dividend, has 64 or 65, so both fill a mantissa and
nothing that is cut off was needed.  All this fits into words of 128 bits: the operations on words
(`mulWide`, `divWide?`) have the same results.
-/
import FractalFormula.Proofs.Mantissa

namespace FractalFormula
namespace Extended

variable {a b : Extended}

/-! ## The exact product and quotient -/

theorem top_le_product (ha : top ≤ a.mant) (hb : top ≤ b.mant) : top ≤ a.mant * b.mant :=
  calc top ≤ top * top := by decide
    _ ≤ a.mant * b.mant := Nat.mul_le_mul ha hb

theorem top_le_quotient (ha : top ≤ a.mant) (hb : top ≤ b.mant) (hlt : b.mant < 2 * top) :
    top ≤ (a.mant <<< 64) / b.mant := by
  simp only [top] at ha hb hlt ⊢
  rw [Nat.shiftLeft_eq, Nat.le_div_iff_mul_le (by omega)]
  omega

theorem product_lt (ha : a.Canonical) (hb : b.Canonical) : a.mant * b.mant < 2 ^ 128 :=
  calc a.mant * b.mant < 2 * top * (2 * top) := Nat.mul_lt_mul'' ha.mant_lt hb.mant_lt
    _ = 2 ^ 128 := by decide

theorem dividend_lt (ha : a.Canonical) : a.mant <<< 64 < 2 ^ 128 := by
  have hlt := ha.mant_lt
  rw [Nat.shiftLeft_eq]
  simp only [top] at hlt
  omega

theorem value_mul_value (a b : Extended) :
    a.value * b.value =
      signed (a.neg != b.neg) ((a.mant * b.mant : ℕ) * 2 ^ (a.exp + b.exp - 126)) := by
  rw [value, value, signed_mul_signed, magnitude, magnitude, ulp, ulp,
    show a.exp + b.exp - 126 = (a.exp - 63) + (b.exp - 63) by ring, zpow_add₀ two_ne_zero]
  push_cast
  ring_nf

theorem value_div_value (a b : Extended) :
    a.value / b.value =
      signed (a.neg != b.neg) ((a.mant <<< 64 : ℕ) / b.mant * 2 ^ (a.exp - b.exp - 64)) := by
  have hexp : (2 : ℚ) ^ (a.exp - b.exp - 64) = a.ulp / b.ulp / 2 ^ 64 := by
    rw [ulp, ulp, ← zpow_sub₀ two_ne_zero, ← zpow_natCast, ← zpow_sub₀ two_ne_zero]
    congr 1
    push_cast
    ring
  rw [value, value, signed_div_signed, magnitude, magnitude, Nat.shiftLeft_eq, hexp]
  push_cast
  congr 1
  field_simp
  norm_num

theorem truncates_mul (ha : a.Canonical) (hb : b.Canonical) :
    Truncates (a.value * b.value) (a.mul b) := by
  rw [mul]
  split
  case isTrue h =>
    have hz : a.value * b.value = 0 := by
      rw [Bool.or_eq_true, ha.isZero_iff, hb.isZero_iff] at h
      rcases h with rfl | rfl <;> simp
    rw [hz]
    exact truncates_zero
  case isFalse h =>
    rw [Bool.or_eq_true, not_or, ha.isZero_iff, hb.isZero_iff] at h
    rw [value_mul_value]
    have hfull := top_le_product (ha.resolve_left h.1).1 (hb.resolve_left h.2).1
    exact truncates_of_top_le hfull le_rfl (lt_add_one _)

theorem div?_eq_none_iff (hb : b.Canonical) : a.div? b = none ↔ b = zero := by
  rw [← hb.isZero_iff, div?]
  split
  case isTrue h => simp [h]
  case isFalse h => split <;> simp [h]

theorem truncates_div (ha : a.Canonical) (hb : b.Canonical) (hz : b ≠ zero) :
    ∃ q, a.div? b = some q ∧ Truncates (a.value / b.value) q := by
  have hb0 : ¬b.isZero := fun h => hz (hb.isZero_iff.mp h)
  rw [div?, if_neg hb0]
  split
  case isTrue h =>
    rw [ha.isZero_iff.mp h, value_zero, zero_div]
    exact ⟨zero, rfl, truncates_zero⟩
  case isFalse h =>
    rw [ha.isZero_iff] at h
    refine ⟨_, rfl, ?_⟩
    have hfull := top_le_quotient (ha.resolve_left h).1 (hb.resolve_left hz).1 hb.mant_lt
    rw [value_div_value]
    apply truncates_of_top_le hfull
    · exact Nat.cast_div_le
    · exact lt_cast_div_add_one _ _

/-! ## Words of 128 bits -/

/-- The normal form of a word of 128 bits, with the mantissa in a word of 64. -/
def normalizeWide (neg : Bool) (e : Int) (m : BitVec 128) : Extended :=
  if m = 0 then zero
  else
    let bit := m.toNat.log2
    if 63 < bit then ⟨neg, e + bit, ((m >>> (bit - 63)).setWidth 64).toNat⟩
    else ⟨neg, e + bit, ((m <<< (63 - bit)).setWidth 64).toNat⟩

/-- The product, with the mantissas multiplied on words of 128 bits. -/
def mulWide (a b : Extended) : Extended :=
  if a.isZero || b.isZero then zero
  else
    normalizeWide (a.neg != b.neg) (a.exp + b.exp - 126)
      (BitVec.ofNat 128 a.mant * BitVec.ofNat 128 b.mant)

/-- The quotient, with the mantissas divided on words of 128 bits. -/
def divWide? (a b : Extended) : Option Extended :=
  if b.isZero then none
  else if a.isZero then some zero
  else
    some (normalizeWide (a.neg != b.neg) (a.exp - b.exp - 64)
      (BitVec.ofNat 128 a.mant <<< 64 / BitVec.ofNat 128 b.mant))

/-- Both shifts bring the mantissa into 64 bits, so nothing is lost in either word. -/
theorem normalizeWide_eq (neg : Bool) (e : Int) (m : BitVec 128) :
    normalizeWide neg e m = normalize neg e m.toNat := by
  have hlt := (canonical_normalize neg e m.toNat).mant_lt
  rw [normalizeWide, normalize]
  rw [normalize] at hlt
  by_cases hz : m = 0
  · simp [hz]
  have hn : m.toNat ≠ 0 := fun h => hz (BitVec.eq_of_toNat_eq h)
  rw [if_neg hz, if_neg hn]
  rw [if_neg hn] at hlt
  simp only [top] at hlt
  have hword : (2 : ℕ) * 0x8000000000000000 < 2 ^ 128 := by decide
  by_cases hbit : 63 < m.toNat.log2
  · simp only [hbit, if_true] at hlt ⊢
    rw [BitVec.toNat_setWidth, BitVec.toNat_ushiftRight, Nat.mod_eq_of_lt hlt]
  · simp only [hbit, if_false] at hlt ⊢
    rw [BitVec.toNat_setWidth, BitVec.toNat_shiftLeft, Nat.mod_eq_of_lt (hlt.trans hword),
      Nat.mod_eq_of_lt hlt]

theorem toNat_mant (ha : a.Canonical) : (BitVec.ofNat 128 a.mant).toNat = a.mant := by
  have hlt := ha.mant_lt
  simp only [top] at hlt
  rw [BitVec.toNat_ofNat, Nat.mod_eq_of_lt (by omega)]

theorem mulWide_eq (ha : a.Canonical) (hb : b.Canonical) : a.mulWide b = a.mul b := by
  rw [mulWide, mul, normalizeWide_eq, BitVec.toNat_mul, toNat_mant ha, toNat_mant hb,
    Nat.mod_eq_of_lt (product_lt ha hb)]

theorem divWide?_eq (ha : a.Canonical) (hb : b.Canonical) : a.divWide? b = a.div? b := by
  rw [divWide?, div?, normalizeWide_eq, BitVec.toNat_udiv, BitVec.toNat_shiftLeft, toNat_mant ha,
    toNat_mant hb, Nat.mod_eq_of_lt (dividend_lt ha)]

/-! ## Both operations -/

/-- The product is the exact product without what lies behind its 64th bit, and so is the quotient,
which is missing for a zero divisor alone.  The dividend and the product fit into 128 bits, and with
words of that width the results are the same. -/
theorem mul_div_truncate (ha : a.Canonical) (hb : b.Canonical) :
    (∀ r, r = a.mul b ↔ Truncates (a.value * b.value) r) ∧
    (a.div? b = none ↔ b = zero) ∧
    (b ≠ zero → ∃ q, a.div? b = some q ∧ ∀ r, r = q ↔ Truncates (a.value / b.value) r) ∧
    a.mant * b.mant < 2 ^ 128 ∧ a.mant <<< 64 < 2 ^ 128 ∧
    a.mulWide b = a.mul b ∧ a.divWide? b = a.div? b := by
  refine ⟨fun r => (truncates_mul ha hb).eq_iff, div?_eq_none_iff hb, ?_, product_lt ha hb,
    dividend_lt ha, mulWide_eq ha hb, divWide?_eq ha hb⟩
  intro hz
  obtain ⟨q, hq, ht⟩ := truncates_div ha hb hz
  exact ⟨q, hq, fun r => ht.eq_iff⟩

/-- A third. -/
theorem truncates_third :
    ∃ q, one.div? ⟨false, 1, 0xC000000000000000⟩ = some q ∧
      ∀ r, r = q ↔ Truncates (one.value / value ⟨false, 1, 0xC000000000000000⟩) r :=
  (mul_div_truncate (by decide) (by decide)).2.2.1 (by decide)

end Extended
end FractalFormula
