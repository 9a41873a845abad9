/-
A zero behind the point.

A whole number reads as the same double whether a point and a zero follow it or not
(`Decimal.Literal.toFloat_zero`): once the number is multiplied with its power of ten, and once ten
times the number is divided by ten.  Both are the nearest double (`Double.nearest`), since rounding
depends on the number alone and not on the zeros that its binary digits end with
(`Double.roundWithAccuracy_zeros`).
-/
import FractalFormula.Proofs.Scaled
import FractalFormula.Decimal.Reader

namespace FractalFormula

open Float.Model Float.Model.UnpackedFloat

namespace Double

/-! ## Rounding -/

variable {m n k : ℕ} {e : ℤ}

theorem shiftRight_add (em : ExtendedMantissa) (j k : ℕ) : em >>> (j + k) = (em >>> j) >>> k := by
  induction k with
  | zero => rfl
  | succ k ih => exact congrArg ExtendedMantissa.shiftRightOne ih

/-- Zeros that the binary digits end with change nothing, as long as nothing but them has room below
the last bit of a double. -/
theorem roundWithAccuracy_zeros (sign : Sign) (hm : 0 < m) (k : ℕ)
    (h : e + k ≤ max (m.log2 + (e + k) - 52) (-1074)) :
    roundWithAccuracy .binary64 sign (m * 2 ^ k) e .exact =
      roundWithAccuracy .binary64 sign m (e + k) .exact := by
  have htarget : Format.binary64.targetExponent (totalExponent (m * 2 ^ k) e) =
      Format.binary64.targetExponent (totalExponent m (e + k)) := by
    rw [targetExponent_eq, targetExponent_eq, log2_mul_two_pow hm]
    push_cast
    ring_nf
  have hshift : shiftToTargetExponent .binary64 (m * 2 ^ k) e .exact =
      shiftToTargetExponent .binary64 m (e + k) .exact := by
    rw [shiftToTargetExponent, shiftToTargetExponent, htarget, targetExponent_eq]
    obtain ⟨r, hr⟩ := Int.eq_ofNat_of_zero_le (sub_nonneg.mpr h)
    have hless : (max (m.log2 + (e + k) - 52) (-1074) - (e + k)).toNat = r := by omega
    have hmore : (max (m.log2 + (e + k) - 52) (-1074) - e).toNat = k + r := by omega
    rw [shiftToExponent, shiftToExponent, hless, hmore, shiftRight_add]
    refine Prod.ext (congrArg (fun em : ExtendedMantissa => em >>> r) (shiftRight_eq k m)) ?_
    push_cast
    ring
  rw [roundWithAccuracy, roundWithAccuracy, hshift]

/-- The double nearest to a whole number, unpacked. -/
def nearest (m : ℕ) : UnpackedFloat :=
  roundWithAccuracy .binary64 .positive (m * 2 ^ 1074) (-1074) .exact

theorem roundWithAccuracy_eq_nearest (hm : 0 < m) (hk : k ≤ 1074) (h : 52 ≤ m.log2 + k) :
    roundWithAccuracy .binary64 .positive (m * 2 ^ k) (-k) .exact = nearest m := by
  have hlog := log2_mul_two_pow hm k
  have hmore := roundWithAccuracy_zeros (m := m * 2 ^ k) (e := -1074) .positive (by positivity)
    (1074 - k) (by omega)
  rw [mul_assoc, ← pow_add, Nat.add_sub_cancel' hk, show -1074 + ((1074 - k : ℕ) : ℤ) = -k by omega]
    at hmore
  exact hmore.symm

/-! ## Whole numbers and tenths -/

/-- The word that a double is, from what it is unpacked to. -/
def ofUnpacked (u : UnpackedFloat) : Float :=
  .ofModel (.pack u)

theorem ofScientific_whole (hm : 0 < m) : Float.ofScientific m false 0 = ofUnpacked (nearest m) := by
  by_cases hfast : m < 2 ^ 53
  case pos =>
    have hone : Full (Float.ofBits 0x3FF0000000000000) false (2 ^ 52) (-52) :=
      full_powerOfTwo (k := 0) (by decide) (by decide)
    have hlog : m.log2 < 53 := (Nat.log2_lt hm.ne').mpr hfast
    obtain ⟨k, hk⟩ : ∃ k, m.log2 + k = 52 := ⟨52 - m.log2, by omega⟩
    have hfull := full_toFloat hm hfast
    rw [show 52 - m.log2 = k by omega] at hfull
    obtain ⟨_, hx⟩ := hfull.unpack
    obtain ⟨_, hy⟩ := hone.unpack
    rw [Float.ofScientific, dif_pos ⟨hfast, by decide⟩]
    show Float.ofModel (.pack (UnpackedFloat.mul .binary64 m.toUInt64.toFloat.toModel.unpack
      (Float.ofBits 0x3FF0000000000000).toModel.unpack)) = _
    rw [hx, hy, UnpackedFloat.mul, signOf_mul, mul_assoc, ← pow_add,
      show -(k : ℤ) + -52 = -((k + 52 : ℕ) : ℤ) by omega]
    exact congrArg ofUnpacked (roundWithAccuracy_eq_nearest hm (by omega) (by omega))
  case neg =>
    have hlog : 53 ≤ m.log2 := (Nat.le_log2 hm.ne').mpr (not_lt.mp hfast)
    have hround : roundWithAccuracy .binary64 .positive (m <<< 53 * 10 ^ 0) (-53 + 0) .exact =
        nearest m := by
      rw [Nat.shiftLeft_eq, pow_zero, mul_one, add_zero]
      exact roundWithAccuracy_eq_nearest (k := 53) hm (by decide) (by omega)
    have hmodel : UnpackedFloat.ofScientific .binary64 m 0 = nearest m := by
      rw [UnpackedFloat.ofScientific, dif_neg hm.ne', if_neg (by decide), if_neg (by simp),
        if_pos le_rfl, UnpackedFloat.mul]
      exact hround
    rw [Float.ofScientific, dif_neg fun h => hfast h.1]
    exact congrArg ofUnpacked hmodel

/-- A quotient without a remainder is rounded as the whole number that it is. -/
theorem div_eq_nearest {a b d : ℕ} {x y : ℤ} (ha : 0 < a) (hb : 0 < b) (hm : 0 < m)
    (hquotient : a * 2 ^ d = m * b) (hexp : x - y = d)
    (hk : min (d : ℤ) (max (a.log2 - b.log2 + d - 53) (-1074)) = -k) (h : 52 ≤ m.log2 + k) :
    UnpackedFloat.div .binary64 (.finite .positive a x ha) (.finite .positive b y hb) =
      nearest m := by
  have htarget : min (x - y) (Format.binary64.targetExponent
      (totalExponent a x - totalExponent b y)) = -k := by
    rw [← hk, hexp, totalExponent, totalExponent]
    show min (d : ℤ) (max ((a.log2 : ℤ) + 1 + x - (b.log2 + 1 + y) - 53) (-1074)) = _
    omega
  have hshift : a <<< (x - y - -(k : ℤ)).toNat = m * 2 ^ k * b := by
    rw [hexp, sub_neg_eq_add, show ((d : ℤ) + k).toNat = d + k by omega, Nat.shiftLeft_eq, pow_add,
      ← mul_assoc, hquotient]
    ring
  have hcore : divCore .binary64 a x b y = (m * 2 ^ k, -(k : ℤ), .exact) := by
    rw [divCore, htarget, hshift, Nat.mul_div_cancel _ hb, Nat.mul_mod_left]
    rfl
  rw [UnpackedFloat.div, hcore]
  exact roundWithAccuracy_eq_nearest hm (by omega) h

theorem log2_ten_mul (hm : 0 < m) : m.log2 + 3 ≤ (10 * m).log2 ∧ (10 * m).log2 ≤ m.log2 + 4 := by
  have hlow := Nat.log2_self_le hm.ne'
  have hhigh := Nat.lt_log2_self (n := m)
  constructor
  · rw [Nat.le_log2 (by positivity), pow_add]
    omega
  · rw [← Nat.lt_succ_iff, Nat.log2_lt (by positivity), Nat.succ_eq_add_one, add_right_comm, pow_add]
    omega

theorem ofScientific_tenth (hm : 0 < m) :
    Float.ofScientific (10 * m) true 1 = ofUnpacked (nearest m) := by
  have hten : 0 < 10 * m := by omega
  obtain ⟨hmore, hless⟩ := log2_ten_mul hm
  by_cases hfast : 10 * m < 2 ^ 53
  case pos =>
    have hdivisor : Full (Float.ofBits 0x4024000000000000) false (10 * 2 ^ 49) (-49) :=
      full_ofBits (by decide) (by decide)
    have hlog : (10 * m).log2 < 53 := (Nat.log2_lt hten.ne').mpr hfast
    obtain ⟨j, hj⟩ : ∃ j, (10 * m).log2 + j = 52 := ⟨52 - (10 * m).log2, by omega⟩
    have hfull := full_toFloat hten hfast
    rw [show 52 - (10 * m).log2 = j by omega] at hfull
    obtain ⟨_, hx⟩ := hfull.unpack
    obtain ⟨_, hy⟩ := hdivisor.unpack
    rw [Float.ofScientific, dif_pos ⟨hfast, by decide⟩]
    show Float.ofModel (.pack (UnpackedFloat.div .binary64 (10 * m).toUInt64.toFloat.toModel.unpack
      (Float.ofBits 0x4024000000000000).toModel.unpack)) = _
    rw [hx, hy]
    have hdividend : (10 * m * 2 ^ j).log2 = 52 := by rw [log2_mul_two_pow hten, hj]
    have hdivisor : (10 * 2 ^ 49).log2 = 52 := by decide +kernel
    refine congrArg ofUnpacked (div_eq_nearest (d := 49 - j) (k := j + 4) _ _ hm ?_ (by omega) ?_
      (by omega))
    · rw [mul_assoc, ← pow_add, Nat.add_sub_cancel' (by omega)]
      ring
    · rw [hdividend, hdivisor]
      omega
  case neg =>
    have hlog : 53 ≤ (10 * m).log2 := (Nat.le_log2 hten.ne').mpr (not_lt.mp hfast)
    have hlog10 : (10 : ℕ).log2 = 3 := by decide +kernel
    have hmodel : UnpackedFloat.ofScientific .binary64 (10 * m) (-1) = nearest m := by
      rw [UnpackedFloat.ofScientific, dif_neg hten.ne', if_neg (by decide),
        if_neg (by simp), if_neg (by decide)]
      refine div_eq_nearest (d := 0) (k := 56 - (10 * m).log2) _ _ hm ?_ rfl ?_ (by omega)
      · rw [pow_zero, mul_one, mul_comm]
        rfl
      · show min ((0 : ℕ) : ℤ) (max ((10 * m).log2 - (10 : ℕ).log2 + (0 : ℕ) - 53) (-1074)) = _
        rw [hlog10]
        omega
    rw [Float.ofScientific, dif_neg fun h => hfast h.1]
    exact congrArg ofUnpacked hmodel

end Double

/-! ## Literals -/

namespace Decimal

open Double

variable {ds : List Char}

theorem natOfDigits_append_zero (ds : List Char) :
    natOfDigits (ds ++ ['0']) = 10 * natOfDigits ds := by
  rw [natOfDigits, List.foldl_append]
  rfl

theorem natOfDigits_eq_zero (h : ds.dropWhile (· == '0') = []) : natOfDigits ds = 0 := by
  induction ds with
  | nil => rfl
  | cons c ds ih =>
    rw [List.dropWhile_cons] at h
    split at h
    case isTrue hc =>
      rw [eq_of_beq hc]
      exact ih h
    case isFalse => cases h

namespace Literal

theorem toFloat_of_digits_eq_zero {l : Literal} (h : l.digits = 0) : l.toFloat = 0 :=
  if_pos h

/-- A whole number may be written with a zero behind its point. -/
theorem toFloat_zero (whole : List Char) :
    toFloat ⟨whole, ['0'], 0⟩ = toFloat ⟨whole, [], 0⟩ := by
  have hdigits : digits ⟨whole, ['0'], 0⟩ = 10 * digits ⟨whole, [], 0⟩ := by
    rw [digits, digits, natOfDigits_append_zero, List.append_nil]
  by_cases hzero : digits ⟨whole, [], 0⟩ = 0
  · rw [toFloat_of_digits_eq_zero hzero, toFloat_of_digits_eq_zero (by rw [hdigits, hzero])]
  have hne : whole.dropWhile (· == '0') ≠ [] := by
    intro h
    apply hzero
    rw [digits, List.append_nil, natOfDigits_eq_zero h]
  have hlength : length ⟨whole, ['0'], 0⟩ = length ⟨whole, [], 0⟩ + 1 := by
    rw [length, length, List.append_nil, List.dropWhile_append, if_neg (by simpa using hne),
      List.length_append]
    rfl
  have htenth : scale ⟨whole, ['0'], 0⟩ = -1 := rfl
  have hwhole : scale ⟨whole, [], 0⟩ = 0 := rfl
  have hsame : scale ⟨whole, ['0'], 0⟩ + length ⟨whole, ['0'], 0⟩ =
      scale ⟨whole, [], 0⟩ + length ⟨whole, [], 0⟩ := by
    rw [hlength, htenth, hwhole]
    push_cast
    ring
  rw [toFloat, toFloat, hsame, if_neg hzero, if_neg (by omega)]
  -- Neither number is out of range where the other is not.
  congr 2
  rw [htenth, hwhole, if_neg (by decide), if_pos (le_refl (0 : ℤ)), hdigits]
  exact (ofScientific_tenth (Nat.pos_of_ne_zero hzero)).trans
    (ofScientific_whole (Nat.pos_of_ne_zero hzero)).symm

/-- A number may be written with a zero before its point. -/
theorem toFloat_cons_zero (fraction : List Char) (power : ℤ) :
    toFloat ⟨['0'], fraction, power⟩ = toFloat ⟨[], fraction, power⟩ := by
  rfl

end Literal
end Decimal
end FractalFormula
