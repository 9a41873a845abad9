/-
Doubles by their bits.

The 64 bits of a double are a sign, eleven bits of an exponent and 52 bits of a fraction.  A finite
double stands for a rational (`Double.value`), which conversion to extended precision keeps
(`Extended.denotes_ofFloat`): significands of 53 bits fit a mantissa of 64, those of the least
doubles too, whose first bit may stand anywhere.
-/
import FractalFormula.Proofs.Whole
import Mathlib

namespace FractalFormula

open Float.Model Float.Model.UnpackedFloat

namespace Double

/-! ## The value of a double -/

def signBit (bits : UInt64) : Bool :=
  2 ^ 63 ≤ bits.toNat

def exponentBits (bits : UInt64) : ℕ :=
  bits.toNat / 2 ^ 52 % 2 ^ 11

def fractionBits (bits : UInt64) : ℕ :=
  bits.toNat % 2 ^ 52

/-- The bits are neither those of an infinity nor of what is not a number. -/
def IsFinite (bits : UInt64) : Prop :=
  exponentBits bits ≠ 2 ^ 11 - 1

instance (bits : UInt64) : Decidable (IsFinite bits) :=
  inferInstanceAs (Decidable (_ ≠ _))

/-- The absolute value of a finite double.  A one stands before the fraction, unless the exponent is
the least. -/
def magnitude (bits : UInt64) : ℚ :=
  if exponentBits bits = 0 then fractionBits bits / 2 ^ 52 * 2 ^ (-1022 : ℤ)
  else (1 + fractionBits bits / 2 ^ 52) * 2 ^ ((exponentBits bits : ℤ) - 1023)

/-- The number that a finite double stands for. -/
def value (bits : UInt64) : ℚ :=
  if signBit bits then -magnitude bits else magnitude bits

/-! ## Bits that are kept -/

variable {bits : UInt64}

theorem toNat_unpackExponent (b : BitVec 64) :
    (@unpackExponent .binary64 b).toNat = b.toNat / 2 ^ 52 % 2 ^ 11 := by
  show (b.toNat >>> 52) % 2 ^ 11 = _
  rw [Nat.shiftRight_eq_div_pow]

theorem unpackExponent_ne (h : IsFinite bits) : @unpackExponent .binary64 bits.toBitVec ≠ -1#11 := by
  intro he
  apply h
  have htoNat := toNat_unpackExponent bits.toBitVec
  rw [he] at htoNat
  exact htoNat.symm

/-- A finite double has the bits that it was made from. -/
theorem toBits_ofBits (h : IsFinite bits) : (Float.ofBits bits).toBits = bits := by
  apply UInt64.toBitVec_inj.mp
  show UnpackedFloat.pack .binary64 (UnpackedFloat.unpack .binary64 bits.toBitVec) = _
  have hnan : @isNaNBits .binary64 bits.toBitVec = false :=
    decide_eq_false fun hnan => unpackExponent_ne h hnan.1
  rw [pack_unpack, hnan]
  rfl

theorem unpack_ofBits (h : IsFinite bits) :
    (Float.ofBits bits).toModel.unpack = UnpackedFloat.unpack .binary64 bits.toBitVec := by
  show UnpackedFloat.unpack .binary64 (Float.ofBits bits).toBits.toBitVec = _
  rw [toBits_ofBits h]

theorem not_special_ofBits (h : IsFinite bits) :
    (Float.ofBits bits).isNaN = false ∧ (Float.ofBits bits).isInf = false := by
  show (Float.ofBits bits).toModel.unpack.isNaN = false ∧
    (Float.ofBits bits).toModel.unpack.isInf = false
  rw [unpack_ofBits h, UnpackedFloat.unpack]
  dsimp only
  rw [if_neg (unpackExponent_ne h)]
  split
  case isTrue => split <;> exact ⟨rfl, rfl⟩
  case isFalse => exact ⟨rfl, rfl⟩

/-! ## Whole numbers times powers of two -/

theorem biased_ofBits (h : IsFinite bits) : biased (Float.ofBits bits) = exponentBits bits := by
  rw [biased, toBits_ofBits h]
  rfl

theorem fraction_ofBits (h : IsFinite bits) : fraction (Float.ofBits bits) = fractionBits bits := by
  rw [fraction, toBits_ofBits h]
  rfl

theorem isNegative_ofBits (h : IsFinite bits) : isNegative (Float.ofBits bits) = signBit bits := by
  have hlt := bits.toNat_lt
  rw [isNegative, toBits_ofBits h, signBit, Nat.shiftRight_eq_div_pow, Bool.eq_iff_iff, beq_iff_eq,
    decide_eq_true_eq]
  omega

theorem significand_lt (x : Float) : significand x < 2 ^ 53 := by
  have hlt : fraction x < leadingBit := Nat.mod_lt _ (by decide)
  rw [significand]
  simp only [leadingBit] at hlt ⊢
  split <;> omega

theorem magnitude_eq (h : IsFinite bits) :
    magnitude bits = significand (Float.ofBits bits) * 2 ^ exponent (Float.ofBits bits) := by
  rw [magnitude, significand, exponent, biased_ofBits h, fraction_ofBits h]
  split
  case isTrue =>
    rw [show (-1074 : ℤ) = -1022 - (52 : ℕ) by norm_num, zpow_sub₀ two_ne_zero, zpow_natCast]
    ring
  case isFalse =>
    have hexp : (2 : ℚ) ^ ((exponentBits bits : ℤ) - 1075) =
        2 ^ ((exponentBits bits : ℤ) - 1023) / 2 ^ 52 := by
      rw [← zpow_natCast, ← zpow_sub₀ two_ne_zero]
      congr 1
      push_cast
      ring
    rw [hexp, leadingBit]
    push_cast
    ring

end Double

/-! ## Conversion to extended precision -/

namespace Extended

variable {bits : UInt64}

theorem denotes_normalize {m : ℕ} (neg : Bool) (e : Int) (hm : m < top) :
    (normalize neg e m).Denotes (signed neg (m * 2 ^ e)) := by
  apply (truncates_of_lt_top hm).faithful.denotes
  refine ⟨m, e, hm.trans (by decide), ?_⟩
  rw [abs_signed, abs_of_nonneg (by positivity)]

theorem canonical_ofFloat (x : Float) : (ofFloat x).Canonical := by
  rw [ofFloat]
  split
  case isTrue => exact canonical_zero
  case isFalse =>
    split
    case isTrue => exact Or.inr ⟨le_rfl, (by decide : top < 2 * top)⟩
    case isFalse => exact canonical_normalize _ _ _

/-- Conversion keeps the value of a finite double. -/
theorem denotes_ofFloat (h : Double.IsFinite bits) :
    (ofFloat (Float.ofBits bits)).Denotes (Double.value bits) := by
  obtain ⟨hnan, hinf⟩ := Double.not_special_ofBits h
  have hlt : Double.significand (Float.ofBits bits) < top :=
    (Double.significand_lt _).trans (by decide)
  rw [ofFloat, if_neg (Bool.eq_false_iff.mp hnan), if_neg (Bool.eq_false_iff.mp hinf), Double.value,
    Double.magnitude_eq h, ← Double.isNegative_ofBits h]
  exact denotes_normalize _ _ hlt

end Extended
end FractalFormula
