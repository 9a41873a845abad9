/-
Doubles times powers of two.

A double with a full significand is a sign, a whole number of 53 bits and the exponent of its last
bit (`Double.Full`).  Where exponents stay within bounds, a product with a power of two is exact and
changes the exponent only (`Full.mul`), since what the product has more of in bits are zeros
(`roundWithAccuracy_eq`).  Below `2 ^ 63` the whole part of such a double fits a word of 64 bits
(`Full.toInt_toInt64`).
-/
import FractalFormula.Proofs.Doubles

namespace FractalFormula

open Float.Model Float.Model.UnpackedFloat

namespace Double

/-! ## Exact rounding -/

variable {m n k : ℕ} {e : ℤ}

theorem log2_mul_two_pow (hm : 0 < m) (k : ℕ) : (m * 2 ^ k).log2 = m.log2 + k := by
  rw [Nat.log2_eq_iff (by positivity), add_right_comm, pow_add, pow_add]
  exact ⟨Nat.mul_le_mul_right _ (Nat.log2_self_le hm.ne'),
    Nat.mul_lt_mul_of_pos_right Nat.lt_log2_self (Nat.two_pow_pos k)⟩

theorem log2_eq (hlow : 2 ^ 52 ≤ m) (hhigh : m < 2 ^ 53) (k : ℕ) : (m * 2 ^ k).log2 = 52 + k := by
  have hlog : m.log2 = 52 := (Nat.log2_eq_iff (by omega)).mpr ⟨hlow, hhigh⟩
  rw [log2_mul_two_pow (by omega), hlog]

/-- With zeros behind it a number fills its 53 bits. -/
theorem fills_of_log2 (hm : 0 < m) (hk : m.log2 + k = 52) :
    2 ^ 52 ≤ m * 2 ^ k ∧ m * 2 ^ k < 2 ^ 53 := by
  rw [← hk, show 53 = m.log2 + 1 + k by omega, pow_add, pow_add _ (m.log2 + 1)]
  exact ⟨Nat.mul_le_mul_right _ (Nat.log2_self_le hm.ne'),
    Nat.mul_lt_mul_of_pos_right Nat.lt_log2_self (Nat.two_pow_pos k)⟩

/-- The exponent that a number with the given last bit is rounded to. -/
theorem targetExponent_eq (m : ℕ) (e : ℤ) :
    Format.binary64.targetExponent (totalExponent m e) = max (m.log2 + e - 52) (-1074) := by
  rw [totalExponent]
  show max ((m.log2 : ℤ) + 1 + e - 53) (-1074) = _
  omega

/-- Shifting out zeros loses nothing. -/
theorem shiftRight_eq (k m : ℕ) :
    (⟨m * 2 ^ k, false, false⟩ : ExtendedMantissa) >>> k = ⟨m, false, false⟩ := by
  induction k generalizing m with
  | zero => rw [pow_zero, mul_one]; rfl
  | succ k ih =>
    have hshift (em : ExtendedMantissa) : em >>> (k + 1) = (em >>> k).shiftRightOne := rfl
    rw [hshift, pow_succ', ← mul_assoc, ih, ExtendedMantissa.shiftRightOne]
    simp

theorem shiftToTargetExponent_eq (hlow : 2 ^ 52 ≤ m) (hhigh : m < 2 ^ 53) (he : -1074 ≤ e + k) :
    shiftToTargetExponent .binary64 (m * 2 ^ k) e .exact = (⟨m, false, false⟩, e + k) := by
  have htarget : Format.binary64.targetExponent (totalExponent (m * 2 ^ k) e) = e + k := by
    rw [targetExponent_eq, log2_eq hlow hhigh]
    omega
  rw [shiftToTargetExponent, htarget, shiftToExponent, add_sub_cancel_left, Int.toNat_natCast]
  exact congrArg (·, e + (k : ℤ)) (shiftRight_eq k m)

/-- A whole number of 53 bits with zeros behind it is not rounded. -/
theorem roundWithAccuracy_eq (sign : Sign) (hlow : 2 ^ 52 ≤ m) (hhigh : m < 2 ^ 53)
    (he : -1074 ≤ e + k) :
    ∃ h, roundWithAccuracy .binary64 sign (m * 2 ^ k) e .exact = .finite sign m (e + k) h := by
  have hagain : shiftToTargetExponent .binary64 m (e + k) .exact = (⟨m, false, false⟩, e + k) := by
    have h := shiftToTargetExponent_eq (k := 0) hlow hhigh (e := e + k) (by simpa using he)
    simpa using h
  have hrounded : (⟨m, false, false⟩ : ExtendedMantissa).roundedMantissa = m := rfl
  have hpos : m ≠ 0 := by omega
  rw [roundWithAccuracy, shiftToTargetExponent_eq hlow hhigh he]
  dsimp only
  rw [hrounded, hagain]
  dsimp only
  rw [dif_neg hpos]
  exact ⟨_, rfl⟩

/-! ## Full significands -/

/-- The sign of a double as the library has it. -/
def signOf (neg : Bool) : Sign :=
  if neg then .negative else .positive

theorem signOf_mul (a b : Bool) : signOf a * signOf b = signOf (a != b) := by
  cases a <;> cases b <;> rfl

theorem signOf_inj {a b : Bool} (h : signOf a = signOf b) : a = b := by
  cases a <;> cases b <;> first | rfl | cases h

/-- The double is finite, with `m` for its significand and `e` for its exponent, and a one stands
before its fraction. -/
structure Full (x : Float) (neg : Bool) (m : ℕ) (e : ℤ) : Prop where
  low : 2 ^ 52 ≤ m
  high : m < 2 ^ 53
  least : -1074 ≤ e
  greatest : e ≤ 971
  unpack : ∃ h, x.toModel.unpack = .finite (signOf neg) m e h

theorem toNat_one_append (v : BitVec 52) : (1#1 ++ v).toNat = 2 ^ 52 + v.toNat := by
  rw [BitVec.toNat_append, ← Nat.shiftLeft_add_eq_or_of_lt v.isLt]
  rfl

theorem unpack_eq {b : BitVec 64} (hleast : @unpackExponent .binary64 b ≠ 0#11)
    (hgreatest : @unpackExponent .binary64 b ≠ -1#11) :
    ∃ h, UnpackedFloat.unpack .binary64 b =
      .finite (.ofBitVec (@unpackSign .binary64 b))
        (2 ^ 52 + (@unpackMantissa .binary64 b).toNat)
        ((@unpackExponent .binary64 b).toNat - 1075) h := by
  have hexp : ((@unpackExponent .binary64 b).toNat : ℤ) -
      (Format.binary64.exponentBias + Format.binary64.mantissaBitsWithoutImplicit) =
        (@unpackExponent .binary64 b).toNat - 1075 := rfl
  rw [UnpackedFloat.unpack]
  dsimp only
  rw [if_neg hgreatest, if_neg hleast]
  simp only [toNat_one_append, hexp]
  exact ⟨by positivity, trivial⟩

theorem toNat_unpackMantissa (bits : UInt64) :
    (@unpackMantissa .binary64 bits.toBitVec).toNat = fractionBits bits := by
  show (bits.toNat >>> 0) % 2 ^ 52 = _
  rw [Nat.shiftRight_zero, fractionBits]

theorem unpackExponent_ne_zero (bits : UInt64) :
    @unpackExponent .binary64 bits.toBitVec ≠ 0#11 ↔ exponentBits bits ≠ 0 := by
  have htoNat := toNat_unpackExponent bits.toBitVec
  rw [not_iff_not, ← BitVec.toNat_inj, htoNat]
  rfl

theorem ofBitVec_unpackSign (bits : UInt64) :
    Sign.ofBitVec (@unpackSign .binary64 bits.toBitVec) = signOf (signBit bits) := by
  have hlt := bits.toNat_lt
  have htoNat : (@unpackSign .binary64 bits.toBitVec).toNat = bits.toNat / 2 ^ 63 % 2 := by
    show (bits.toNat >>> 63) % 2 ^ 1 = _
    rw [Nat.shiftRight_eq_div_pow]
  have hzero : @unpackSign .binary64 bits.toBitVec = 0#1 ↔ ¬ 2 ^ 63 ≤ bits.toNat := by
    rw [← BitVec.toNat_inj, htoNat, BitVec.toNat_ofNat]
    omega
  rw [Sign.ofBitVec, signOf, signBit]
  simp only [hzero, decide_eq_true_eq, ite_not]

/-- Above the least exponent a one stands before the fraction. -/
theorem unpack_bits {bits : UInt64} (hleast : exponentBits bits ≠ 0)
    (hgreatest : @unpackExponent .binary64 bits.toBitVec ≠ -1#11) :
    ∃ h, UnpackedFloat.unpack .binary64 bits.toBitVec =
      .finite (signOf (signBit bits)) (2 ^ 52 + fractionBits bits)
        ((exponentBits bits : ℤ) - 1075) h := by
  have hfound := unpack_eq ((unpackExponent_ne_zero bits).mpr hleast) hgreatest
  rw [ofBitVec_unpackSign, toNat_unpackMantissa, toNat_unpackExponent] at hfound
  exact hfound

/-- Packing keeps a full significand. -/
theorem unpack_pack (sign : Sign) (hlow : 2 ^ 52 ≤ m) (hhigh : m < 2 ^ 53) (hleast : -1074 ≤ e)
    (hgreatest : e ≤ 971) (hpos : 0 < m) :
    ∃ h, UnpackedFloat.unpack .binary64 (UnpackedFloat.pack .binary64 (.finite sign m e hpos)) =
      .finite sign m e h := by
  have hlog : m.log2 = 52 := by simpa using log2_eq hlow hhigh 0
  obtain ⟨b, hb⟩ := Int.eq_ofNat_of_zero_le (show 0 ≤ e + 1075 by omega)
  have hpack : UnpackedFloat.pack .binary64 (.finite sign m e hpos) =
      packComponents .binary64 sign (BitVec.ofNat 11 b) (BitVec.ofNat 52 m) := by
    have hbiased : (e + Format.binary64.exponentBias +
        Format.binary64.mantissaBitsWithoutImplicit).toNat = b := by
      show (e + 1023 + 52).toNat = b
      omega
    rw [UnpackedFloat.pack]
    dsimp only
    rw [hbiased, if_neg (by omega), hlog]
    exact if_pos rfl
  have hexp : (BitVec.ofNat 11 b).toNat = b := by
    rw [BitVec.toNat_ofNat, Nat.mod_eq_of_lt (by omega)]
  have hfraction : 2 ^ 52 + (BitVec.ofNat 52 m).toNat = m := by
    rw [BitVec.toNat_ofNat]
    omega
  have hzero : BitVec.ofNat 11 b ≠ 0#11 := by
    intro h
    have := hexp.symm.trans (congrArg BitVec.toNat h)
    have : (0#11).toNat = 0 := rfl
    omega
  have hones : BitVec.ofNat 11 b ≠ -1#11 := by
    intro h
    have := hexp.symm.trans (congrArg BitVec.toNat h)
    have : (-1#11).toNat = 2047 := rfl
    omega
  have hfound := @unpack_eq (packComponents .binary64 sign (BitVec.ofNat 11 b) (BitVec.ofNat 52 m))
  rw [unpackExponent_packComponents, unpackMantissa_packComponents, unpackSign_packComponents,
    Sign.ofBitVec_toBitVec, hexp, hfraction, show (b : ℤ) - 1075 = e by omega] at hfound
  rw [hpack]
  exact hfound hzero hones

namespace Full

variable {x y : Float} {neg neg' : Bool} {m' : ℕ} {e' : ℤ}

/-- A product whose significand is `n` with zeros behind it is exact. -/
theorem mul_of_eq (hx : Full x neg m e) (hy : Full y neg' m' e') (hn : m * m' = n * 2 ^ 52)
    (hlow : 2 ^ 52 ≤ n) (hhigh : n < 2 ^ 53) (hleast : -1074 ≤ e + e' + 52)
    (hgreatest : e + e' + 52 ≤ 971) : Full (x * y) (neg != neg') n (e + e' + 52) := by
  refine ⟨hlow, hhigh, hleast, hgreatest, ?_⟩
  obtain ⟨hm, hx⟩ := hx.unpack
  obtain ⟨hm', hy⟩ := hy.unpack
  obtain ⟨hpos, hround⟩ := roundWithAccuracy_eq (k := 52) (signOf (neg != neg')) hlow hhigh
    (e := e + e') hleast
  show ∃ h, UnpackedFloat.unpack .binary64 (UnpackedFloat.pack .binary64
    (UnpackedFloat.mul .binary64 x.toModel.unpack y.toModel.unpack)) = _
  rw [hx, hy, UnpackedFloat.mul, signOf_mul, hn, hround]
  exact unpack_pack _ hlow hhigh hleast hgreatest hpos

/-- The product with a power of two. -/
theorem mul (hx : Full x neg m e) (hy : Full y neg' (2 ^ 52) e') (hleast : -1074 ≤ e + e' + 52)
    (hgreatest : e + e' + 52 ≤ 971) : Full (x * y) (neg != neg') m (e + e' + 52) :=
  hx.mul_of_eq hy rfl hx.low hx.high hleast hgreatest

theorem isNaN (h : Full x neg m e) : x.isNaN = false := by
  obtain ⟨_, hunpack⟩ := h.unpack
  show x.toModel.unpack.isNaN = false
  rw [hunpack]
  rfl

/-- The fields of a double are those of its full significand. -/
theorem fields (h : Full x neg m e) :
    signBit x.toBits = neg ∧ 2 ^ 52 + fractionBits x.toBits = m ∧
      exponentBits x.toBits ≠ 0 ∧ (exponentBits x.toBits : ℤ) - 1075 = e := by
  obtain ⟨_, hunpack⟩ := h.unpack
  have hlow := h.low
  have hunpack : UnpackedFloat.unpack .binary64 x.toBits.toBitVec = .finite (signOf neg) m e _ :=
    hunpack
  by_cases hgreatest : @unpackExponent .binary64 x.toBits.toBitVec = -1#11
  · rw [UnpackedFloat.unpack] at hunpack
    dsimp only at hunpack
    rw [if_pos hgreatest] at hunpack
    split at hunpack <;> cases hunpack
  by_cases hleast : @unpackExponent .binary64 x.toBits.toBitVec = 0#11
  · rw [UnpackedFloat.unpack] at hunpack
    dsimp only at hunpack
    rw [if_neg hgreatest, if_pos hleast] at hunpack
    split at hunpack
    · cases hunpack
    · have hlt := (@unpackMantissa .binary64 x.toBits.toBitVec).isLt
      injection hunpack with _ hm
      exact absurd hlow (by simpa [← hm] using hlt)
  have hne := (unpackExponent_ne_zero x.toBits).mp hleast
  obtain ⟨_, hfound⟩ := unpack_bits hne hgreatest
  rw [hunpack] at hfound
  injection hfound with hsign hm he
  exact ⟨(signOf_inj hsign).symm, hm.symm, hne, he.symm⟩

theorem significand (h : Full x neg m e) : significand x = m := by
  obtain ⟨-, hm, hne, -⟩ := h.fields
  have hbiased : biased x = exponentBits x.toBits := rfl
  have hfraction : fraction x = fractionBits x.toBits := rfl
  rw [Double.significand, hbiased, if_neg hne, hfraction, ← hm, add_comm]
  rfl

theorem exponent (h : Full x neg m e) : exponent x = e := by
  obtain ⟨-, -, hne, he⟩ := h.fields
  have hbiased : biased x = exponentBits x.toBits := rfl
  rw [Double.exponent, hbiased, if_neg hne, he]

theorem isNegative (h : Full x neg m e) : isNegative x = neg := by
  have hlt := x.toBits.toNat_lt
  rw [← h.fields.1, Double.isNegative, signBit, Nat.shiftRight_eq_div_pow, Bool.eq_iff_iff,
    beq_iff_eq, decide_eq_true_eq]
  omega

end Full

/-- A finite double whose exponent is not the least has a full significand. -/
theorem full_ofBits {bits : UInt64} (h : IsFinite bits) (hne : exponentBits bits ≠ 0) :
    Full (Float.ofBits bits) (signBit bits) (2 ^ 52 + fractionBits bits)
      ((exponentBits bits : ℤ) - 1075) := by
  have hfraction : fractionBits bits < 2 ^ 52 := Nat.mod_lt _ (by positivity)
  have hexponent : exponentBits bits < 2 ^ 11 := Nat.mod_lt _ (by positivity)
  have hfinite : exponentBits bits ≠ 2 ^ 11 - 1 := h
  refine ⟨by omega, by omega, by omega, by omega, ?_⟩
  rw [unpack_ofBits h]
  exact unpack_bits hne (unpackExponent_ne h)

/-- The bits with the given fields. -/
def assemble (neg : Bool) (exponent fraction : ℕ) : UInt64 :=
  UInt64.ofNat ((if neg then 2 ^ 63 else 0) + exponent * 2 ^ 52 + fraction)

theorem fields_assemble (neg : Bool) {b f : ℕ} (hb : b < 2 ^ 11) (hf : f < 2 ^ 52) :
    signBit (assemble neg b f) = neg ∧ exponentBits (assemble neg b f) = b ∧
      fractionBits (assemble neg b f) = f := by
  have htoNat : (assemble neg b f).toNat = (if neg then 2 ^ 63 else 0) + b * 2 ^ 52 + f := by
    rw [assemble, UInt64.toNat_ofNat', Nat.mod_eq_of_lt]
    split <;> omega
  rw [signBit, exponentBits, fractionBits, htoNat]
  cases neg
  case false =>
    simp only [Bool.false_eq_true, if_false, decide_eq_false_iff_not]
    omega
  case true =>
    simp only [if_true, decide_eq_true_eq]
    omega

theorem full_assemble (neg : Bool) {b f : ℕ} (hleast : b ≠ 0) (hgreatest : b < 2 ^ 11 - 1)
    (hf : f < 2 ^ 52) :
    Full (Float.ofBits (assemble neg b f)) neg (2 ^ 52 + f) ((b : ℤ) - 1075) := by
  obtain ⟨hsign, hexponent, hfraction⟩ := fields_assemble neg (b := b) (by omega) hf
  have hfinite : IsFinite (assemble neg b f) := by
    rw [IsFinite, hexponent]
    omega
  have hfull := full_ofBits hfinite (by rwa [hexponent])
  rwa [hsign, hexponent, hfraction] at hfull

theorem full_powerOfTwo {k : ℤ} (hleast : -1022 ≤ k) (hgreatest : k ≤ 1023) :
    Full (powerOfTwo k) false (2 ^ 52) (k - 52) := by
  obtain ⟨n, hn⟩ := Int.eq_ofNat_of_zero_le (show 0 ≤ k + 1023 by omega)
  have hpower : powerOfTwo k = Float.ofBits (assemble false n 0) := by
    rw [powerOfTwo, hn, assemble, if_neg Bool.false_ne_true, zero_add, add_zero]
    rfl
  have hfull := full_assemble false (b := n) (f := 0) (by omega) (by omega) (by decide)
  rw [hpower]
  rwa [add_zero, show (n : ℤ) - 1075 = k - 52 by omega] at hfull

/-- A positive whole number below `2 ^ 53` has a full significand when zeros are put behind it. -/
theorem full_toFloat (hpos : 0 < m) (hhigh : m < 2 ^ 53) :
    Full m.toUInt64.toFloat false (m * 2 ^ (52 - m.log2)) (-(52 - m.log2 : ℕ)) := by
  have hlog : m.log2 < 53 := (Nat.log2_lt hpos.ne').mpr hhigh
  obtain ⟨k, hk⟩ : ∃ k, m.log2 + k = 52 := ⟨52 - m.log2, by omega⟩
  obtain ⟨hlow, hfull⟩ := fills_of_log2 hpos hk
  have htoNat : m.toUInt64.toNat = m := by
    rw [Nat.toUInt64_eq, UInt64.toNat_ofNat', Nat.mod_eq_of_lt (by omega)]
  have hpositive : compare (m : ℤ) 0 = .gt := compare_gt_iff_gt.mpr (by omega)
  have hdecrease : decreaseExponent m 0 (-k) = (m * 2 ^ k, -(k : ℤ)) := by
    rw [decreaseExponent, zero_sub, neg_neg, Int.toNat_natCast, Nat.shiftLeft_eq, zero_sub]
  obtain ⟨hpos', hround⟩ := roundWithAccuracy_eq (k := 0) (e := -(k : ℤ)) (signOf false) hlow hfull
    (by omega)
  rw [pow_zero, mul_one, Nat.cast_zero, add_zero] at hround
  rw [show 52 - m.log2 = k by omega]
  refine ⟨hlow, hfull, by omega, by omega, ?_⟩
  show ∃ h, UnpackedFloat.unpack .binary64 (UnpackedFloat.pack .binary64
    (UnpackedFloat.ofUInt64 .binary64 m.toUInt64)) = _
  rw [UnpackedFloat.ofUInt64, htoNat, UnpackedFloat.ofNat, UnpackedFloat.ofInt,
    UnpackedFloat.normalize, hpositive]
  dsimp only
  rw [Int.toNat_natCast, UnpackedFloat.round, targetExponent_eq,
    show max ((m.log2 : ℤ) + 0 - 52) (-1074) = -k by omega, hdecrease]
  dsimp only
  rw [show Sign.positive = signOf false from rfl, hround]
  exact unpack_pack _ hlow hfull (by omega) (by omega) hpos'

/-- Whole numbers of 53 bits are doubles. -/
theorem full_ofNat (hlow : 2 ^ 52 ≤ m) (hhigh : m < 2 ^ 53) : Full (Float.ofNat m) false m 0 := by
  have hone : Full (Float.ofBits 0x3FF0000000000000) false (2 ^ 52) (-52) :=
    full_powerOfTwo (k := 0) (by decide) (by decide)
  have hlog : m.log2 = 52 := by simpa using log2_eq hlow hhigh 0
  have hword : Full m.toUInt64.toFloat false m 0 := by
    have hfull := full_toFloat (by omega) hhigh
    rw [hlog] at hfull
    simpa using hfull
  have hproduct : Float.ofNat m = m.toUInt64.toFloat * Float.ofBits 0x3FF0000000000000 := by
    show Float.ofScientific m false 0 = _
    rw [Float.ofScientific, dif_pos ⟨hhigh, by decide⟩]
    rfl
  rw [hproduct]
  exact hword.mul hone (by decide) (by decide)

/-! ## Whole parts -/

/-- The number that a full significand stands for. -/
theorem value_ofBits {bits : UInt64} (h : IsFinite bits) (hne : exponentBits bits ≠ 0) :
    value bits = Extended.signed (signBit bits)
      ((2 ^ 52 + fractionBits bits : ℕ) * 2 ^ ((exponentBits bits : ℤ) - 1075)) := by
  have hfull := full_ofBits h hne
  rw [value, magnitude_eq h, hfull.significand, hfull.exponent]
  rfl

/-- A whole number of at most 53 bits times a power of two is a double, if the exponent is within
bounds. -/
theorem exists_value_eq (neg : Bool) {n : ℕ} (hpos : 0 < n) (hhigh : n < 2 ^ 53)
    (hleast : -1000 ≤ e) (hgreatest : e ≤ 900) :
    ∃ bits, IsFinite bits ∧ value bits = Extended.signed neg (n * 2 ^ e) := by
  obtain ⟨k, hk⟩ : ∃ k, n.log2 + k = 52 :=
    ⟨52 - n.log2, Nat.add_sub_cancel' (Nat.le_of_lt_succ ((Nat.log2_lt hpos.ne').mpr hhigh))⟩
  obtain ⟨hlow, hfull⟩ := fills_of_log2 hpos hk
  obtain ⟨b, hb⟩ := Int.eq_ofNat_of_zero_le (show 0 ≤ e - k + 1075 by omega)
  obtain ⟨f, hf⟩ := Nat.exists_eq_add_of_le hlow
  obtain ⟨hsign, hexponent, hfraction⟩ :=
    fields_assemble neg (b := b) (f := f) (by omega) (by omega)
  have hfinite : IsFinite (assemble neg b f) := by
    rw [IsFinite, hexponent]
    omega
  refine ⟨assemble neg b f, hfinite, ?_⟩
  rw [value_ofBits hfinite (by omega), hsign, hexponent, hfraction, ← hf,
    show (b : ℤ) - 1075 = e - k by omega, zpow_sub₀ two_ne_zero, zpow_natCast]
  push_cast
  congr 1
  field_simp

/-- A power of two below one drops bits. -/
theorem floor_mul_two_zpow_neg (m k : ℕ) : ⌊(m * 2 ^ (-(k : ℤ)) : ℚ)⌋₊ = m / 2 ^ k := by
  have hcast : (2 : ℚ) ^ k = (2 ^ k : ℕ) := by push_cast; rfl
  rw [zpow_neg, zpow_natCast, ← div_eq_mul_inv, hcast, Nat.floor_div_eq_div]

theorem wholePart_signed_eq (neg : Bool) {q : ℚ} (hq : 0 ≤ q) :
    wholePart (Extended.signed neg q) = if neg then -(⌊q⌋₊ : ℤ) else ⌊q⌋₊ := by
  have hwhole : wholePart q = ⌊q⌋₊ := by
    rw [wholePart_of_nonneg hq, Int.natCast_floor_eq_floor hq]
  cases neg
  case false => exact hwhole
  case true => rw [Extended.signed, if_pos rfl, wholePart_neg, hwhole, if_pos rfl]

namespace Full

variable {x y : Float} {neg : Bool} {m' : ℕ} {e' : ℤ}

theorem integerPart (h : Full x neg m e) :
    integerPart x = wholePart (Extended.signed neg (m * 2 ^ e)) := by
  have hsize : (if 0 ≤ e then m <<< e.toNat else m >>> (-e).toNat) = ⌊(m * 2 ^ e : ℚ)⌋₊ := by
    split
    case isTrue hpos =>
      obtain ⟨k, rfl⟩ := Int.eq_ofNat_of_zero_le hpos
      rw [zpow_natCast, Int.toNat_natCast, Nat.shiftLeft_eq]
      exact_mod_cast (Nat.floor_natCast (m * 2 ^ k)).symm
    case isFalse hneg =>
      obtain ⟨k, hk⟩ := Int.eq_ofNat_of_zero_le (show 0 ≤ -e by omega)
      rw [hk, Int.toNat_natCast, Nat.shiftRight_eq_div_pow, show e = -(k : ℤ) by omega,
        floor_mul_two_zpow_neg]
  rw [Double.integerPart, h.significand, h.exponent, h.isNegative, hsize,
    wholePart_signed_eq neg (by positivity)]

/-- A positive double of a greater exponent is not below. -/
theorem not_le (h : Full x neg m e) (h' : Full y false m' e') (he : e < e') : ¬ y ≤ x := by
  obtain ⟨_, hx⟩ := h.unpack
  obtain ⟨_, hy⟩ := h'.unpack
  intro hle
  have hle : UnpackedFloat.le y.toModel.unpack x.toModel.unpack = true := of_decide_eq_true hle
  rw [hx, hy, UnpackedFloat.le] at hle
  cases neg
  case false =>
    rw [signOf, if_neg Bool.false_ne_true, UnpackedFloat.compare, compare_gt_iff_gt.mpr he] at hle
    cases hle
  case true => cases hle

/-- A negative double of a greater exponent is not above. -/
theorem not_ge (h : Full x neg m e) (h' : Full y true m' e') (he : e < e') : ¬ x ≤ y := by
  obtain ⟨_, hx⟩ := h.unpack
  obtain ⟨_, hy⟩ := h'.unpack
  intro hle
  have hle : UnpackedFloat.le x.toModel.unpack y.toModel.unpack = true := of_decide_eq_true hle
  rw [hx, hy, UnpackedFloat.le] at hle
  cases neg
  case false => cases hle
  case true =>
    rw [signOf, if_pos rfl, UnpackedFloat.compare, compare_lt_iff_lt.mpr he] at hle
    cases hle

/-- Below `2 ^ 63` a double is cut off to an integer of 64 bits. -/
theorem toInt_toInt64 (h : Full x neg m e) (he : e ≤ 10) :
    (toInt64 x).toInt = wholePart (Extended.signed neg (m * 2 ^ e)) := by
  have hupper : Full 9223372036854775808.0 false (2 ^ 52) 11 := by
    have hpower : (9223372036854775808.0 : Float) = powerOfTwo 63 := by decide +kernel
    rw [hpower]
    exact full_powerOfTwo (by decide) (by decide)
  have hlower : Full (-9223372036854775808.0) true (2 ^ 52) 11 := by
    have hbits : (-9223372036854775808.0 : Float) = Float.ofBits 0xC3E0000000000000 := by
      decide +kernel
    rw [hbits]
    exact full_ofBits (by decide) (by decide)
  have hsize : (⌊(m * 2 ^ e : ℚ)⌋₊ : ℤ) < 2 ^ 63 := by
    have hm : (m : ℚ) < 2 ^ 53 := by exact_mod_cast h.high
    have hpow : (2 : ℚ) ^ e ≤ 2 ^ (10 : ℤ) := zpow_le_zpow_right₀ one_le_two he
    have hlt : (m : ℚ) * 2 ^ e < 2 ^ 63 := by
      calc (m : ℚ) * 2 ^ e < 2 ^ 53 * 2 ^ e := mul_lt_mul_of_pos_right hm (by positivity)
        _ ≤ 2 ^ 53 * 2 ^ (10 : ℤ) := mul_le_mul_of_nonneg_left hpow (by positivity)
        _ = 2 ^ 63 := by norm_num
    have hfloor : ⌊(m * 2 ^ e : ℚ)⌋₊ < 2 ^ 63 :=
      (Nat.floor_lt (by positivity)).mpr (by push_cast; exact hlt)
    exact_mod_cast hfloor
  rw [toInt64, if_neg (Bool.eq_false_iff.mp h.isNaN), if_neg (h.not_le hupper (by omega)),
    if_neg (h.not_ge hlower (by omega)), h.integerPart, wholePart_signed_eq neg (by positivity)]
  apply Int64.toInt_ofInt_of_le
  · split <;> omega
  · split <;> omega

end Full
end Double
end FractalFormula
