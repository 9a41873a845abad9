/-
Sums and differences.

A sum in extended precision is faithful (`add_sub_faithful`): less than one unit of its last bit away
from the exact sum, and equal to it where 64 bits can hold that.  If both operands have the same sign
it is the exact sum cut off behind the 64th bit.

The smaller mantissa is lined up with the larger before both are added, 62 bits below the last bit of
the larger, and what does not reach that far is lost.  That matters where the signs differ alone, and
there only if the exponents are at least 63 apart; then at most one bit cancels, and what was lost is
far below the last bit of the result.
-/
import Mathlib.Data.Nat.Cast.Field
import FractalFormula.Proofs.Mantissa

namespace FractalFormula
namespace Extended

/-- The number `r` is the rational `s` to within its last bit, and exactly where it can be. -/
structure Faithful (s : ℚ) (r : Extended) : Prop where
  canonical : r.Canonical
  near : |r.value - s| < r.ulp
  exact : Representable s → r.value = s
  zero_iff : r = zero ↔ s = 0

variable {a b r : Extended} {s y : ℚ} {neg : Bool}

/-! ## Signs -/

theorem signed_sub_signed (neg : Bool) (x y : ℚ) :
    signed neg x - signed neg y = signed neg (x - y) := by
  cases neg <;> simp [signed, neg_add_eq_sub]

theorem signed_abs (q : ℚ) : signed (decide (q < 0)) |q| = q := by
  by_cases hq : q < 0
  · simp [signed, hq, abs_of_neg hq]
  · simp [signed, hq, abs_of_nonneg (not_lt.mp hq)]

theorem Truncates.value_eq (h : Truncates s r) : r.value = signed (decide (s < 0)) r.magnitude := by
  rw [value, h.sign]

theorem Truncates.value_signed (h : Truncates (signed neg y) r) (hy : 0 < y) :
    r.value = signed neg r.magnitude := by
  rw [h.value_eq]
  simp [signed_lt_zero_iff hy]

theorem Truncates.faithful (h : Truncates s r) : Faithful s r := by
  have hbelow := h.below
  have habove := h.above
  rw [abs_value] at hbelow habove
  constructor
  case canonical => exact h.canonical
  case near =>
    have hdiff : r.value - s = signed (decide (s < 0)) (r.magnitude - |s|) := by
      rw [← signed_sub_signed, signed_abs, h.value_eq]
    rw [hdiff, abs_signed, abs_sub_comm, abs_of_nonneg (by linarith)]
    linarith
  case exact =>
    intro hs
    have hle := h.greatest hs le_rfl
    rw [abs_value] at hle
    rw [h.value_eq, le_antisymm hbelow hle, signed_abs]
  case zero_iff => exact h.eq_zero_iff

theorem truncates_value (ha : a.Canonical) : Truncates a.value a := by
  by_cases hz : a = zero
  · rw [hz, value_zero]
    exact truncates_zero
  · exact truncates_signed ha hz le_rfl (lt_add_of_pos_right _ a.ulp_pos)

theorem canonical_negate (ha : a.Canonical) : a.negate.Canonical := by
  rw [negate]
  split
  case isTrue => exact ha
  case isFalse hm => exact Or.inr ⟨ha.top_le hm, ha.mant_lt⟩

theorem value_negate (a : Extended) : a.negate.value = -a.value := by
  rw [negate]
  split
  case isTrue hm => simp [value, magnitude, hm, signed]
  case isFalse => cases h : a.neg <;> simp [value, magnitude, ulp, signed, h]

/-! ## Lining up -/

/-- The mantissa above 62 spare bits. -/
def widened (a : Extended) : ℕ :=
  a.mant <<< 62

/-- What is left of it after a shift to the right. -/
def aligned (shift : ℕ) (a : Extended) : ℕ :=
  a.widened >>> shift

/-- What it would be if nothing fell off. -/
def alignedExact (shift : ℕ) (a : Extended) : ℚ :=
  a.widened / 2 ^ shift

variable {big small : Extended} {shift : ℕ}

theorem widened_eq (a : Extended) : a.widened = a.mant * 2 ^ 62 :=
  Nat.shiftLeft_eq _ _

theorem aligned_eq (shift : ℕ) (a : Extended) : aligned shift a = a.widened / 2 ^ shift :=
  Nat.shiftRight_eq_div_pow _ _

theorem le_widened (h : top ≤ a.mant) : 3 * top ≤ a.widened := by
  rw [widened_eq]
  simp only [top] at h ⊢
  omega

theorem widened_lt (ha : a.Canonical) : a.widened < 2 ^ 126 := by
  have hlt := ha.mant_lt
  rw [widened_eq]
  simp only [top] at hlt
  omega

theorem aligned_le (shift : ℕ) (a : Extended) : (aligned shift a : ℚ) ≤ alignedExact shift a := by
  rw [aligned_eq, alignedExact]
  have h : ((a.widened / 2 ^ shift : ℕ) : ℚ) ≤ a.widened / (2 ^ shift : ℕ) := Nat.cast_div_le
  exact_mod_cast h

theorem alignedExact_lt (shift : ℕ) (a : Extended) : alignedExact shift a < aligned shift a + 1 := by
  rw [aligned_eq, alignedExact]
  exact_mod_cast lt_cast_div_add_one a.widened (2 ^ shift)

theorem alignedExact_eq_of_dvd (h : 2 ^ shift ∣ a.widened) :
    alignedExact shift a = aligned shift a := by
  rw [aligned_eq, alignedExact, Nat.cast_div h (by positivity)]
  push_cast
  rfl

/-- As long as the spare bits suffice nothing falls off. -/
theorem alignedExact_eq (h : shift ≤ 62) : alignedExact shift a = aligned shift a := by
  apply alignedExact_eq_of_dvd
  rw [widened_eq]
  exact Dvd.dvd.mul_left (pow_dvd_pow 2 h) _

theorem aligned_lt (ha : a.Canonical) (h : 63 ≤ shift) : aligned shift a < top := by
  rw [aligned_eq]
  calc a.widened / 2 ^ shift ≤ a.widened / 2 ^ 63 :=
        Nat.div_le_div_left (Nat.pow_le_pow_right (by decide) h) (by decide)
    _ < top := Nat.div_lt_of_lt_mul (widened_lt ha)

theorem aligned_eq_zero (ha : a.Canonical) (h : 127 ≤ shift) : aligned shift a = 0 := by
  rw [aligned_eq]
  apply Nat.div_eq_of_lt
  calc a.widened < 2 ^ 126 := widened_lt ha
    _ ≤ 2 ^ shift := Nat.pow_le_pow_right (by decide) (by omega)

theorem magnitude_eq_widened (a : Extended) : a.magnitude = a.widened * 2 ^ (a.exp - 125) := by
  rw [magnitude, ulp, widened_eq, show a.exp - 63 = (62 : ℕ) + (a.exp - 125) by push_cast; ring,
    zpow_add₀ two_ne_zero, zpow_natCast]
  push_cast
  ring

theorem magnitude_eq_alignedExact (h : small.exp ≤ big.exp) :
    small.magnitude =
      alignedExact (big.exp - small.exp).toNat small * 2 ^ (big.exp - 125) := by
  obtain ⟨k, hk⟩ := Int.le.dest h
  rw [magnitude_eq_widened, alignedExact, ← hk, show (small.exp + k - small.exp).toNat = k by omega,
    show small.exp + k - 125 = k + (small.exp - 125) by ring, zpow_add₀ two_ne_zero, zpow_natCast,
    ← mul_assoc, div_mul_cancel₀ _ (pow_ne_zero k two_ne_zero)]

theorem normalize_widened (ha : a.Canonical) (hz : a ≠ zero) :
    normalize a.neg (a.exp - 125) a.widened = a := by
  have hfull := le_widened (ha.resolve_left hz).1
  symm
  apply (truncates_value ha).unique
  rw [value, magnitude_eq_widened]
  exact truncates_of_top_le (by omega) le_rfl (lt_add_one _)

/-- The cut-off at a difference of 127 saves work alone: there nothing of the smaller mantissa is
left. -/
theorem addSmaller_eq (hbig : big.Canonical) (hz : big ≠ zero) (hsmall : small.Canonical) :
    big.addSmaller small = normalize big.neg (big.exp - 125)
      (if big.neg = small.neg then big.widened + aligned (big.exp - small.exp).toNat small
        else big.widened - aligned (big.exp - small.exp).toNat small) := by
  rw [addSmaller]
  split
  case isFalse => rfl
  case isTrue hshift =>
    rw [aligned_eq_zero hsmall hshift, Nat.add_zero, Nat.sub_zero, ite_self,
      normalize_widened hbig hz]

/-! ## Adding magnitudes -/

theorem truncates_addSmaller (hbig : big.Canonical) (hz : big ≠ zero) (hsmall : small.Canonical)
    (he : small.exp ≤ big.exp) (hneg : big.neg = small.neg) :
    Truncates (big.value + small.value) (big.addSmaller small) := by
  have hle := aligned_le (big.exp - small.exp).toNat small
  have hlt := alignedExact_lt (big.exp - small.exp).toNat small
  have hfull := le_widened (hbig.resolve_left hz).1
  rw [addSmaller_eq hbig hz hsmall, if_pos hneg, value, value, ← hneg, signed_add_signed,
    magnitude_eq_widened, magnitude_eq_alignedExact he, ← add_mul]
  apply truncates_of_top_le
  · omega
  · push_cast
    linarith
  · push_cast
    linarith

/-! ## Subtracting magnitudes -/

/-- The whole number above `y` gives `y` to within the last bit, if it has more than 64 bits: then
`y` has more than 64 as well. -/
theorem faithful_of_cut {d : ℕ} {e : Int} (hd : 2 * top ≤ d) (hdy : d < y) (hyd : y < d + 1) :
    Faithful (signed neg (y * 2 ^ e)) (normalize neg e (d + 1)) := by
  have hpos : (0 : ℚ) < 2 ^ e := by positivity
  have hy : 0 < y := (Nat.cast_nonneg d).trans_lt hdy
  have htrunc : Truncates (signed neg ((d + 1 : ℕ) * 2 ^ e)) (normalize neg e (d + 1)) :=
    truncates_of_top_le (by omega) le_rfl (lt_add_one _)
  generalize normalize neg e (d + 1) = r at htrunc ⊢
  have hbelow := htrunc.below
  have habove := htrunc.above
  rw [abs_value, abs_signed, abs_of_pos (by positivity)] at hbelow habove
  push_cast at hbelow habove
  have hulp : 2 ^ e ≤ r.ulp := by
    have hmant : (r.mant : ℚ) + 1 ≤ 2 * top := by exact_mod_cast htrunc.canonical.mant_lt
    have hd' : (2 * top : ℚ) ≤ d := by exact_mod_cast hd
    by_contra hlt
    rw [magnitude] at habove
    nlinarith [r.ulp_pos]
  have hlow : d * 2 ^ e < y * 2 ^ e := mul_lt_mul_of_pos_right hdy hpos
  have hhigh : y * 2 ^ e < (d + 1) * 2 ^ e := mul_lt_mul_of_pos_right hyd hpos
  constructor
  case canonical => exact htrunc.canonical
  case near =>
    rw [htrunc.value_signed (by positivity), signed_sub_signed, abs_signed, abs_lt]
    constructor <;> linarith
  case exact =>
    intro hs
    rw [← abs_of_pos (mul_pos hy hpos), ← abs_signed neg] at hlow hhigh
    exact absurd (hs.next (by omega) hlow) hhigh.not_ge
  case zero_iff =>
    rw [htrunc.eq_zero_iff, ← abs_eq_zero, abs_signed, abs_eq_zero, ← abs_eq_zero (a := signed _ _),
      abs_signed, abs_eq_zero]
    simp [hy.ne', hpos.ne', Nat.cast_add_one_ne_zero]

/-- The difference of the mantissas does not fall below zero. -/
theorem aligned_le_widened (he : small.exp ≤ big.exp) (hmag : small.magnitude ≤ big.magnitude) :
    aligned (big.exp - small.exp).toNat small ≤ big.widened := by
  rw [magnitude_eq_widened big, magnitude_eq_alignedExact he] at hmag
  exact_mod_cast (aligned_le _ small).trans (le_of_mul_le_mul_right hmag (by positivity))

theorem value_add_of_neg_ne (he : small.exp ≤ big.exp) (hneg : big.neg ≠ small.neg) :
    big.value + small.value = signed big.neg
      ((big.widened - alignedExact (big.exp - small.exp).toNat small) * 2 ^ (big.exp - 125)) := by
  have hnot : small.neg = !big.neg := Bool.eq_not.mpr hneg.symm
  rw [value, value, hnot, signed_add_signed_not, magnitude_eq_widened big,
    magnitude_eq_alignedExact he, ← sub_mul]

/-- If nothing falls off, the sum is cut off toward zero. -/
theorem truncates_addSmaller_of_whole (hbig : big.Canonical) (hz : big ≠ zero)
    (hsmall : small.Canonical) (he : small.exp ≤ big.exp)
    (hmag : small.magnitude ≤ big.magnitude) (hneg : big.neg ≠ small.neg)
    (hwhole : alignedExact (big.exp - small.exp).toNat small =
      aligned (big.exp - small.exp).toNat small) :
    Truncates (big.value + small.value) (big.addSmaller small) := by
  rw [addSmaller_eq hbig hz hsmall, if_neg hneg, value_add_of_neg_ne he hneg, hwhole,
    ← Nat.cast_sub (aligned_le_widened he hmag)]
  exact truncates_normalize le_rfl (lt_add_one _) (Or.inr rfl)

theorem faithful_addSmaller (hbig : big.Canonical) (hz : big ≠ zero) (hsmall : small.Canonical)
    (he : small.exp ≤ big.exp) (hmag : small.magnitude ≤ big.magnitude)
    (hneg : big.neg ≠ small.neg) : Faithful (big.value + small.value) (big.addSmaller small) := by
  by_cases hwhole : alignedExact (big.exp - small.exp).toNat small =
      aligned (big.exp - small.exp).toNat small
  · exact (truncates_addSmaller_of_whole hbig hz hsmall he hmag hneg hwhole).faithful
  have hfits := aligned_le_widened he hmag
  rw [addSmaller_eq hbig hz hsmall, if_neg hneg, value_add_of_neg_ne he hneg]
  generalize hs : (big.exp - small.exp).toNat = shift at hwhole hfits ⊢
  have hle := aligned_le shift small
  have hshift : 63 ≤ shift := by
    by_contra h
    exact hwhole (alignedExact_eq (by omega))
  have hfull := le_widened (hbig.resolve_left hz).1
  have hlt := aligned_lt hsmall hshift
  obtain ⟨d, hd⟩ : ∃ d, big.widened = aligned shift small + (d + 1) :=
    ⟨big.widened - aligned shift small - 1, by omega⟩
  rw [hd, Nat.add_sub_cancel_left]
  apply faithful_of_cut
  · omega
  · push_cast
    linarith [alignedExact_lt shift small]
  · push_cast
    linarith [lt_of_le_of_ne hle (Ne.symm hwhole)]

/-! ## Both operations -/

theorem dominates_total (a b : Extended) : a.dominates b = true ∨ b.dominates a = true := by
  simp only [dominates, Bool.or_eq_true, Bool.and_eq_true, decide_eq_true_eq, beq_iff_eq]
  omega

theorem exp_le_of_dominates (h : a.dominates b) : b.exp ≤ a.exp := by
  simp only [dominates, Bool.or_eq_true, Bool.and_eq_true, decide_eq_true_eq, beq_iff_eq] at h
  omega

theorem magnitude_le_of_dominates (ha : a.Canonical) (hz : a ≠ zero) (hb : b.Canonical)
    (h : a.dominates b) : b.magnitude ≤ a.magnitude := by
  simp only [dominates, Bool.or_eq_true, Bool.and_eq_true, decide_eq_true_eq, beq_iff_eq] at h
  rcases h with he | ⟨he, hm⟩
  · exact (hb.magnitude_lt ha hz he).le
  · rw [magnitude, magnitude, ulp, ulp, he]
    have hm' : (b.mant : ℚ) ≤ a.mant := by exact_mod_cast hm
    exact mul_le_mul_of_nonneg_right hm' (by positivity)

theorem neg_eq_of_mul_nonneg (ha : a.Canonical) (hb : b.Canonical) (hza : a ≠ zero) (hzb : b ≠ zero)
    (h : 0 ≤ a.value * b.value) : a.neg = b.neg := by
  have hpos : 0 < a.magnitude * b.magnitude := mul_pos (ha.magnitude_pos hza) (hb.magnitude_pos hzb)
  rw [value, value, signed_mul_signed] at h
  by_contra hne
  exact h.not_gt ((signed_lt_zero_iff hpos).mpr (by simpa using hne))

theorem addSmaller_of_dominates (ha : a.Canonical) (hb : b.Canonical) (hza : a ≠ zero)
    (hzb : b ≠ zero)
    (h : a.dominates b) : Faithful (a.value + b.value) (a.addSmaller b) ∧
      (0 ≤ a.value * b.value → Truncates (a.value + b.value) (a.addSmaller b)) := by
  have he := exp_le_of_dominates h
  constructor
  · by_cases hneg : a.neg = b.neg
    · exact (truncates_addSmaller ha hza hb he hneg).faithful
    · exact faithful_addSmaller ha hza hb he (magnitude_le_of_dominates ha hza hb h) hneg
  · intro hsign
    exact truncates_addSmaller ha hza hb he (neg_eq_of_mul_nonneg ha hb hza hzb hsign)

theorem faithful_add (ha : a.Canonical) (hb : b.Canonical) :
    Faithful (a.value + b.value) (a.add b) ∧
      (0 ≤ a.value * b.value → Truncates (a.value + b.value) (a.add b)) := by
  rw [add]
  split
  case isTrue hza =>
    rw [ha.isZero_iff.mp hza, value_zero, zero_add]
    exact ⟨(truncates_value hb).faithful, fun _ => truncates_value hb⟩
  case isFalse hza =>
    split
    case isTrue hzb =>
      rw [hb.isZero_iff.mp hzb, value_zero, add_zero]
      exact ⟨(truncates_value ha).faithful, fun _ => truncates_value ha⟩
    case isFalse hzb =>
      rw [ha.isZero_iff] at hza
      rw [hb.isZero_iff] at hzb
      split
      case isTrue h => exact addSmaller_of_dominates ha hb hza hzb h
      case isFalse h =>
        rw [add_comm a.value, mul_comm]
        exact addSmaller_of_dominates hb ha hzb hza ((dominates_total a b).resolve_left h)

/-- A sum and a difference are less than one unit of their last bit away from the exact ones, and
equal to them wherever 64 bits can hold those, zero among them.  If nothing cancels they are the
exact ones without what lies behind the 64th bit. -/
theorem add_sub_faithful (ha : a.Canonical) (hb : b.Canonical) :
    Faithful (a.value + b.value) (a.add b) ∧
    (0 ≤ a.value * b.value → Truncates (a.value + b.value) (a.add b)) ∧
    Faithful (a.value - b.value) (a.sub b) ∧
    (a.value * b.value ≤ 0 → Truncates (a.value - b.value) (a.sub b)) := by
  obtain ⟨hadd, hsame⟩ := faithful_add ha hb
  obtain ⟨hsub, hother⟩ := faithful_add ha (canonical_negate hb)
  rw [value_negate, ← sub_eq_add_neg] at hsub hother
  refine ⟨hadd, hsame, hsub, fun h => hother ?_⟩
  rw [mul_neg]
  exact neg_nonneg.mpr h

/-- One and the number whose last bit stands for `2 ^ (-127)`, which is too far down for the spare
bits. -/
theorem faithful_one_tiny :
    Faithful (one.value - value ⟨false, -64, top + 1⟩) (one.sub ⟨false, -64, top + 1⟩) ∧
      Truncates (one.value + value ⟨false, -64, top + 1⟩) (one.add ⟨false, -64, top + 1⟩) := by
  constructor
  · exact (add_sub_faithful (by decide) (by decide)).2.2.1
  · apply (add_sub_faithful (by decide) (by decide)).2.1
    norm_num [value, signed, magnitude, ulp, one, top]

end Extended
end FractalFormula
