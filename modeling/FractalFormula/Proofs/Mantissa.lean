/-
Values.

A number in extended precision stands for a rational (`value`), and its last bit for a power of two
(`ulp`).  `Truncates q r` says that `r` is `q` cut off behind the 64th bit: of all the numbers with
64 bits that are no further from zero than `q`, and on the same side, it is the one furthest from
zero (`Truncates.greatest`), so there is only one (`Truncates.unique`).

`normalize` forms it from a whole number that is cut off itself, if that has 64 bits or nothing has
fallen off (`truncates_normalize`).
-/
import Mathlib.Algebra.Order.Field.Power
import Mathlib.Algebra.Order.Floor.Semifield
import Mathlib.Data.Nat.Cast.Order.Field
import Mathlib.Data.Rat.Floor
import Mathlib.Tactic.FieldSimp
import Mathlib.Tactic.Linarith
import Mathlib.Tactic.Positivity
import Mathlib.Tactic.Ring
import FractalFormula.Number.Extended

namespace FractalFormula
namespace Extended

/-! ## The value of a number -/

/-- What the last bit of the mantissa stands for. -/
def ulp (a : Extended) : ℚ :=
  2 ^ (a.exp - 63)

def magnitude (a : Extended) : ℚ :=
  a.mant * a.ulp

/-- A rational under a sign. -/
def signed (neg : Bool) (x : ℚ) : ℚ :=
  if neg then -x else x

def value (a : Extended) : ℚ :=
  signed a.neg a.magnitude

variable {a b r r' : Extended} {q x : ℚ}

theorem ulp_pos (a : Extended) : 0 < a.ulp :=
  zpow_pos (by norm_num) _

theorem magnitude_nonneg (a : Extended) : 0 ≤ a.magnitude :=
  mul_nonneg (Nat.cast_nonneg _) a.ulp_pos.le

@[simp] theorem abs_signed (neg : Bool) (x : ℚ) : |signed neg x| = |x| := by
  cases neg <;> simp [signed]

@[simp] theorem abs_value (a : Extended) : |a.value| = a.magnitude := by
  rw [value, abs_signed, abs_of_nonneg a.magnitude_nonneg]

theorem signed_mul_signed (s t : Bool) (x y : ℚ) :
    signed s x * signed t y = signed (s != t) (x * y) := by
  cases s <;> cases t <;> simp [signed]

theorem signed_div_signed (s t : Bool) (x y : ℚ) :
    signed s x / signed t y = signed (s != t) (x / y) := by
  cases s <;> cases t <;> simp [signed, neg_div, div_neg]

theorem signed_add_signed (s : Bool) (x y : ℚ) : signed s x + signed s y = signed s (x + y) := by
  cases s <;> simp [signed, add_comm]

theorem signed_add_signed_not (s : Bool) (x y : ℚ) :
    signed s x + signed (!s) y = signed s (x - y) := by
  cases s <;> simp [signed] <;> ring

theorem signed_lt_zero_iff {s : Bool} (hx : 0 < x) : signed s x < 0 ↔ s = true := by
  cases s <;> simp [signed, hx, hx.le]

@[simp] theorem value_zero : zero.value = 0 := by
  simp [value, magnitude, zero, signed]

/-! ## Canonical numbers -/

theorem canonical_zero : zero.Canonical :=
  Or.inl rfl

theorem ne_zero_of_top_le (h : top ≤ a.mant) : a ≠ zero := by
  rintro rfl
  simp [top, zero] at h

namespace Canonical

theorem eq_zero (h : a.Canonical) (hm : a.mant = 0) : a = zero := by
  rcases h with h | ⟨h, -⟩
  · exact h
  · simp [hm, top] at h

theorem top_le (h : a.Canonical) (hm : a.mant ≠ 0) : top ≤ a.mant := by
  rcases h with rfl | ⟨h, -⟩
  · exact absurd rfl hm
  · exact h

theorem mant_lt (h : a.Canonical) : a.mant < 2 * top := by
  rcases h with rfl | ⟨-, h⟩
  · decide
  · exact h

theorem isZero_iff (h : a.Canonical) : a.isZero = true ↔ a = zero := by
  rw [isZero, beq_iff_eq]
  exact ⟨h.eq_zero, fun hz => hz ▸ rfl⟩

theorem magnitude_pos (h : a.Canonical) (hz : a ≠ zero) : 0 < a.magnitude := by
  have hm : a.mant ≠ 0 := fun hm => hz (h.eq_zero hm)
  have hpos : (0 : ℚ) < a.mant := by exact_mod_cast Nat.pos_of_ne_zero hm
  exact mul_pos hpos a.ulp_pos

theorem value_eq_zero_iff (h : a.Canonical) : a.value = 0 ↔ a = zero := by
  constructor
  · intro hv
    by_contra hz
    rw [← abs_eq_zero, abs_value] at hv
    exact (h.magnitude_pos hz).ne' hv
  · rintro rfl
    exact value_zero

/-- The larger exponent has the larger magnitude, whatever the mantissas are. -/
theorem magnitude_lt (ha : a.Canonical) (hb : b.Canonical) (hz : b ≠ zero)
    (he : a.exp < b.exp) : a.magnitude < b.magnitude := by
  have hma : (a.mant : ℚ) < 2 * top := by exact_mod_cast ha.mant_lt
  have hmb : (top : ℚ) ≤ b.mant := by exact_mod_cast hb.top_le fun hm => hz (hb.eq_zero hm)
  have hulp : 2 * a.ulp ≤ b.ulp := by
    rw [ulp, ulp, ← zpow_one_add₀ two_ne_zero]
    exact zpow_le_zpow_right₀ one_le_two (by omega)
  calc a.magnitude < 2 * top * a.ulp := mul_lt_mul_of_pos_right hma a.ulp_pos
    _ = top * (2 * a.ulp) := by ring
    _ ≤ b.mant * b.ulp := mul_le_mul hmb hulp (by have := a.ulp_pos; positivity) (by positivity)

theorem eq_of_magnitude_eq (ha : a.Canonical) (hb : b.Canonical) (hn : a.neg = b.neg)
    (hm : a.magnitude = b.magnitude) : a = b := by
  by_cases hza : a = zero
  · have hzb : b.value = 0 := by rw [← abs_eq_zero, abs_value, ← hm, hza]; simp [magnitude, zero]
    rw [hza, hb.value_eq_zero_iff.mp hzb]
  by_cases hzb : b = zero
  · exact absurd (hm.symm.trans_ne (ha.magnitude_pos hza).ne') (by simp [hzb, magnitude, zero])
  have he : a.exp = b.exp := by
    rcases lt_trichotomy a.exp b.exp with he | he | he
    · exact absurd hm (ha.magnitude_lt hb hzb he).ne
    · exact he
    · exact absurd hm (hb.magnitude_lt ha hza he).ne'
  have hmant : (a.mant : ℚ) = b.mant := by
    have hulp : a.ulp = b.ulp := by rw [ulp, ulp, he]
    rw [magnitude, magnitude, hulp] at hm
    exact mul_right_cancel₀ b.ulp_pos.ne' hm
  cases a
  cases b
  simp_all

end Canonical

/-! ## Rationals with 64 bits -/

/-- A whole number of 64 bits and a power of two give the absolute value of `q`. -/
def Representable (q : ℚ) : Prop :=
  ∃ (m : ℕ) (e : ℤ), m < 2 * top ∧ |q| = m * 2 ^ e

theorem Canonical.representable (h : a.Canonical) : Representable a.value :=
  ⟨a.mant, a.exp - 63, h.mant_lt, a.abs_value⟩

namespace Representable

/-- From the 64th bit on, what has 64 bits has nothing behind them. -/
theorem whole (h : Representable x) {k : ℤ} (hx : top * 2 ^ k ≤ |x|) :
    ∃ n : ℕ, |x| = n * 2 ^ k := by
  obtain ⟨m, e, hm, habs⟩ := h
  have hm' : (m : ℚ) < 2 * top := by exact_mod_cast hm
  have htop : (0 : ℚ) < top := by norm_num [top]
  have hlt : (2 : ℚ) ^ k < 2 ^ (e + 1) := by
    have hpos : (0 : ℚ) < 2 ^ e := by positivity
    have : (top : ℚ) * 2 ^ k < top * 2 ^ (e + 1) := by
      rw [zpow_add_one₀ two_ne_zero]
      nlinarith
    exact lt_of_mul_lt_mul_left this htop.le
  have hke : k ≤ e := by
    have := (zpow_lt_zpow_iff_right₀ (one_lt_two (α := ℚ))).mp hlt
    omega
  obtain ⟨j, rfl⟩ := Int.le.dest hke
  refine ⟨m * 2 ^ j, ?_⟩
  rw [habs, zpow_add₀ two_ne_zero, zpow_natCast]
  push_cast
  ring

/-- Above a whole number of 64 bits there is nothing up to the next one. -/
theorem next (h : Representable x) {k : ℤ} {n : ℕ} (hn : top ≤ n) (hx : n * 2 ^ k < |x|) :
    (n + 1) * 2 ^ k ≤ |x| := by
  have hpos : (0 : ℚ) < 2 ^ k := by positivity
  have htop : (top : ℚ) ≤ n := by exact_mod_cast hn
  obtain ⟨n', hn'⟩ := h.whole (by nlinarith : top * 2 ^ k ≤ |x|)
  have hlt : n < n' := by
    rw [hn'] at hx
    exact_mod_cast lt_of_mul_lt_mul_right hx hpos.le
  have hle : (n : ℚ) + 1 ≤ n' := by exact_mod_cast hlt
  rw [hn']
  exact mul_le_mul_of_nonneg_right hle hpos.le

end Representable

/-! ## Cutting off behind the 64th bit -/

/-- The number `r` is `q` without what lies behind its 64th bit. -/
structure Truncates (q : ℚ) (r : Extended) : Prop where
  canonical : r.Canonical
  sign : r.neg = decide (q < 0)
  vanishes : r = zero → q = 0
  below : |r.value| ≤ |q|
  above : |q| < |r.value| + r.ulp

theorem truncates_zero : Truncates 0 zero where
  canonical := canonical_zero
  sign := rfl
  vanishes _ := rfl
  below := by simp
  above := by simpa using ulp_pos zero

theorem truncates_signed (hr : r.Canonical) (hz : r ≠ zero) (hle : r.magnitude ≤ x)
    (hlt : x < r.magnitude + r.ulp) : Truncates (signed r.neg x) r := by
  have hx : 0 < x := (hr.magnitude_pos hz).trans_le hle
  constructor
  case canonical => exact hr
  case sign => simp [signed_lt_zero_iff hx]
  case vanishes => exact fun h => absurd h hz
  case below => rwa [abs_value, abs_signed, abs_of_pos hx]
  case above => rwa [abs_value, abs_signed, abs_of_pos hx]

namespace Truncates

theorem eq_zero_iff (h : Truncates q r) : r = zero ↔ q = 0 := by
  constructor
  · exact h.vanishes
  · intro hq
    have habs : |r.value| ≤ 0 := by simpa [hq] using h.below
    exact h.canonical.value_eq_zero_iff.mp (abs_nonpos_iff.mp habs)

/-- Nothing with 64 bits lies between a number and what was cut off to it. -/
theorem greatest (h : Truncates q r) (hx : Representable x) (hxq : |x| ≤ |q|) :
    |x| ≤ |r.value| := by
  by_cases hz : r = zero
  · rw [hz, value_zero, ← h.vanishes hz]
    exact hxq
  by_contra hlt
  rw [not_le, abs_value, magnitude] at hlt
  have hnext := hx.next (h.canonical.top_le fun hm => hz (h.canonical.eq_zero hm)) hlt
  have habove := h.above
  rw [abs_value, magnitude] at habove
  rw [add_mul, one_mul] at hnext
  exact absurd (hnext.trans hxq) habove.not_ge

theorem unique (h : Truncates q r) (h' : Truncates q r') : r = r' := by
  apply h.canonical.eq_of_magnitude_eq h'.canonical
  · rw [h.sign, h'.sign]
  · rw [← abs_value, ← abs_value]
    exact le_antisymm (h'.greatest h.canonical.representable h.below)
      (h.greatest h'.canonical.representable h'.below)

theorem eq_iff (h : Truncates q r) : r' = r ↔ Truncates q r' :=
  ⟨fun he => he ▸ h, fun h' => h'.unique h⟩

end Truncates

/-! ## Filling the 64 bits -/

theorem lt_cast_div_add_one (m n : ℕ) : (m : ℚ) / n < (m / n : ℕ) + 1 := by
  rw [← Nat.floor_div_eq_div (K := ℚ)]
  exact Nat.lt_floor_add_one _

variable {m : ℕ}

theorem normalize_of_top_le (neg : Bool) (e : Int) (hm : top ≤ m) :
    ∃ k : ℕ, normalize neg e m = ⟨neg, e + (63 + k), m / 2 ^ k⟩ ∧
      top ≤ m / 2 ^ k ∧ m / 2 ^ k < 2 * top := by
  have hne : m ≠ 0 := by
    rintro rfl
    simp [top] at hm
  have hlog : 63 ≤ m.log2 := (Nat.le_log2 hne).mpr hm
  obtain ⟨k, hk⟩ := Nat.exists_eq_add_of_le hlog
  have hlow : 2 ^ (63 + k) ≤ m := hk ▸ Nat.log2_self_le hne
  have hhigh : m < 2 ^ (63 + k + 1) := hk ▸ Nat.lt_log2_self
  refine ⟨k, ?_, ?_, ?_⟩
  · rw [normalize, if_neg hne]
    simp only [hk]
    split
    case isTrue => simp [Nat.shiftRight_eq_div_pow]
    case isFalse hk0 =>
      obtain rfl : k = 0 := by omega
      simp
  · rwa [Nat.le_div_iff_mul_le (Nat.two_pow_pos k), show top = 2 ^ 63 from rfl, ← pow_add]
  · rwa [Nat.div_lt_iff_lt_mul (Nat.two_pow_pos k), show 2 * top = 2 ^ 64 from rfl, ← pow_add,
      show 64 + k = 63 + k + 1 by omega]

theorem normalize_of_lt_top (neg : Bool) (e : Int) (hm : m < top) (hne : m ≠ 0) :
    ∃ k : ℕ, normalize neg e m = ⟨neg, e + (63 - k), m * 2 ^ k⟩ ∧
      top ≤ m * 2 ^ k ∧ m * 2 ^ k < 2 * top := by
  have hlog : m.log2 < 63 := (Nat.log2_lt hne).mpr hm
  obtain ⟨k, hk⟩ := Nat.exists_eq_add_of_le hlog.le
  have hlow : 2 ^ m.log2 ≤ m := Nat.log2_self_le hne
  have hhigh : m < 2 ^ (m.log2 + 1) := Nat.lt_log2_self
  refine ⟨k, ?_, ?_, ?_⟩
  · rw [normalize, if_neg hne]
    simp only [hlog.not_gt, if_false, Nat.shiftLeft_eq]
    rw [show 63 - m.log2 = k by omega, show (m.log2 : ℤ) = 63 - k by omega]
  · calc top = 2 ^ m.log2 * 2 ^ k := by rw [← pow_add, ← hk]; rfl
      _ ≤ m * 2 ^ k := Nat.mul_le_mul_right _ hlow
  · calc m * 2 ^ k < 2 ^ (m.log2 + 1) * 2 ^ k := Nat.mul_lt_mul_of_pos_right hhigh (Nat.two_pow_pos k)
      _ = 2 * 2 ^ (m.log2 + k) := by ring
      _ = 2 * top := by rw [← hk]; rfl

theorem canonical_normalize (neg : Bool) (e : Int) (m : ℕ) : (normalize neg e m).Canonical := by
  by_cases hne : m = 0
  · exact Or.inl (by rw [normalize, if_pos hne])
  rcases le_or_gt top m with hm | hm
  · obtain ⟨k, h, hk⟩ := normalize_of_top_le neg e hm
    exact Or.inr (h ▸ hk)
  · obtain ⟨k, h, hk⟩ := normalize_of_lt_top neg e hm hne
    exact Or.inr (h ▸ hk)

variable {neg : Bool} {e : Int}

/-- A whole number with 64 bits or more is cut off to the first 64, and so is all up to the next. -/
theorem truncates_of_top_le (hm : top ≤ m) (hle : m ≤ x) (hlt : x < m + 1) :
    Truncates (signed neg (x * 2 ^ e)) (normalize neg e m) := by
  have hpos : (0 : ℚ) < 2 ^ e := by positivity
  have hcanonical := canonical_normalize neg e m
  obtain ⟨k, heq, hk⟩ := normalize_of_top_le neg e hm
  rw [heq] at hcanonical ⊢
  have hulp : ulp ⟨neg, e + (63 + k), m / 2 ^ k⟩ = 2 ^ k * 2 ^ e := by
    rw [ulp, show e + (63 + (k : ℤ)) - 63 = k + e by ring, zpow_add₀ two_ne_zero, zpow_natCast]
  have hdiv : ((m / 2 ^ k : ℕ) : ℚ) * 2 ^ k ≤ m := by exact_mod_cast Nat.div_mul_le_self m _
  have hrest : (m : ℚ) + 1 ≤ (m / 2 ^ k : ℕ) * 2 ^ k + 2 ^ k := by
    exact_mod_cast Nat.lt_div_mul_add (a := m) (Nat.two_pow_pos k)
  apply truncates_signed hcanonical (ne_zero_of_top_le hk.1)
  · rw [magnitude, hulp, ← mul_assoc]
    exact mul_le_mul_of_nonneg_right (hdiv.trans hle) hpos.le
  · rw [magnitude, hulp, ← mul_assoc, ← add_mul]
    exact mul_lt_mul_of_pos_right (hlt.trans_le hrest) hpos

/-- A whole number with fewer bits keeps its value. -/
theorem truncates_of_lt_top (hm : m < top) :
    Truncates (signed neg (m * 2 ^ e)) (normalize neg e m) := by
  by_cases hz : m = 0
  · subst hz
    simpa [normalize, signed] using truncates_zero
  have hcanonical := canonical_normalize neg e m
  obtain ⟨k, heq, hk⟩ := normalize_of_lt_top neg e hm hz
  rw [heq] at hcanonical ⊢
  -- The shift that fills the mantissa is the one that the exponent takes back.
  have hmag : magnitude ⟨neg, e + (63 - k), m * 2 ^ k⟩ = m * 2 ^ e := by
    rw [magnitude, ulp, show e + (63 - (k : ℤ)) - 63 = e - k by ring, zpow_sub₀ two_ne_zero,
      zpow_natCast]
    push_cast
    field_simp
  apply truncates_signed hcanonical (ne_zero_of_top_le hk.1)
  · exact hmag.le
  · exact hmag ▸ lt_add_of_pos_right _ (ulp_pos _)

/-- What lies between a whole number and the next may be left out, unless the number has fewer than
64 bits. -/
theorem truncates_normalize (hle : m ≤ x) (hlt : x < m + 1) (h : top ≤ m ∨ x = m) :
    Truncates (signed neg (x * 2 ^ e)) (normalize neg e m) := by
  rcases le_or_gt top m with hm | hm
  · exact truncates_of_top_le hm hle hlt
  · obtain rfl : x = m := h.resolve_left hm.not_ge
    exact truncates_of_lt_top hm

end Extended
end FractalFormula
