/-
Rounding to the nearest integer.

A number is rounded by adding one half to it and rounding the sum down.  The sum is cut off behind
its 64th bit.  Above zero that takes nothing from its integer part, and a sum below zero is exact
while one half reaches the last bit.  Further below zero, from `-2 ^ 63` on, all numbers are whole,
the half lies below the last bit and a sum that is cut off toward zero is the next number above
(`follows_round`).  That goes on until the half is lost altogether, at `-2 ^ 125`.  Everywhere else
the result is the integer nearest to the number, and of two the greater (`round_half_up`).
-/
import FractalFormula.Proofs.Whole

namespace FractalFormula
namespace Extended

variable {a r : Extended} {q x : ℚ} {k : ℕ}

/-- The number lies where rounding moves a number upwards, although all numbers there are whole. -/
def Drifts (a : Extended) : Prop :=
  -2 ^ 125 < a.value ∧ a.value < -2 ^ 63

/-- Of the rationals with 64 bits that are greater than `a`, the number `r` is the least. -/
structure Follows (r a : Extended) : Prop where
  canonical : r.Canonical
  above : a.value < r.value
  least : ∀ x, Representable x → a.value < x → r.value ≤ x

/-! ## Size and exponent -/

theorem ne_zero_of_neg (h : a.value < 0) : a ≠ zero := by
  rintro rfl
  exact h.ne value_zero

/-- Below zero the exponent tells how far a number lies from zero. -/
theorem le_exp_iff_of_neg {k : ℤ} (ha : a.Canonical) (h : a.value < 0) :
    k ≤ a.exp ↔ a.value ≤ -2 ^ k := by
  have hlow := two_zpow_le_magnitude ha (ne_zero_of_neg h)
  have hhigh := magnitude_lt_two_zpow ha
  rw [magnitude_of_neg h] at hlow hhigh
  constructor
  · intro hk
    have hpow : (2 : ℚ) ^ k ≤ 2 ^ a.exp := zpow_le_zpow_right₀ one_le_two hk
    linarith
  · intro hle
    have hpow : (2 : ℚ) ^ k < 2 ^ (a.exp + 1) := by linarith
    rw [zpow_lt_zpow_iff_right₀ one_lt_two] at hpow
    omega

/-! ## One half -/

theorem denotes_half : half.Denotes (1 / 2) := by
  refine ⟨by decide, ?_⟩
  norm_num [value, magnitude, ulp, half, signed, top]

theorem faithful_add_half (ha : a.Canonical) : Faithful (a.value + 1 / 2) (a.add half) := by
  rw [← denotes_half.value]
  exact (faithful_add ha denotes_half.canonical).1

theorem truncates_add_half (ha : a.Canonical) (h : 0 ≤ a.value) :
    Truncates (a.value + 1 / 2) (a.add half) := by
  rw [← denotes_half.value]
  apply (faithful_add ha denotes_half.canonical).2
  rw [denotes_half.value]
  positivity

theorem denotes_round (ha : a.Canonical) : a.round.Denotes ⌊(a.add half).value⌋ :=
  denotes_floor (faithful_add_half ha).canonical

/-! ## Above zero -/

/-- Cutting off above zero leaves the integer part, if 64 bits can hold that. -/
theorem Truncates.floor_value (h : Truncates q r) (hq : 0 ≤ q) (hrep : Representable ⌊q⌋) :
    ⌊r.value⌋ = ⌊q⌋ := by
  have hvalue : r.value = r.magnitude := by
    rw [h.value_eq, decide_eq_false hq.not_gt]
    rfl
  have hfloor : (0 : ℚ) ≤ ⌊q⌋ := by exact_mod_cast Int.floor_nonneg.mpr hq
  have hbelow := h.below
  have hle : |(⌊q⌋ : ℚ)| ≤ |q| := by
    rw [abs_of_nonneg hfloor, abs_of_nonneg hq]
    exact Int.floor_le q
  have hgreatest := h.greatest hrep hle
  rw [abs_value, ← hvalue] at hbelow hgreatest
  rw [abs_of_nonneg hq] at hbelow
  rw [abs_of_nonneg hfloor] at hgreatest
  rw [Int.floor_eq_iff]
  exact ⟨hgreatest, hbelow.trans_lt (Int.lt_floor_add_one q)⟩

theorem floor_add_half_of_whole (h : a.value = wholePart a.value) :
    (⌊a.value + 1 / 2⌋ : ℚ) = a.value := by
  rw [h, Int.floor_intCast_add]
  norm_num

theorem floor_add_half_of_nonneg (ha : a.Canonical) (h : 0 ≤ a.value) :
    ⌊(a.add half).value⌋ = ⌊a.value + 1 / 2⌋ := by
  apply (truncates_add_half ha h).floor_value (by positivity)
  by_cases hwhole : a.value = wholePart a.value
  · rw [floor_add_half_of_whole hwhole]
    exact ha.representable
  · have hlt := (abs_lt.mp (abs_value_lt_of_cut ha hwhole)).2
    have hlow : 0 ≤ ⌊a.value + 1 / 2⌋ := Int.floor_nonneg.mpr (by positivity)
    have hhigh : ⌊a.value + 1 / 2⌋ < (top + 1 : ℕ) := by
      rw [Int.floor_lt]
      push_cast
      linarith
    apply representable_intCast
    simp only [top] at hhigh ⊢
    omega

/-! ## Just below zero -/

theorem Canonical.ulp_le (ha : a.Canonical) (hz : a ≠ zero) : top * a.ulp ≤ a.magnitude := by
  have hm : (top : ℚ) ≤ a.mant := by exact_mod_cast (ha.resolve_left hz).1
  exact mul_le_mul_of_nonneg_right hm a.ulp_pos.le

/-- A number next to one between zero and one half is neither below zero nor as great as one. -/
theorem Faithful.floor_eq_zero (h : Faithful q r) (hq : 0 ≤ q) (hlt : q ≤ 1 / 2) :
    ⌊r.value⌋ = 0 := by
  by_cases hz : r = zero
  · simp [hz]
  have hulp := h.canonical.ulp_le hz
  have hnear := abs_lt.mp h.near
  have hpos := r.ulp_pos
  simp only [top] at hulp
  push_cast at hulp
  rw [Int.floor_eq_zero_iff, Set.mem_Ico]
  cases hneg : r.neg
  case false =>
    have hvalue : r.value = r.magnitude := by rw [value, hneg]; rfl
    rw [hvalue] at hnear ⊢
    exact ⟨r.magnitude_nonneg, by linarith⟩
  case true =>
    have hvalue : r.value = -r.magnitude := by rw [value, hneg]; rfl
    rw [hvalue] at hnear
    linarith

/-- Where one half reaches the last bit, the sum is exact. -/
theorem representable_add_half (ha : a.Canonical) (h : a.value < -(1 / 2)) (he : a.exp < 63) :
    Representable (a.value + 1 / 2) := by
  have hneg : a.value < 0 := h.trans (by norm_num)
  have hlow : -1 ≤ a.exp := by
    rw [le_exp_iff_of_neg ha hneg, zpow_neg_one]
    linarith
  obtain ⟨k, hk⟩ := Int.le.dest (show a.exp ≤ 62 by omega)
  have hhalf : (1 : ℚ) / 2 = 2 ^ k * a.ulp := by
    rw [ulp, ← zpow_natCast, ← zpow_add₀ two_ne_zero, show (k : ℤ) + (a.exp - 63) = -1 by omega]
    norm_num
  have hfits : 2 ^ k ≤ a.mant :=
    calc 2 ^ k ≤ 2 ^ 63 := Nat.pow_le_pow_right (by decide) (by omega)
      _ ≤ a.mant := (ha.resolve_left (ne_zero_of_neg hneg)).1
  refine ⟨a.mant - 2 ^ k, a.exp - 63, (Nat.sub_le _ _).trans_lt ha.mant_lt, ?_⟩
  rw [abs_of_neg (by linarith), Nat.cast_sub hfits, sub_mul, ← ulp, ← magnitude,
    magnitude_of_neg hneg]
  push_cast
  linarith

theorem floor_add_half_of_lt (ha : a.Canonical) (h : a.value < 0) (he : a.exp < 63) :
    ⌊(a.add half).value⌋ = ⌊a.value + 1 / 2⌋ := by
  have hfaithful := faithful_add_half ha
  rcases le_or_gt (-(1 / 2)) a.value with hnear | hfar
  · rw [hfaithful.floor_eq_zero (by linarith) (by linarith), eq_comm, Int.floor_eq_zero_iff]
    exact ⟨by linarith, by linarith⟩
  · rw [hfaithful.exact (representable_add_half ha hfar he)]

/-! ## Far below zero -/

theorem neg_of_value_neg (ha : a.Canonical) (h : a.value < 0) : a.neg = true := by
  rw [value_neg_iff ha, isNegative, Bool.and_eq_true] at h
  exact h.1

theorem dominates_half (h : 63 ≤ a.exp) : a.dominates half := by
  have hlt : half.exp < a.exp := by
    show -1 < a.exp
    omega
  rw [dominates, decide_eq_true hlt, Bool.true_or]

theorem add_half_eq (ha : a.Canonical) (hz : a ≠ zero) (h : 63 ≤ a.exp) :
    a.add half = a.addSmaller half := by
  rw [add, if_neg (fun h => hz (ha.isZero_iff.mp h)), if_neg (by decide), if_pos (dominates_half h)]

theorem exp_of_drifts (ha : a.Canonical) (h : a.Drifts) : 63 ≤ a.exp ∧ a.exp < 125 := by
  have hneg : a.value < 0 := h.2.trans (by norm_num)
  rw [← not_le, le_exp_iff_of_neg ha hneg, le_exp_iff_of_neg ha hneg, zpow_ofNat, zpow_ofNat, not_le]
  exact ⟨h.2.le, h.1⟩

/-- The half is a whole number of units of the last spare bit. -/
theorem alignedExact_half (h : k ≤ 125) : alignedExact k half = aligned k half := by
  apply alignedExact_eq_of_dvd
  exact pow_dvd_pow 2 h

theorem aligned_half (h : 125 < k) : aligned k half = 0 := by
  rw [aligned_eq]
  apply Nat.div_eq_of_lt
  calc half.widened = 2 ^ 125 := by decide
    _ < 2 ^ k := Nat.pow_lt_pow_right (by decide) h

theorem truncates_of_drifts (ha : a.Canonical) (h : a.Drifts) :
    Truncates (a.value + 1 / 2) (a.add half) := by
  obtain ⟨hlow, hhigh⟩ := exp_of_drifts ha h
  have hneg : a.value < 0 := h.2.trans (by norm_num)
  have hz := ne_zero_of_neg hneg
  have hdominates := dominates_half hlow
  rw [add_half_eq ha hz hlow, ← denotes_half.value]
  apply truncates_addSmaller_of_whole ha hz denotes_half.canonical (exp_le_of_dominates hdominates)
    (magnitude_le_of_dominates ha hz denotes_half.canonical hdominates)
  · rw [neg_of_value_neg ha hneg]
    decide
  · apply alignedExact_half
    show (a.exp - -1).toNat ≤ 125
    omega

/-- In the end nothing of the half is left. -/
theorem add_half_of_le (ha : a.Canonical) (h : a.value < 0) (he : 125 ≤ a.exp) :
    a.add half = a := by
  have hz := ne_zero_of_neg h
  have haligned : aligned (a.exp - half.exp).toNat half = 0 := by
    apply aligned_half
    show 125 < (a.exp - -1).toNat
    omega
  rw [add_half_eq ha hz (by omega), addSmaller_eq ha hz denotes_half.canonical, haligned,
    Nat.add_zero, Nat.sub_zero, ite_self, normalize_widened ha hz]

/-! ## The next number above -/

/-- From `2 ^ 63` on, what has 64 bits is whole. -/
theorem Representable.exists_int (h : Representable x) (hx : top ≤ |x|) : ∃ n : ℤ, x = n := by
  obtain ⟨n, hn⟩ := h.whole (k := 0) (by simpa using hx)
  rw [zpow_zero, mul_one] at hn
  rcases abs_choice x with hsign | hsign
  · exact ⟨n, by rw [Int.cast_natCast, ← hn, hsign]⟩
  · exact ⟨-n, by rw [Int.cast_neg, Int.cast_natCast, ← hn, hsign, neg_neg]⟩

theorem representable_neg_top : Representable (-top) :=
  ⟨top, 0, by decide, by rw [zpow_zero, mul_one, abs_neg, Nat.abs_cast]⟩

namespace Truncates

theorem value_of_neg (h : Truncates q r) (hq : q < 0) : r.value = -r.magnitude := by
  rw [h.value_eq, decide_eq_true hq]
  rfl

theorem le_value (h : Truncates q r) (hq : q < 0) : q ≤ r.value := by
  have hbelow := h.below
  rw [abs_value, abs_of_neg hq] at hbelow
  rw [h.value_of_neg hq]
  linarith

/-- Below zero, what is left after cutting off is the least number that is not below. -/
theorem least (h : Truncates q r) (hq : q < 0) (hx : Representable x) (hle : q ≤ x) :
    r.value ≤ x := by
  rw [h.value_of_neg hq]
  rcases le_or_gt 0 x with hx0 | hx0
  · linarith [r.magnitude_nonneg]
  · have hgreatest := h.greatest hx (by rw [abs_of_neg hx0, abs_of_neg hq]; linarith)
    rw [abs_value, abs_of_neg hx0] at hgreatest
    linarith

end Truncates

namespace Drifts

theorem lt_neg_top (h : a.Drifts) : a.value < -top :=
  h.2.trans_eq (by norm_num [top])

/-- What has 64 bits and is greater is greater by one half at least. -/
theorem add_half_le (ha : a.Canonical) (h : a.Drifts) (hx : Representable x) (hlt : a.value < x) :
    a.value + 1 / 2 ≤ x := by
  have hfar := h.lt_neg_top
  obtain ⟨n, hn⟩ := ha.representable.exists_int (le_abs.mpr (Or.inr (by linarith)))
  rcases le_or_gt x (-top) with hxtop | hxtop
  · obtain ⟨m, rfl⟩ := hx.exists_int (le_abs.mpr (Or.inr (by linarith)))
    rw [hn] at hlt ⊢
    have hle : (n : ℚ) + 1 ≤ m := by exact_mod_cast hlt
    linarith
  · have hle : (n : ℚ) + 1 ≤ -top := by
      rw [hn] at hfar
      exact_mod_cast hfar
    rw [hn]
    linarith

end Drifts

/-- The sum, cut off toward zero, is whole and so is not changed by rounding it down. -/
theorem follows_round (ha : a.Canonical) (h : a.Drifts) : a.round.Follows a := by
  have htruncates := truncates_of_drifts ha h
  have htop := h.add_half_le ha representable_neg_top h.lt_neg_top
  have hneg : a.value + 1 / 2 < 0 := htop.trans_lt (by norm_num [top])
  have hfar := htruncates.least hneg representable_neg_top htop
  have hrep := htruncates.canonical.representable
  obtain ⟨n, hn⟩ := hrep.exists_int (le_abs.mpr (Or.inr (by linarith)))
  have hround := denotes_round ha
  rw [hn, Int.floor_intCast, ← hn] at hround
  constructor
  case canonical => exact hround.canonical
  case above =>
    rw [hround.value]
    linarith [htruncates.le_value hneg]
  case least =>
    intro x hx hlt
    rw [hround.value]
    exact htruncates.least hneg hx (h.add_half_le ha hx hlt)

/-! ## Rounding -/

theorem floor_add_half_of_not_drifts (ha : a.Canonical) (h : ¬a.Drifts) (hneg : a.value < 0)
    (he : 63 ≤ a.exp) : ⌊(a.add half).value⌋ = ⌊a.value + 1 / 2⌋ := by
  have hle : a.value ≤ -2 ^ 63 := by
    rwa [le_exp_iff_of_neg ha hneg, zpow_ofNat] at he
  rcases eq_or_lt_of_le hle with hfirst | hfar
  · -- At `-2 ^ 63` itself the sum still has 64 bits.
    have hrep : Representable (a.value + 1 / 2) :=
      ⟨2 * top - 1, -1, by decide, by rw [hfirst]; norm_num [top]⟩
    rw [(faithful_add_half ha).exact hrep]
  · have hlow : a.value ≤ -2 ^ 125 := not_lt.mp fun hlow => h ⟨hlow, hfar⟩
    have hexp : 125 ≤ a.exp := by
      rwa [le_exp_iff_of_neg ha hneg, zpow_ofNat]
    have hwhole := value_eq_wholePart he
    rw [add_half_of_le ha hneg hexp]
    have hcast : (⌊a.value⌋ : ℚ) = ⌊a.value + 1 / 2⌋ := by
      rw [floor_add_half_of_whole hwhole, hwhole, Int.floor_intCast]
    exact_mod_cast hcast

theorem floor_add_half_ne_of_drifts (ha : a.Canonical) (h : a.Drifts) :
    ⌊(a.add half).value⌋ ≠ ⌊a.value + 1 / 2⌋ := by
  intro heq
  have habove := (follows_round ha h).above
  rw [(denotes_round ha).value, heq,
    floor_add_half_of_whole (value_eq_wholePart (exp_of_drifts ha h).1)] at habove
  exact habove.false

theorem floor_add_half_iff (ha : a.Canonical) :
    ⌊(a.add half).value⌋ = ⌊a.value + 1 / 2⌋ ↔ ¬a.Drifts := by
  constructor
  · exact fun heq h => floor_add_half_ne_of_drifts ha h heq
  intro h
  rcases le_or_gt 0 a.value with hpos | hneg
  · exact floor_add_half_of_nonneg ha hpos
  rcases lt_or_ge a.exp 63 with he | he
  · exact floor_add_half_of_lt ha hneg he
  · exact floor_add_half_of_not_drifts ha h hneg he

theorem denotes_round_iff (ha : a.Canonical) :
    a.round.Denotes ⌊a.value + 1 / 2⌋ ↔ ¬a.Drifts := by
  rw [← floor_add_half_iff ha]
  constructor
  · exact fun h => Int.cast_injective ((denotes_round ha).value.symm.trans h.value)
  · exact fun h => h ▸ denotes_round ha

/-- Rounding gives the integer part of the number and one half, as it does for rationals, except
between `-2 ^ 125` and `-2 ^ 63`.  There all numbers are whole, and each is moved to the next above;
everywhere else whole numbers stay as they are. -/
theorem round_half_up (ha : a.Canonical) :
    (a.round.Denotes ⌊a.value + 1 / 2⌋ ↔ ¬a.Drifts) ∧
    (∀ n : ℤ, a.value = n → (a.round = a ↔ ¬a.Drifts)) ∧
    (a.Drifts → a.round.Follows a) := by
  refine ⟨denotes_round_iff ha, fun n hn => ?_, follows_round ha⟩
  have hsame : (⌊a.value + 1 / 2⌋ : ℚ) = a.value := by
    rw [hn, Int.floor_intCast_add]
    norm_num
  rw [← denotes_round_iff ha, hsame]
  exact (Denotes.of_canonical ha).eq_iff

/-- A half is rounded up, `-2 ^ 64` is moved to the next number, and `-2 ^ 125` stays. -/
theorem round_half_up_below_zero :
    (round ⟨true, 1, 0xA000000000000000⟩).Denotes ⌊value ⟨true, 1, 0xA000000000000000⟩ + 1 / 2⌋ ∧
      (round ⟨true, 64, top⟩).Follows ⟨true, 64, top⟩ ∧
      round ⟨true, 125, top⟩ = ⟨true, 125, top⟩ := by
  refine ⟨?_, ?_, ?_⟩
  · apply (round_half_up (by decide)).1.mpr
    norm_num [Drifts, value, magnitude, ulp, signed]
  · apply (round_half_up (by decide)).2.2
    norm_num [Drifts, value, magnitude, ulp, signed, top]
  · apply ((round_half_up (by decide)).2.1 (-2 ^ 125) ?_).mpr
    · norm_num [Drifts, value, magnitude, ulp, signed, top]
    · norm_num [value, magnitude, ulp, signed, top]

/-- A whole number that is moved by one. -/
theorem exists_drifting : ∃ a : Extended, a.Canonical ∧ a.value = -2 ^ 64 ∧
    a.round.value = -(2 ^ 64 - 1) ∧ a.round.value ≠ ⌊a.value + 1 / 2⌋ := by
  have hvalue : value ⟨true, 64, top⟩ = -2 ^ 64 := by
    norm_num [value, magnitude, ulp, signed, top]
  have hround : round ⟨true, 64, top⟩ = ⟨true, 63, 2 * top - 1⟩ := by decide
  have hresult : value ⟨true, 63, 2 * top - 1⟩ = -(2 ^ 64 - 1) := by
    norm_num [value, magnitude, ulp, signed, top]
  refine ⟨⟨true, 64, top⟩, by decide, hvalue, ?_, ?_⟩
  · rw [hround, hresult]
  · rw [hround, hresult, hvalue]
    norm_num

end Extended
end FractalFormula
