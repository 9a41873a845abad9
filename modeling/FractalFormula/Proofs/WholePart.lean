/-
Whole parts of rationals.

The whole part of a rational is the integer that is left without what stands behind the point
(`wholePart`): the greatest below a number that is not negative, the least above one that is.  The
division of integers that rounds toward zero gives the whole part of the quotient
(`wholePart_div`).
-/
import Mathlib.Data.Rat.Floor
import Mathlib.Tactic.Linarith

namespace FractalFormula

/-- The integer next to a rational on the side of zero, or the rational if it is one. -/
def wholePart (q : ℚ) : ℤ :=
  if q < 0 then ⌈q⌉ else ⌊q⌋

variable {q : ℚ}

theorem wholePart_of_nonneg (h : 0 ≤ q) : wholePart q = ⌊q⌋ :=
  if_neg h.not_gt

theorem wholePart_of_neg (h : q < 0) : wholePart q = ⌈q⌉ :=
  if_pos h

@[simp] theorem wholePart_neg (q : ℚ) : wholePart (-q) = -wholePart q := by
  rcases lt_trichotomy q 0 with h | rfl | h
  · rw [wholePart_of_neg h, wholePart_of_nonneg (neg_pos.mpr h).le, Int.floor_neg]
  · simp [wholePart]
  · rw [wholePart_of_nonneg h.le, wholePart_of_neg (neg_neg_of_pos h), Int.ceil_neg]

/-! ## The integers on both sides -/

theorem floor_eq_wholePart (h : 0 ≤ q ∨ q = wholePart q) : ⌊q⌋ = wholePart q := by
  rcases h with h | h
  · exact (wholePart_of_nonneg h).symm
  · rw [h, Int.floor_intCast, ← h]

theorem ceil_eq_wholePart (h : q < 0 ∨ q = wholePart q) : ⌈q⌉ = wholePart q := by
  rcases h with h | h
  · exact (wholePart_of_neg h).symm
  · rw [h, Int.ceil_intCast, ← h]

theorem floor_eq_wholePart_sub_one (h : q < 0) (hq : q ≠ wholePart q) :
    ⌊q⌋ = wholePart q - 1 := by
  rw [wholePart_of_neg h] at hq ⊢
  have hlt : q < ⌈q⌉ := lt_of_le_of_ne (Int.le_ceil q) hq
  rw [Int.floor_eq_iff]
  push_cast
  exact ⟨by linarith [Int.ceil_lt_add_one q], by linarith⟩

theorem ceil_eq_wholePart_add_one (h : 0 ≤ q) (hq : q ≠ wholePart q) :
    ⌈q⌉ = wholePart q + 1 := by
  rw [wholePart_of_nonneg h] at hq ⊢
  have hlt : ⌊q⌋ < q := lt_of_le_of_ne (Int.floor_le q) hq.symm
  rw [Int.ceil_eq_iff]
  push_cast
  exact ⟨by linarith, by linarith [Int.lt_floor_add_one q]⟩

/-! ## Quotients -/

/-- Not below zero it is a quotient of whole numbers. -/
theorem wholePart_natCast_div (m n : ℕ) : wholePart (m / n) = (m / n : ℕ) := by
  rw [wholePart_of_nonneg (by positivity), Rat.floor_natCast_div_natCast, Int.natCast_div]

/-- Division toward zero gives the whole part of the quotient. -/
theorem wholePart_div (a b : ℤ) : wholePart (a / b) = a.tdiv b := by
  obtain ⟨m, rfl | rfl⟩ := a.eq_nat_or_neg <;> obtain ⟨n, rfl | rfl⟩ := b.eq_nat_or_neg
  all_goals
    simp only [Int.cast_neg, Int.cast_natCast, neg_div, div_neg, neg_neg, wholePart_neg,
      wholePart_natCast_div, Int.neg_tdiv, Int.tdiv_neg, Int.ofNat_tdiv]

end FractalFormula
