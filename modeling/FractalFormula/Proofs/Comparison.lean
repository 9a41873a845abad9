/-
Computed numbers and their order.

Whatever is computed in extended precision from zero, one and doubles is canonical
(`Computed.canonical`), and a canonical number is the only one with its value.  So equality of sign,
exponent and mantissa is equality of values, and the order that looks at the signs first, then at
the exponents and last at the mantissas is the order of the values (`order_eq_compare`).
-/
import FractalFormula.Proofs.Doubles
import FractalFormula.Proofs.HalfUp
import FractalFormula.Proofs.Products

namespace FractalFormula
namespace Extended

variable {a b : Extended}

/-! ## Computed numbers -/

/-- A number that some sequence of operations makes of zero, one and doubles. -/
inductive Computed : Extended → Prop
  | zero : Computed zero
  | one : Computed one
  | ofFloat (x : Float) : Computed (ofFloat x)
  | add {a b : Extended} : Computed a → Computed b → Computed (a.add b)
  | sub {a b : Extended} : Computed a → Computed b → Computed (a.sub b)
  | mul {a b : Extended} : Computed a → Computed b → Computed (a.mul b)
  | div {a b q : Extended} : Computed a → Computed b → a.div? b = some q → Computed q
  | negate {a : Extended} : Computed a → Computed a.negate
  | abs {a : Extended} : Computed a → Computed a.abs
  | floor {a : Extended} : Computed a → Computed a.floor
  | ceil {a : Extended} : Computed a → Computed a.ceil
  | trunc {a : Extended} : Computed a → Computed a.trunc
  | round {a : Extended} : Computed a → Computed a.round

theorem canonical_abs (ha : a.Canonical) : a.abs.Canonical := by
  rcases ha with rfl | ha
  · exact canonical_zero
  · exact Or.inr ha

theorem canonical_div {q : Extended} (ha : a.Canonical) (hb : b.Canonical)
    (h : a.div? b = some q) : q.Canonical := by
  have hz : b ≠ zero := by
    intro hz
    rw [(div?_eq_none_iff hb).mpr hz] at h
    cases h
  obtain ⟨q', hq', htruncates⟩ := truncates_div ha hb hz
  obtain rfl := Option.some.inj (hq'.symm.trans h)
  exact htruncates.canonical

theorem Computed.canonical (h : Computed a) : a.Canonical := by
  induction h with
  | zero => exact canonical_zero
  | one => exact denotes_one.canonical
  | ofFloat x => exact canonical_ofFloat x
  | add _ _ iha ihb => exact (faithful_add iha ihb).1.canonical
  | sub _ _ iha ihb => exact (faithful_add iha (canonical_negate ihb)).1.canonical
  | mul _ _ iha ihb => exact (truncates_mul iha ihb).canonical
  | div _ _ h iha ihb => exact canonical_div iha ihb h
  | negate _ ih => exact canonical_negate ih
  | abs _ ih => exact canonical_abs ih
  | floor _ ih => exact (denotes_floor ih).canonical
  | ceil _ ih => exact (denotes_ceil ih).canonical
  | trunc _ ih => exact (denotes_trunc ih).canonical
  | round _ ih => exact (denotes_round ih).canonical

/-! ## Equality -/

theorem Canonical.eq_iff_value_eq (ha : a.Canonical) (hb : b.Canonical) :
    a = b ↔ a.value = b.value := by
  rw [(Denotes.of_canonical hb).eq_iff]
  exact ⟨Denotes.value, fun h => ⟨ha, h⟩⟩

/-! ## Order -/

/-- Two comparisons have the same result if they agree in all three cases. -/
theorem compare_eq_compare {α β : Type} [LinearOrder α] [LinearOrder β] {i j : α} {x y : β}
    (hlt : i < j → x < y) (heq : i = j → x = y) (hgt : j < i → y < x) :
    compare i j = compare x y := by
  rcases lt_trichotomy i j with h | h | h
  · rw [compare_lt_iff_lt.mpr h, compare_lt_iff_lt.mpr (hlt h)]
  · rw [compare_eq_iff_eq.mpr h, compare_eq_iff_eq.mpr (heq h)]
  · rw [compare_gt_iff_gt.mpr h, compare_gt_iff_gt.mpr (hgt h)]

theorem neg_one_le_sign (a : Extended) : -1 ≤ a.sign := by
  rw [sign]
  split <;> [decide; split <;> decide]

theorem sign_le_one (a : Extended) : a.sign ≤ 1 := by
  rw [sign]
  split <;> [decide; split <;> decide]

theorem sign_neg_iff (ha : a.Canonical) : a.sign < 0 ↔ a.value < 0 := by
  rw [value_neg_iff ha, isNegative, sign, isZero]
  cases a.neg <;> by_cases hm : a.mant = 0 <;> simp [hm]

theorem sign_eq_zero_iff (ha : a.Canonical) : a.sign = 0 ↔ a.value = 0 := by
  rw [ha.value_eq_zero_iff, ← ha.isZero_iff, sign]
  cases a.isZero <;> cases a.neg <;> decide

theorem sign_pos_iff (ha : a.Canonical) : 0 < a.sign ↔ 0 < a.value := by
  have hneg := sign_neg_iff ha
  have hzero := sign_eq_zero_iff ha
  rcases lt_trichotomy a.value 0 with h | h | h
  · simp [h.not_gt, (hneg.mpr h).le]
  · simp [h, hzero.mpr h]
  · simp only [h, iff_true]
    have h1 := mt hneg.mp h.not_gt
    have h2 := mt hzero.mp h.ne'
    omega

theorem value_lt_of_sign_lt (ha : a.Canonical) (hb : b.Canonical) (h : a.sign < b.sign) :
    a.value < b.value := by
  have hlow := a.neg_one_le_sign
  have hhigh := b.sign_le_one
  rcases lt_or_ge a.sign 0 with hneg | hpos
  · have hb0 : 0 ≤ b.value := not_lt.mp fun hb0 => by
      have := (sign_neg_iff hb).mpr hb0
      omega
    exact ((sign_neg_iff ha).mp hneg).trans_le hb0
  · have ha0 : a.value ≤ 0 := not_lt.mp fun ha0 => by
      have := (sign_pos_iff ha).mpr ha0
      omega
    exact ha0.trans_lt ((sign_pos_iff hb).mp (by omega))

theorem compareMagnitude_eq (ha : a.Canonical) (hb : b.Canonical) (hza : a ≠ zero) (hzb : b ≠ zero) :
    compareMagnitude a b = compare a.magnitude b.magnitude := by
  rw [compareMagnitude]
  rcases lt_trichotomy a.exp b.exp with he | he | he
  · rw [compare_lt_iff_lt.mpr he, compare_lt_iff_lt.mpr (ha.magnitude_lt hb hzb he)]
    rfl
  · have hulp : a.ulp = b.ulp := by rw [ulp, ulp, he]
    rw [compare_eq_iff_eq.mpr he, magnitude, magnitude, hulp]
    have hcast {m n : ℕ} (h : m < n) : (m : ℚ) * b.ulp < n * b.ulp :=
      mul_lt_mul_of_pos_right (by exact_mod_cast h) b.ulp_pos
    exact compare_eq_compare hcast (fun h => by rw [h]) hcast
  · rw [compare_gt_iff_gt.mpr he, compare_gt_iff_gt.mpr (hb.magnitude_lt ha hza he)]
    rfl

theorem order_eq_compare (ha : a.Canonical) (hb : b.Canonical) :
    order a b = compare a.value b.value := by
  rw [order]
  split
  case isTrue h =>
    apply compare_eq_compare
    · exact value_lt_of_sign_lt ha hb
    · intro hsame
      have hza := h.resolve_left (not_not.mpr hsame)
      rw [(sign_eq_zero_iff ha).mp hza, (sign_eq_zero_iff hb).mp (hsame ▸ hza)]
    · exact value_lt_of_sign_lt hb ha
  case isFalse h =>
    rw [not_or, not_not] at h
    obtain ⟨hsame, hnonzero⟩ := h
    have hza : a ≠ zero := by
      rintro rfl
      exact hnonzero rfl
    have hzb : b ≠ zero := by
      rintro rfl
      exact hnonzero hsame
    rw [compareMagnitude_eq ha hb hza hzb]
    split
    case isTrue hneg =>
      rw [magnitude_of_neg ((sign_neg_iff ha).mp hneg),
        magnitude_of_neg ((sign_neg_iff hb).mp (hsame ▸ hneg)), ← Std.OrientedOrd.eq_swap]
      exact compare_eq_compare neg_lt_neg_iff.mp (fun h => (neg_inj.mp h).symm) neg_lt_neg_iff.mp
    case isFalse hneg =>
      have hpos : 0 < a.sign := by omega
      rw [magnitude_of_pos ((sign_pos_iff ha).mp hpos),
        magnitude_of_pos ((sign_pos_iff hb).mp (hsame ▸ hpos))]

/-! ## Numbers and what is computed -/

/-- What is computed is canonical, a finite double keeps its value, and canonical numbers are equal
and ordered as the rationals are that they stand for. -/
theorem computed_numbers :
    (∀ a, Computed a → a.Canonical) ∧
    (∀ bits, Double.IsFinite bits → (ofFloat (Float.ofBits bits)).value = Double.value bits) ∧
    ∀ a b : Extended, a.Canonical → b.Canonical →
      (Scalar.equal a b = true ↔ a.value = b.value) ∧
      Scalar.compare? a b = some (compare a.value b.value) := by
  refine ⟨fun a ha => ha.canonical, fun bits h => (denotes_ofFloat h).value, fun a b ha hb => ?_⟩
  constructor
  · exact beq_iff_eq.trans (ha.eq_iff_value_eq hb)
  · exact congrArg some (order_eq_compare ha hb)

/-- The least double above zero, what it leaves of one, and `-2` before `-1`. -/
theorem computed_numbers_least :
    (ofFloat (Float.ofBits 1)).value = 2 ^ (-1074 : ℤ) ∧
      (one.sub (ofFloat (Float.ofBits 1))).Canonical ∧
      Scalar.compare? (⟨true, 1, top⟩ : Extended) ⟨true, 0, top⟩ = some .lt := by
  refine ⟨?_, computed_numbers.1 _ (.sub .one (.ofFloat _)), ?_⟩
  · have hmagnitude : Double.magnitude 1 = 1 / 2 ^ 52 * 2 ^ (-1022 : ℤ) := by
      rw [Double.magnitude, if_pos (by decide), show Double.fractionBits 1 = 1 by decide, Nat.cast_one]
    rw [computed_numbers.2.1 1 (by decide), Double.value, if_neg (by decide), hmagnitude,
      show (-1074 : ℤ) = -1022 - (52 : ℕ) by norm_num, zpow_sub₀ two_ne_zero, zpow_natCast]
    ring
  · rw [(computed_numbers.2.2 _ _ (by decide) (by decide)).2, compare_lt_iff_lt.mpr]
    norm_num [value, magnitude, ulp, signed, top]

end Extended
end FractalFormula
