/-
Products and quotients in fixed point.

A product is formed in 64 bits and shifted to the right, which rounds it down; a dividend is shifted
to the left and divided, which rounds the quotient toward zero.  Factors of 32 bits and a shift by
29 at most leave room in 64 bits, so the words hold the exact numbers (`toInt_product`,
`toInt_dividend`, `toInt_quotient`), and the one place where something can fail to fit is the word
of the result (`mul_div_exact_or_overflow`).
-/
import FractalFormula.Number.Fixed
import FractalFormula.Proofs.WholePart

namespace FractalFormula
namespace Fixed

variable {s : Scale} {n : ℤ} {r : Fixed s}

/-! ## Results -/

/-- The number is the raw form of some word. -/
def FitsWord (n : ℤ) : Prop :=
  -2 ^ 31 ≤ n ∧ n < 2 ^ 31

theorem fitsWord_toInt (x : Int32) : FitsWord x.toInt :=
  ⟨x.le_toInt, x.toInt_lt⟩

theorem narrow?_eq_some_iff : narrow? n = some r ↔ r.raw.toInt = n := by
  have hword := fitsWord_toInt r.raw
  rw [narrow?]
  split
  case isTrue h =>
    have hn : (Int32.ofInt n).toInt = n := Int32.toInt_ofInt_of_le h.1 (by omega)
    constructor
    · rintro ⟨⟩
      exact hn
    · intro hr
      rw [Int32.toInt_inj.mp (hn.trans hr.symm)]
  case isFalse h =>
    constructor
    · rintro ⟨⟩
    · rintro rfl
      exact absurd ⟨hword.1, Int.lt_add_one_iff.mp hword.2⟩ h

theorem narrow?_eq_none_iff : (narrow? n : Option (Fixed s)) = none ↔ ¬FitsWord n := by
  rw [narrow?, ite_eq_right_iff, FitsWord]
  constructor <;> intro h
  · rintro ⟨hlow, hhigh⟩
    cases h ⟨hlow, by omega⟩
  · rintro ⟨hlow, hhigh⟩
    exact absurd ⟨hlow, by omega⟩ h

/-! ## The exact numbers -/

/-- The product in raw form, rounded down. -/
def flooredProduct (a b : Fixed s) : ℤ :=
  ⌊(a.raw.toInt * b.raw.toInt : ℚ) / 2 ^ s.shift⌋

/-- The quotient in raw form, rounded toward zero. -/
def truncatedQuotient (a b : Fixed s) : ℤ :=
  wholePart (a.raw.toInt * 2 ^ s.shift / b.raw.toInt)

theorem cast_unit (s : Scale) : (s.unit : ℤ) = 2 ^ s.shift := by
  rw [Scale.unit, Nat.one_shiftLeft]
  push_cast
  rfl

theorem flooredProduct_eq (a b : Fixed s) :
    a.flooredProduct b = a.raw.toInt * b.raw.toInt / 2 ^ s.shift := by
  have hfloor := Rat.floor_intCast_div_natCast (a.raw.toInt * b.raw.toInt) (2 ^ s.shift)
  push_cast at hfloor
  exact hfloor

theorem truncatedQuotient_eq (a b : Fixed s) :
    a.truncatedQuotient b = (a.raw.toInt * 2 ^ s.shift).tdiv b.raw.toInt := by
  rw [← wholePart_div]
  push_cast
  rfl

theorem mul?_eq (a b : Fixed s) : a.mul? b = narrow? (a.flooredProduct b) := by
  rw [mul?, flooredProduct_eq, Int.fdiv_eq_ediv_of_nonneg _ (Int.natCast_nonneg _), cast_unit]

theorem div?_eq (a b : Fixed s) :
    a.div? b = if b.raw = 0 then none else narrow? (a.truncatedQuotient b) := by
  rw [div?, truncatedQuotient_eq, cast_unit]

/-! ## Words of 64 bits -/

/-- The shift as a word. -/
def amount (s : Scale) : Int64 :=
  Int64.ofNat s.shift

/-- The product before it is shifted. -/
def product (a b : Fixed s) : Int64 :=
  a.raw.toInt64 * b.raw.toInt64

/-- What is divided. -/
def dividend (a : Fixed s) : Int64 :=
  a.raw.toInt64 <<< amount s

def quotient (a b : Fixed s) : Int64 :=
  a.dividend / b.raw.toInt64

/-- The number with a given raw form, if that is one of the words of 32 bits. -/
def narrowWord? (x : Int64) : Option (Fixed s) :=
  if Int32.minValue.toInt64 ≤ x ∧ x ≤ Int32.maxValue.toInt64 then some ⟨x.toInt32⟩ else none

def mulWord? (a b : Fixed s) : Option (Fixed s) :=
  narrowWord? (a.product b >>> amount s)

def divWord? (a b : Fixed s) : Option (Fixed s) :=
  if b.raw = 0 then none else narrowWord? (a.quotient b)

theorem natAbs_toInt_le (x : Int32) : x.toInt.natAbs ≤ 2 ^ 31 := by
  have hlow := x.le_toInt
  have hhigh := x.toInt_lt
  omega

/-- What is below `2 ^ 63` in size does not wrap around in 64 bits. -/
theorem bmod_of_natAbs_lt (h : n.natAbs < 2 ^ 63) : n.bmod (2 ^ 64) = n :=
  Int.bmod_eq_of_le (by omega) (by omega)

theorem toInt_product (a b : Fixed s) : (a.product b).toInt = a.raw.toInt * b.raw.toInt := by
  rw [product, Int64.toInt_mul, Int32.toInt_toInt64, Int32.toInt_toInt64]
  apply bmod_of_natAbs_lt
  calc (a.raw.toInt * b.raw.toInt).natAbs = a.raw.toInt.natAbs * b.raw.toInt.natAbs :=
        Int.natAbs_mul _ _
    _ ≤ 2 ^ 31 * 2 ^ 31 := Nat.mul_le_mul (natAbs_toInt_le _) (natAbs_toInt_le _)
    _ < 2 ^ 63 := by decide

theorem toNat_amount (s : Scale) : ((amount s).toBitVec.smod 64).toNat = s.shift := by
  have hall : ∀ k < 30, ((Int64.ofNat k).toBitVec.smod 64).toNat = k := by decide
  exact hall s.shift (Nat.lt_succ_of_le s.high)

theorem natAbs_scaled_le (a : Fixed s) : (a.raw.toInt * 2 ^ s.shift).natAbs ≤ 2 ^ 31 * 2 ^ 29 := by
  rw [Int.natAbs_mul, Int.natAbs_pow]
  exact Nat.mul_le_mul (natAbs_toInt_le _) (Nat.pow_le_pow_right (by decide) s.high)

theorem toInt_dividend (a : Fixed s) : a.dividend.toInt = a.raw.toInt * 2 ^ s.shift := by
  have hhigh := s.high
  rw [dividend, ← Int64.toInt_toBitVec, Int64.toBitVec_shiftLeft, BitVec.shiftLeft_eq',
    toNat_amount, BitVec.shiftLeft_eq_mul_twoPow, BitVec.toInt_mul, BitVec.toInt_twoPow,
    if_neg (by omega), if_neg (by omega), Int64.toInt_toBitVec, Int32.toInt_toInt64]
  exact bmod_of_natAbs_lt (a.natAbs_scaled_le.trans_lt (by decide))

theorem toInt_quotient (a b : Fixed s) : (a.quotient b).toInt = a.truncatedQuotient b := by
  rw [quotient, Int64.toInt_div, toInt_dividend, Int32.toInt_toInt64, truncatedQuotient_eq]
  apply bmod_of_natAbs_lt
  calc ((a.raw.toInt * 2 ^ s.shift).tdiv b.raw.toInt).natAbs
      ≤ (a.raw.toInt * 2 ^ s.shift).natAbs := Int.natAbs_tdiv_le_natAbs _ _
    _ ≤ 2 ^ 31 * 2 ^ 29 := a.natAbs_scaled_le
    _ < 2 ^ 63 := by decide

theorem toInt_shiftRight (x : Int64) : (x >>> amount s).toInt = x.toInt / 2 ^ s.shift := by
  rw [← Int64.toInt_toBitVec, Int64.toBitVec_shiftRight, BitVec.toInt_sshiftRight', toNat_amount,
    Int.shiftRight_eq_div_pow, Int64.toInt_toBitVec]
  push_cast
  rfl

theorem narrowWord?_eq (x : Int64) : (narrowWord? x : Option (Fixed s)) = narrow? x.toInt := by
  rw [narrowWord?, narrow?, ← Int64.toInt32_ofInt, Int64.ofInt_toInt]
  simp only [Int64.le_iff_toInt_le]
  rfl

theorem mulWord?_eq (a b : Fixed s) : a.mulWord? b = a.mul? b := by
  rw [mulWord?, narrowWord?_eq, toInt_shiftRight, toInt_product, mul?_eq, flooredProduct_eq]

theorem divWord?_eq (a b : Fixed s) : a.divWord? b = a.div? b := by
  rw [divWord?, narrowWord?_eq, toInt_quotient, div?_eq]

/-! ## Multiplication and division -/

/-- A product is rounded down and a quotient toward zero, and there is an overflow if and only if
that does not fit the word or the divisor is zero.  On words, whose products, dividends and quotients
of 64 bits are the exact ones, the results are the same. -/
theorem mul_div_exact_or_overflow (a b : Fixed s) :
    (∀ r, a.mul? b = some r ↔ r.raw.toInt = a.flooredProduct b) ∧
    (a.mul? b = none ↔ ¬FitsWord (a.flooredProduct b)) ∧
    (∀ r, a.div? b = some r ↔ b.raw ≠ 0 ∧ r.raw.toInt = a.truncatedQuotient b) ∧
    (a.div? b = none ↔ b.raw = 0 ∨ ¬FitsWord (a.truncatedQuotient b)) ∧
    (a.product b).toInt = a.raw.toInt * b.raw.toInt ∧
    a.dividend.toInt = a.raw.toInt * 2 ^ s.shift ∧
    (a.quotient b).toInt = a.truncatedQuotient b ∧
    a.mulWord? b = a.mul? b ∧ a.divWord? b = a.div? b := by
  refine ⟨fun r => ?_, ?_, fun r => ?_, ?_, toInt_product a b, toInt_dividend a, toInt_quotient a b,
    mulWord?_eq a b, divWord?_eq a b⟩
  · rw [mul?_eq, narrow?_eq_some_iff]
  · rw [mul?_eq, narrow?_eq_none_iff]
  · rw [div?_eq, Option.ite_none_left_eq_some, narrow?_eq_some_iff]
  · rw [div?_eq, ite_eq_left_iff, narrow?_eq_none_iff, or_iff_not_imp_left]

/-- The least word and minus one: their product fits, and their quotient does not. -/
example : let s : Scale := ⟨8, by decide, by decide⟩
    mul? (⟨Int32.minValue⟩ : Fixed s) ⟨-1⟩ = some ⟨8388608⟩ ∧
      div? (⟨Int32.minValue⟩ : Fixed s) ⟨-1⟩ = none := by
  decide

end Fixed
end FractalFormula
