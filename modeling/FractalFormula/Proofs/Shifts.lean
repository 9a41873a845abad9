/-
Shifts of words.

The operations that round to a whole number (`trunc_floor_ceil_exact`) clear bits of a word of 64,
and what corrects them by one lines up and normalizes words of 128.  A shift of a word needs an
amount below its width.  Here every shift is one that has no result for another amount
(`shiftLeft?`, `shiftRight?`), and still all operations have the result that they have on whole
numbers.
-/
import FractalFormula.Proofs.Products
import FractalFormula.Proofs.Whole

namespace FractalFormula

/-! ## Shifts with a check -/

variable {w : ℕ}

/-- The word shifted to the left, if the amount lies below the width. -/
def shiftLeft? (x : BitVec w) (n : ℤ) : Option (BitVec w) :=
  if 0 ≤ n ∧ n < w then some (x <<< n.toNat) else none

/-- The word shifted to the right, if the amount lies below the width. -/
def shiftRight? (x : BitVec w) (n : ℤ) : Option (BitVec w) :=
  if 0 ≤ n ∧ n < w then some (x >>> n.toNat) else none

variable {x : BitVec w} {n : ℤ} {k : ℕ}

theorem shiftLeft?_of_lt (h0 : 0 ≤ n) (h : n < w) : shiftLeft? x n = some (x <<< n.toNat) :=
  if_pos ⟨h0, h⟩

theorem shiftRight?_of_lt (h0 : 0 ≤ n) (h : n < w) : shiftRight? x n = some (x >>> n.toNat) :=
  if_pos ⟨h0, h⟩

/-! ## Masks -/

/-- The word whose last `k` bits are set. -/
def lowMask (w k : ℕ) : BitVec w :=
  1#w <<< k - 1#w

theorem toNat_lowMask (hk : k < w) : (lowMask w k).toNat = 2 ^ k - 1 := by
  have hlt : 2 ^ k < 2 ^ w := Nat.pow_lt_pow_right (by decide) hk
  have hpos : 0 < 2 ^ k := Nat.two_pow_pos k
  have hone : (1#w).toNat = 1 := BitVec.toNat_one (by omega)
  have hbit : (1#w <<< k).toNat = 2 ^ k := by
    rw [BitVec.toNat_shiftLeft, hone, Nat.one_shiftLeft, Nat.mod_eq_of_lt hlt]
  rw [lowMask, BitVec.toNat_sub_of_le (by rw [BitVec.le_def]; omega), hbit, hone]

theorem toNat_and_lowMask (x : BitVec w) (hk : k < w) :
    (x &&& lowMask w k).toNat = x.toNat % 2 ^ k := by
  rw [BitVec.toNat_and, toNat_lowMask hk, Nat.and_two_pow_sub_one_eq_mod]

/-- What the mask keeps and what it clears make up the word. -/
theorem toNat_and_not_lowMask (x : BitVec w) (hk : k < w) :
    (x &&& ~~~lowMask w k).toNat = x.toNat / 2 ^ k * 2 ^ k := by
  have hdisjoint : (x &&& lowMask w k) &&& (x &&& ~~~lowMask w k) = 0#w := by
    ext i hi
    simp only [BitVec.getElem_and, BitVec.getElem_not, BitVec.getElem_zero]
    cases x[i] <;> cases (lowMask w k)[i] <;> rfl
  have hsum : (x &&& lowMask w k) + (x &&& ~~~lowMask w k) = x := by
    rw [BitVec.add_eq_or_of_and_eq_zero _ _ hdisjoint]
    ext i hi
    simp only [BitVec.getElem_or, BitVec.getElem_and, BitVec.getElem_not]
    cases x[i] <;> cases (lowMask w k)[i] <;> rfl
  have hnat := BitVec.toNat_add_of_and_eq_zero hdisjoint
  rw [hsum, toNat_and_lowMask x hk] at hnat
  have hdiv := Nat.div_add_mod x.toNat (2 ^ k)
  rw [Nat.mul_comm] at hdiv
  omega

namespace Extended

variable {a b big small : Extended}

/-! ## Sums on words -/

/-- The normal form of a word of 128 bits, with shifts that are checked. -/
def normalizeWide? (neg : Bool) (e : Int) (m : BitVec 128) : Option Extended :=
  if m = 0 then some zero
  else
    let bit := m.toNat.log2
    if 63 < bit then do
      let mant ← shiftRight? m (bit - 63 : Int)
      return ⟨neg, e + bit, (mant.setWidth 64).toNat⟩
    else do
      let mant ← shiftLeft? m (63 - bit : Int)
      return ⟨neg, e + bit, (mant.setWidth 64).toNat⟩

/-- The sum of a number and one whose absolute value is no greater, on words of 128 bits. -/
def addSmallerWide? (big small : Extended) : Option Extended :=
  if 127 ≤ big.exp - small.exp then some big
  else do
    let m ← shiftLeft? (BitVec.ofNat 128 big.mant) 62
    let raised ← shiftLeft? (BitVec.ofNat 128 small.mant) 62
    let n ← shiftRight? raised (big.exp - small.exp)
    normalizeWide? big.neg (big.exp - 125) (if big.neg = small.neg then m + n else m - n)

/-- The sum, on words of 128 bits. -/
def addWide? (a b : Extended) : Option Extended :=
  if a.isZero then some b
  else if b.isZero then some a
  else if dominates a b then addSmallerWide? a b
  else addSmallerWide? b a

/-- The difference, on words of 128 bits. -/
def subWide? (a b : Extended) : Option Extended :=
  a.addWide? b.negate

/-- The place of the topmost bit lies below the width, and so does its distance from the 64th. -/
theorem normalizeWide?_eq (neg : Bool) (e : Int) (m : BitVec 128) :
    normalizeWide? neg e m = some (normalize neg e m.toNat) := by
  rw [← normalizeWide_eq, normalizeWide?, normalizeWide]
  by_cases hz : m = 0
  · rw [if_pos hz, if_pos hz]
  rw [if_neg hz, if_neg hz]
  have hbit : m.toNat.log2 < 128 := by
    have hn : m.toNat ≠ 0 := fun h => hz (BitVec.eq_of_toNat_eq h)
    exact (Nat.log2_lt hn).mpr m.isLt
  dsimp only
  split
  case isTrue h =>
    rw [shiftRight?_of_lt (by omega) (by omega),
      show ((m.toNat.log2 : Int) - 63).toNat = m.toNat.log2 - 63 by omega]
    rfl
  case isFalse h =>
    rw [shiftLeft?_of_lt (by omega) (by omega),
      show (63 - (m.toNat.log2 : Int)).toNat = 63 - m.toNat.log2 by omega]
    rfl

theorem toNat_widened (ha : a.Canonical) : (BitVec.ofNat 128 a.mant <<< 62).toNat = a.widened := by
  have hlt : a.widened < 2 ^ 128 := (widened_lt ha).trans (by decide)
  rw [BitVec.toNat_shiftLeft, toNat_mant ha]
  exact Nat.mod_eq_of_lt hlt

theorem toNat_aligned (ha : a.Canonical) (shift : ℕ) :
    (BitVec.ofNat 128 a.mant <<< 62 >>> shift).toNat = aligned shift a := by
  rw [BitVec.toNat_ushiftRight, toNat_widened ha]
  rfl

/-- The sum of the mantissas has 127 bits at most, and the difference is not below zero. -/
theorem addSmallerWide?_eq (hbig : big.Canonical) (hsmall : small.Canonical)
    (he : small.exp ≤ big.exp) (hmag : small.magnitude ≤ big.magnitude) :
    big.addSmallerWide? small = some (big.addSmaller small) := by
  have hfits := aligned_le_widened he hmag
  have hm := toNat_widened hbig
  have hn := toNat_aligned hsmall (big.exp - small.exp).toNat
  have hlt := widened_lt hbig
  rw [addSmallerWide?, addSmaller]
  dsimp only
  by_cases hshift : 127 ≤ big.exp - small.exp
  · rw [if_pos hshift, if_pos (by omega)]
  rw [if_neg hshift, if_neg (by omega), shiftLeft?_of_lt (by decide) (by decide),
    shiftLeft?_of_lt (by decide) (by decide)]
  dsimp only [Option.bind_eq_bind, Option.bind_some]
  rw [shiftRight?_of_lt (by omega) (by omega)]
  dsimp only [Option.bind_some]
  rw [normalizeWide?_eq, show (62 : Int).toNat = 62 from rfl]
  generalize BitVec.ofNat 128 big.mant <<< 62 = m at hm ⊢
  generalize BitVec.ofNat 128 small.mant <<< 62 >>> (big.exp - small.exp).toNat = n at hn ⊢
  have hword : (2 : ℕ) * 2 ^ 126 ≤ 2 ^ 128 := by decide
  split
  case isTrue =>
    rw [BitVec.toNat_add_of_lt (by omega), hm, hn]
    rfl
  case isFalse =>
    rw [BitVec.toNat_sub_of_le (by rw [BitVec.le_def]; omega), hm, hn]
    rfl

theorem addWide?_eq (ha : a.Canonical) (hb : b.Canonical) : a.addWide? b = some (a.add b) := by
  rw [addWide?, add]
  split
  case isTrue => rfl
  case isFalse hza =>
    split
    case isTrue => rfl
    case isFalse hzb =>
      rw [ha.isZero_iff] at hza
      rw [hb.isZero_iff] at hzb
      split
      case isTrue h =>
        exact addSmallerWide?_eq ha hb (exp_le_of_dominates h)
          (magnitude_le_of_dominates ha hza hb h)
      case isFalse h =>
        have h' := (dominates_total a b).resolve_left h
        exact addSmallerWide?_eq hb ha (exp_le_of_dominates h')
          (magnitude_le_of_dominates hb hzb ha h')

theorem subWide?_eq (ha : a.Canonical) (hb : b.Canonical) : a.subWide? b = some (a.sub b) :=
  addWide?_eq ha (canonical_negate hb)

/-! ## Whole parts on words -/

/-- The integer part toward zero and whether anything was cut off, with the mantissa in a word of
64 bits. -/
def splitWord? (a : Extended) : Option (Extended × Bool) :=
  if a.isZero || 63 ≤ a.exp then some (a, false)
  else if a.exp < 0 then some (zero, true)
  else do
    let unit ← shiftLeft? 1#64 (63 - a.exp)
    let mant := BitVec.ofNat 64 a.mant
    return ({ a with mant := (mant &&& ~~~(unit - 1#64)).toNat }, mant &&& (unit - 1#64) != 0#64)

def truncWord? (a : Extended) : Option Extended :=
  a.splitWord?.map Prod.fst

def floorWord? (a : Extended) : Option Extended := do
  let (whole, cut) ← a.splitWord?
  if a.isNegative && cut then whole.subWide? one else return whole

def ceilWord? (a : Extended) : Option Extended := do
  let (whole, cut) ← a.splitWord?
  if !a.isNegative && cut then whole.addWide? one else return whole

theorem splitWord?_eq (ha : a.Canonical) : a.splitWord? = some a.split := by
  have hmant : (BitVec.ofNat 64 a.mant).toNat = a.mant := by
    have hlt : a.mant < 2 ^ 64 := ha.mant_lt
    rw [BitVec.toNat_ofNat, Nat.mod_eq_of_lt hlt]
  rw [splitWord?, split]
  split
  case isTrue => rfl
  case isFalse h =>
    rw [Bool.or_eq_true, not_or, decide_eq_true_eq] at h
    split
    case isTrue => rfl
    case isFalse hneg =>
      have hlt : (63 - a.exp).toNat < 64 := by omega
      rw [shiftLeft?_of_lt (by omega) (by omega)]
      dsimp only [Option.bind_eq_bind, Option.bind_some, Option.pure_def]
      rw [← lowMask, toNat_and_not_lowMask _ hlt, Nat.one_shiftLeft, hmant]
      have hcut : (BitVec.ofNat 64 a.mant &&& lowMask 64 (63 - a.exp).toNat != 0#64) =
          (a.mant % 2 ^ (63 - a.exp).toNat != 0) := by
        rw [Bool.eq_iff_iff, bne_iff_ne, bne_iff_ne, ← hmant, ← toNat_and_lowMask _ hlt, hmant]
        exact not_congr BitVec.toNat_eq
      rw [hcut]

theorem truncWord?_eq (ha : a.Canonical) : a.truncWord? = some a.trunc := by
  rw [truncWord?, splitWord?_eq ha]
  rfl

theorem floorWord?_eq (ha : a.Canonical) : a.floorWord? = some a.floor := by
  have hwhole := (splits_split ha).denotes.canonical
  rw [floorWord?, splitWord?_eq ha, floor]
  dsimp only [Option.bind_eq_bind, Option.bind_some]
  split
  case isTrue => exact subWide?_eq hwhole denotes_one.canonical
  case isFalse => rfl

theorem ceilWord?_eq (ha : a.Canonical) : a.ceilWord? = some a.ceil := by
  have hwhole := (splits_split ha).denotes.canonical
  rw [ceilWord?, splitWord?_eq ha, ceil]
  dsimp only [Option.bind_eq_bind, Option.bind_some]
  split
  case isTrue => exact addWide?_eq hwhole denotes_one.canonical
  case isFalse => rfl

/-! ## The three roundings -/

/-- Rounding toward zero, down and up gives the forms of the integer part, of the greatest integer
that is not above the number and of the least that is not below it.  On words, with every shift
checked, the results are the same. -/
theorem trunc_floor_ceil_exact (ha : a.Canonical) :
    (∀ r, r = a.trunc ↔ r.Denotes (wholePart a.value)) ∧
    (∀ r, r = a.floor ↔ r.Denotes ⌊a.value⌋) ∧
    (∀ r, r = a.ceil ↔ r.Denotes ⌈a.value⌉) ∧
    a.truncWord? = some a.trunc ∧ a.floorWord? = some a.floor ∧ a.ceilWord? = some a.ceil :=
  ⟨fun _ => (denotes_trunc ha).eq_iff, fun _ => (denotes_floor ha).eq_iff,
    fun _ => (denotes_ceil ha).eq_iff, truncWord?_eq ha, floorWord?_eq ha, ceilWord?_eq ha⟩

/-- Half a unit above `-2 ^ 63`, where rounding down carries into the next exponent. -/
theorem floor_carries :
    floor ⟨true, 62, 2 * top - 1⟩ = ⟨true, 63, top⟩ ∧
      ∀ r, r = floor ⟨true, 62, 2 * top - 1⟩ ↔ r.Denotes ⌊value ⟨true, 62, 2 * top - 1⟩⌋ :=
  ⟨by decide, (trunc_floor_ceil_exact (by decide)).2.1⟩

end Extended
end FractalFormula
