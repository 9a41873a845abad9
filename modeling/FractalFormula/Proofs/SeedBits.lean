/-
The integers that numbers seed with.

A double and a number in extended precision seed with the whole part of the 65536th multiple of what
they stand for, unless that is next to nothing or far out (`Moderate`).  A number in fixed point
seeds with its word, whatever the place of the point.  So a number seeds all formats alike if and
only if there are 16 bits behind the point or it is zero (`Fixed.seeds_alike_iff`).
-/
import FractalFormula.Proofs.Rounding
import FractalFormula.Proofs.Scaled
import FractalFormula.Proofs.Seeding

namespace FractalFormula

/-- The rational is zero, or doubles have room for it and for its multiples. -/
def Moderate (q : ℚ) : Prop :=
  q = 0 ∨ 2 ^ (-900 : ℤ) ≤ |q| ∧ |q| < 2 ^ (36 : ℤ)

theorem Moderate.abs_lt {q : ℚ} (h : Moderate q) : |q| < 2 ^ (36 : ℤ) := by
  rcases h with rfl | ⟨-, h⟩
  · norm_num
  · exact h

theorem Moderate.eq_zero {q : ℚ} (h : Moderate q) (hlt : |q| < 2 ^ (-900 : ℤ)) : q = 0 := by
  rcases h with h | ⟨hle, -⟩
  · exact h
  · exact absurd hlt hle.not_gt

/-! ## Doubles -/

namespace Double

variable {x : Float} {neg : Bool} {m : ℕ} {e : ℤ} {bits : UInt64}

theorem full_65536 : Full 65536 false (2 ^ 52) (-36) := by
  have hpower : (65536 : Float) = powerOfTwo 16 := by decide +kernel
  rw [hpower]
  exact full_powerOfTwo (by decide) (by decide)

theorem signed_scaled (neg : Bool) (m : ℕ) (e : ℤ) :
    Extended.signed neg (m * 2 ^ (e + 16)) = 65536 * Extended.signed neg (m * 2 ^ e) := by
  have hpow : (2 : ℚ) ^ (e + 16) = 65536 * 2 ^ e := by
    rw [zpow_add₀ two_ne_zero, mul_comm]
    norm_num
  rw [hpow]
  cases neg <;> simp only [Extended.signed, Bool.false_eq_true, if_true, if_false] <;> ring

theorem Full.toInt_seedBits (h : Full x neg m e) (he : e ≤ -6) :
    (Scalar.seedBits x).toInt = wholePart (65536 * Extended.signed neg (m * 2 ^ e)) := by
  have hleast := h.least
  have hscaled := h.mul full_65536 (by omega) (by omega)
  rw [Bool.bne_false, show e + -36 + 52 = e + 16 by ring] at hscaled
  rw [← signed_scaled]
  exact hscaled.toInt_toInt64 (by omega)

/-- Both zeros seed with zero. -/
theorem toInt_seedBits_zero (hexponent : exponentBits bits = 0)
    (hfraction : fractionBits bits = 0) : (Scalar.seedBits (Float.ofBits bits)).toInt = 0 := by
  have hlt := bits.toNat_lt
  rw [exponentBits] at hexponent
  rw [fractionBits] at hfraction
  have hbits : bits = 0 ∨ bits = 0x8000000000000000 := by
    rw [← UInt64.toNat_inj, ← UInt64.toNat_inj]
    show bits.toNat = 0 ∨ bits.toNat = 0x8000000000000000
    omega
  rcases hbits with rfl | rfl
  · decide +kernel
  · decide +kernel

theorem value_zero : value 0 = 0 := by
  have hsign : signBit 0 = false := by decide
  have hexponent : exponentBits 0 = 0 := by decide
  have hfraction : fractionBits 0 = 0 := by decide
  rw [value, magnitude, hsign, hexponent, hfraction]
  norm_num

/-- Doubles with the least exponent are next to nothing. -/
theorem abs_value_lt (hexponent : exponentBits bits = 0) : |value bits| < 2 ^ (-900 : ℤ) := by
  have hfraction : (fractionBits bits : ℚ) < 2 ^ 52 := by
    exact_mod_cast Nat.mod_lt _ (Nat.two_pow_pos 52)
  have hnonneg : (0 : ℚ) ≤ fractionBits bits := Nat.cast_nonneg _
  have habs : |value bits| = fractionBits bits / 2 ^ 52 * 2 ^ (-1022 : ℤ) := by
    have hsigned : value bits = Extended.signed (signBit bits) (magnitude bits) := rfl
    rw [hsigned, Extended.abs_signed, magnitude, if_pos hexponent, abs_of_nonneg (by positivity)]
  have hone : (fractionBits bits : ℚ) / 2 ^ 52 < 1 := (div_lt_one (by positivity)).mpr hfraction
  rw [habs]
  calc (fractionBits bits : ℚ) / 2 ^ 52 * 2 ^ (-1022 : ℤ)
      < 1 * 2 ^ (-1022 : ℤ) := mul_lt_mul_of_pos_right hone (by positivity)
    _ ≤ 2 ^ (-900 : ℤ) := by rw [one_mul]; exact zpow_le_zpow_right₀ one_le_two (by decide)

theorem fractionBits_eq_zero (hexponent : exponentBits bits = 0) (hvalue : value bits = 0) :
    fractionBits bits = 0 := by
  have hmagnitude : magnitude bits = 0 := by
    rw [value] at hvalue
    split at hvalue
    · exact neg_eq_zero.mp hvalue
    · exact hvalue
  rw [magnitude, if_pos hexponent] at hmagnitude
  simpa using hmagnitude

theorem toInt_seedBits (h : IsFinite bits) (hq : Moderate (value bits)) :
    (Scalar.seedBits (Float.ofBits bits)).toInt = wholePart (65536 * value bits) := by
  by_cases hne : exponentBits bits = 0
  · have hvalue := hq.eq_zero (abs_value_lt hne)
    rw [toInt_seedBits_zero hne (fractionBits_eq_zero hne hvalue), hvalue, mul_zero]
    simp [wholePart]
  · have hfull := full_ofBits h hne
    have hlt := hq.abs_lt
    have hlow : (2 : ℚ) ^ 52 ≤ (2 ^ 52 + fractionBits bits : ℕ) := by exact_mod_cast hfull.low
    rw [value_ofBits h hne] at hlt ⊢
    rw [Extended.abs_signed, abs_of_nonneg (by positivity)] at hlt
    refine hfull.toInt_seedBits ?_
    generalize (exponentBits bits : ℤ) - 1075 = e at hlt ⊢
    have hpow : (2 : ℚ) ^ (52 + e) < 2 ^ (36 : ℤ) := by
      rw [zpow_add₀ two_ne_zero]
      exact (mul_le_mul_of_nonneg_right hlow (by positivity)).trans_lt hlt
    have hexp := (zpow_lt_zpow_iff_right₀ one_lt_two).mp hpow
    omega

end Double

/-! ## Extended precision -/

namespace Extended

variable {a : Extended} {m : ℕ} {e : ℤ}

/-- A number with room for all its bits becomes the double that has the first 53 of them. -/
theorem full_toFloat (ha : top ≤ a.mant ∧ a.mant < 2 * top) (hleast : -948 ≤ a.exp)
    (hgreatest : a.exp ≤ 1023) : Double.Full a.toFloat a.neg (a.mant >>> 11) (a.exp - 52) := by
  obtain ⟨htop, hmant⟩ := ha
  have hpositive : a.mant ≠ 0 := fun h => absurd htop (by rw [h]; decide)
  unfold top at htop hmant
  have hlow : 2 ^ 52 ≤ a.mant >>> 11 := by
    rw [Nat.shiftRight_eq_div_pow]
    omega
  have hhigh : a.mant >>> 11 < 2 ^ 53 := by
    rw [Nat.shiftRight_eq_div_pow]
    omega
  have hpower := Double.full_powerOfTwo (k := a.exp - 52) (by omega) (by omega)
  have hsize := (Double.full_ofNat hlow hhigh).mul hpower (by omega) (by omega)
  have hsign : Double.Full (if a.neg then -1 else 1) a.neg (2 ^ 52) (-52) := by
    cases a.neg
    case false =>
      have hone : (1 : Float) = Double.powerOfTwo 0 := by decide +kernel
      rw [if_neg Bool.false_ne_true, hone]
      exact Double.full_powerOfTwo (by decide) (by decide)
    case true =>
      have hone : (-1 : Float) = Float.ofBits 0xBFF0000000000000 := by decide +kernel
      rw [if_pos rfl, hone]
      exact Double.full_ofBits (by decide) (by decide)
  have hfull := hsign.mul_of_eq hsize (mul_comm _ _) hlow hhigh (by omega) (by omega)
  have hexp : -52 + (0 + (a.exp - 52 - 52) + 52) + 52 = a.exp - 52 := by ring
  rw [Bool.bne_false, Bool.bne_false, hexp] at hfull
  rw [toFloat, if_neg hpositive]
  dsimp only
  rw [if_neg (by omega), if_neg (by omega), if_neg (by omega)]
  exact hfull

/-- Where the last bits of a mantissa stand behind the point, they may be missing. -/
theorem floor_cut (m : ℕ) (he : e ≤ 0) :
    ⌊((m >>> 11 : ℕ) * 2 ^ e : ℚ)⌋₊ = ⌊(m * 2 ^ (e - 11) : ℚ)⌋₊ := by
  obtain ⟨k, hk⟩ := Int.eq_ofNat_of_zero_le (show 0 ≤ -e by omega)
  obtain rfl : e = -(k : ℤ) := by omega
  rw [Double.floor_mul_two_zpow_neg, show -(k : ℤ) - 11 = -((11 + k : ℕ) : ℤ) by push_cast; ring,
    Double.floor_mul_two_zpow_neg, Nat.shiftRight_eq_div_pow, Nat.div_div_eq_div_mul, ← pow_add]

theorem toInt_seedBits (ha : a.Canonical) (hq : Moderate a.value) :
    (Scalar.seedBits a).toInt = wholePart (65536 * a.value) := by
  by_cases hzero : a = zero
  · have hseed : (Scalar.seedBits zero).toInt = 0 := by decide +kernel
    rw [hzero, hseed, value_zero, mul_zero]
    simp [wholePart]
  have hlt := hq.abs_lt
  have hleast : -900 < a.exp + 1 := by
    have hle := (hq.resolve_left fun h => hzero (ha.value_eq_zero_iff.mp h)).1
    rw [abs_value] at hle
    exact (zpow_lt_zpow_iff_right₀ one_lt_two).mp (hle.trans_lt (magnitude_lt_two_zpow ha))
  have hgreatest : a.exp < 36 := by
    rw [abs_value] at hlt
    exact (zpow_lt_zpow_iff_right₀ one_lt_two).mp ((two_zpow_le_magnitude ha hzero).trans_lt hlt)
  have hfull := full_toFloat (ha.resolve_left hzero) (by omega) (by omega)
  have hseed : Scalar.seedBits a = Scalar.seedBits a.toFloat := rfl
  have hexact : 65536 * a.value = signed a.neg (a.mant * 2 ^ (a.exp - 36 - 11)) := by
    rw [value, magnitude, ulp, ← Double.signed_scaled]
    congr 3
    ring
  rw [hseed, hfull.toInt_seedBits (by omega), hexact, ← Double.signed_scaled,
    show a.exp - 52 + 16 = a.exp - 36 by ring, Double.wholePart_signed_eq _ (by positivity),
    Double.wholePart_signed_eq _ (by positivity), floor_cut _ (by omega)]

end Extended

/-! ## Fixed point -/

namespace Fixed

variable {s : Scale} {a : Fixed s}

theorem moderate_value (a : Fixed s) : Moderate a.value := by
  have hlow := s.low
  have hhigh := s.high
  have hspan : (s.span : ℚ) < 2 ^ (36 : ℤ) := by
    rw [Scale.span, Int.cast_pow, Int.cast_two, ← zpow_natCast]
    exact zpow_lt_zpow_right₀ one_lt_two (by omega)
  by_cases hzero : a.raw.toInt = 0
  · left
    rw [value, hzero, Int.cast_zero, zero_div]
  · refine Or.inr ⟨?_, abs_lt.mpr ⟨?_, a.value_lt_span.trans hspan⟩⟩
    · have hraw : (1 : ℚ) ≤ |(a.raw.toInt : ℚ)| := by exact_mod_cast Int.one_le_abs hzero
      have hunit : (0 : ℚ) < 2 ^ s.shift := by positivity
      have hleast : (2 : ℚ) ^ (-900 : ℤ) ≤ 2 ^ (-(s.shift : ℤ)) :=
        zpow_le_zpow_right₀ one_le_two (by omega)
      rw [zpow_neg (2 : ℚ) s.shift, zpow_natCast, ← one_div] at hleast
      rw [value, abs_div, abs_of_pos hunit]
      exact hleast.trans (div_le_div_of_nonneg_right hraw hunit.le)
    · linarith [a.neg_span_le_value]

theorem toInt_seedBits (a : Fixed s) : (Scalar.seedBits a).toInt = a.raw.toInt :=
  Int32.toInt_toInt64 a.raw

/-- The word is the whole part of the 65536th multiple only if that has the same point. -/
theorem raw_eq_wholePart_iff (a : Fixed s) :
    a.raw.toInt = wholePart (65536 * a.value) ↔ s.shift = 16 ∨ a.raw = 0 := by
  have hzero : a.raw = 0 ↔ a.raw.toInt = 0 := by
    rw [← Int32.toInt_inj]
    rfl
  have hquotient : wholePart (65536 * a.value) = (2 ^ 16 * a.raw.toInt).tdiv (2 ^ s.shift) := by
    rw [← wholePart_div, value]
    congr 1
    push_cast
    ring
  rw [hquotient, hzero]
  generalize a.raw.toInt = n
  rcases lt_trichotomy s.shift 16 with h | h | h
  · -- The multiple of the word is at least twice the word.
    obtain ⟨k, hk⟩ : ∃ k, 16 = s.shift + (k + 1) := ⟨15 - s.shift, by omega⟩
    have hunit : (2 : ℤ) ^ 16 * n = 2 ^ s.shift * (2 ^ (k + 1) * n) := by
      rw [hk, pow_add, mul_assoc]
    have hfactor : (2 : ℤ) ^ (k + 1) ≠ 1 := (one_lt_pow₀ one_lt_two (Nat.succ_ne_zero k)).ne'
    rw [hunit, Int.mul_tdiv_cancel_left _ (by positivity), eq_comm, mul_left_eq_self₀]
    exact or_congr_left (iff_of_false hfactor h.ne)
  · simp [h, Int.mul_tdiv_cancel_left]
  · -- The quotient of the word is at most one half of the word.
    obtain ⟨k, hk⟩ : ∃ k, s.shift = 16 + (k + 1) := ⟨s.shift - 17, by omega⟩
    rw [or_iff_right h.ne', hk, pow_add, Int.mul_tdiv_mul_of_pos _ _ (by positivity)]
    constructor
    case mp =>
      intro hn
      by_contra hne
      have hsize := congrArg Int.natAbs hn
      rw [Int.natAbs_tdiv, Int.natAbs_pow] at hsize
      have hlt : n.natAbs / 2 ^ (k + 1) < n.natAbs :=
        Nat.div_lt_self (Int.natAbs_pos.mpr hne) (Nat.one_lt_two_pow (Nat.succ_ne_zero k))
      exact hlt.ne' hsize
    case mpr =>
      rintro rfl
      rw [Int.zero_tdiv]

/-- A number is a sign, a whole number and a power of two. -/
theorem value_eq_signed (a : Fixed s) :
    a.value = Extended.signed (a.raw.toInt < 0) (a.raw.toInt.natAbs * 2 ^ (-(s.shift : ℤ))) := by
  rw [value, zpow_neg, zpow_natCast, ← div_eq_mul_inv, Nat.cast_natAbs, Int.cast_abs,
    Extended.signed]
  simp only [decide_eq_true_eq]
  split
  case isTrue h => rw [abs_of_neg (by exact_mod_cast h), neg_div, neg_neg]
  case isFalse h => rw [abs_of_nonneg (by exact_mod_cast not_lt.mp h)]

/-- In doubles and in extended precision there is the same number, and it seeds with `n`. -/
structure SeedsElsewhere (a : Fixed s) (n : ℤ) : Prop where
  exists_double : ∃ bits, Double.IsFinite bits ∧ Double.value bits = a.value
  double : ∀ bits, Double.IsFinite bits → Double.value bits = a.value →
    (Scalar.seedBits (Float.ofBits bits)).toInt = n
  exists_extended : ∃ b : Extended, b.Denotes a.value
  extended : ∀ b : Extended, b.Denotes a.value → (Scalar.seedBits b).toInt = n

theorem seedsElsewhere (a : Fixed s) : a.SeedsElsewhere (wholePart (65536 * a.value)) where
  exists_double := by
    have hlow := s.low
    have hhigh := s.high
    have hsize := natAbs_toInt_le a.raw
    by_cases hzero : a.raw.toInt = 0
    · refine ⟨0, by decide, ?_⟩
      rw [Double.value_zero, value, hzero, Int.cast_zero, zero_div]
    · rw [value_eq_signed]
      exact Double.exists_value_eq _ (Int.natAbs_pos.mpr hzero) (by omega) (by omega) (by omega)
  double bits h hvalue := by
    have hq := a.moderate_value
    rw [← hvalue] at hq ⊢
    exact Double.toInt_seedBits h hq
  exists_extended := by
    rw [value_eq_signed]
    exact ⟨_, Extended.denotes_normalize _ _ ((natAbs_toInt_le a.raw).trans_lt (by decide))⟩
  extended b hb := by
    have hq := a.moderate_value
    rw [← hb.value] at hq ⊢
    exact Extended.toInt_seedBits hb.canonical hq

/-- A number in fixed point seeds with its word.  The other formats have the same number, and there
it seeds with the whole part of its 65536th multiple.  That is the word if and only if there are 16
bits behind the point or the number is zero.  With 16 bits all formats give a sequence the same
seed. -/
theorem seeds_alike_iff (a : Fixed s) :
    (Scalar.seedBits a).toInt = a.raw.toInt ∧ a.SeedsElsewhere (wholePart (65536 * a.value)) ∧
      ((Scalar.seedBits a).toInt = wholePart (65536 * a.value) ↔ s.shift = 16 ∨ a.raw = 0) ∧
      (s.shift = 16 → ∀ (b : Fixed s) (r : RandomState),
        (∀ x y, Double.IsFinite x → Double.IsFinite y → Double.value x = a.value →
          Double.value y = b.value →
            r.seed (Scalar.seedBits (Float.ofBits x)) (Scalar.seedBits (Float.ofBits y)) =
              r.seed (Scalar.seedBits a) (Scalar.seedBits b)) ∧
          ∀ x y : Extended, x.Denotes a.value → y.Denotes b.value →
            r.seed (Scalar.seedBits x) (Scalar.seedBits y) =
              r.seed (Scalar.seedBits a) (Scalar.seedBits b)) := by
  have hword := a.toInt_seedBits
  refine ⟨hword, a.seedsElsewhere, by rw [hword]; exact a.raw_eq_wholePart_iff, fun hs b r => ?_⟩
  have same (c : Fixed s) : c.SeedsElsewhere (Scalar.seedBits c).toInt := by
    rw [c.toInt_seedBits, c.raw_eq_wholePart_iff.mpr (Or.inl hs)]
    exact c.seedsElsewhere
  refine ⟨fun x y hx hy hxa hyb => ?_, fun x y hxa hyb => ?_⟩
  · rw [Int64.toInt_inj.mp ((same a).double x hx hxa),
      Int64.toInt_inj.mp ((same b).double y hy hyb)]
  · rw [Int64.toInt_inj.mp ((same a).extended x hxa),
      Int64.toInt_inj.mp ((same b).extended y hyb)]

end Fixed

/-- With 16 bits behind the point `3/2` seeds with `98304` in all formats. -/
theorem seeds_alike_sixteen :
    let s : Scale := ⟨16, by decide, by decide⟩
    let a : Fixed s := ⟨98304⟩
    let x : UInt64 := 0x3FF8000000000000
    let b : Extended := ⟨false, 0, 0xC000000000000000⟩
    (s.shift = 16 ∧ Double.IsFinite x ∧ Double.value x = a.value ∧ b.Denotes a.value) ∧
      (Scalar.seedBits a).toInt = 98304 ∧ (Scalar.seedBits (Float.ofBits x)).toInt = 98304 ∧
        (Scalar.seedBits b).toInt = 98304 ∧
          RandomState.initial.seed (Scalar.seedBits b) (Scalar.seedBits b) =
            RandomState.initial.seed (Scalar.seedBits a) (Scalar.seedBits a) := by
  intro s a x b
  have hraw : a.raw.toInt = 98304 := by decide
  have hvalue : a.value = 3 / 2 := by
    rw [Fixed.value, hraw]
    norm_num [s]
  have hx : Double.value x = a.value := by
    have hsign : Double.signBit x = false := by decide
    have hexponent : Double.exponentBits x = 1023 := by decide
    have hfraction : Double.fractionBits x = 2 ^ 51 := by decide
    rw [hvalue, Double.value, Double.magnitude, hsign, hexponent, hfraction]
    norm_num
  have hb : b.Denotes a.value := by
    refine ⟨by decide, ?_⟩
    rw [hvalue]
    norm_num [b, Extended.value, Extended.magnitude, Extended.ulp, Extended.signed]
  obtain ⟨hword, helse, hiff, hseed⟩ := a.seeds_alike_iff
  have hwhole := (hiff.mpr (Or.inl rfl)).symm.trans hword
  rw [hwhole, hraw] at helse
  exact ⟨⟨rfl, by decide, hx, hb⟩, hword.trans hraw, helse.double x (by decide) hx,
    helse.extended b hb, (hseed rfl a .initial).2 b b hb hb⟩

/-- With eight bits behind the point `1` seeds with `256`, and in the other formats with `65536`.
So a pixel that seeds the sequence draws other numbers in fixed point than it does in doubles. -/
theorem exists_seeds_apart :
    let s : Scale := ⟨8, by decide, by decide⟩
    let a : Fixed s := ⟨256⟩
    a.value = 1 ∧ (Scalar.seedBits a).toInt = 256 ∧ wholePart (65536 * a.value) = 65536 ∧
      (Scalar.seedBits (1 : Float)).toInt = 65536 ∧ (Scalar.seedBits Extended.one).toInt = 65536 ∧
      ∃ f g, (Formula.load RandomState.rolling 0 { mode := .fixed, shift := 8 }).result = .ok f ∧
        (Formula.load RandomState.rolling 0 {}).result = .ok g ∧
          (∃ scale m, f.after [.pixel { coord := ⟨1, 2⟩ }] = .fixed scale m ∧ scale.shift = 8 ∧
            m.state.overflow = false ∧ m.z.x.raw.toInt = 233) ∧
          Double.integerPart ((g.after [.pixel { coord := ⟨1, 2⟩ }]).z.toFloat.x * 256) = 153 := by
  intro s a
  have hraw : a.raw.toInt = 256 := by decide
  have hvalue : a.value = 1 := by
    rw [Fixed.value, hraw]
    norm_num [s]
  have hwhole : wholePart (65536 * a.value) = 65536 := by
    rw [hvalue]
    norm_num [wholePart]
  refine ⟨hvalue, a.toInt_seedBits.trans hraw, hwhole, by decide +kernel, by decide +kernel, ?_⟩
  have hbound : ({} : Settings).bindings.unbindable? = none := rfl
  have hheader : Header.read RandomState.rolling 0 = .ok ⟨"t", .none, none, 3⟩ := rfl
  have hstream : Token.stream (Cursor.seek RandomState.rolling 3) =
      Token.firstTokens 40 (Cursor.seek RandomState.rolling 3) :=
    Token.stream_eq_firstTokens (by decide +kernel)
  have hfixed : ∃ f, (Formula.load RandomState.rolling 0 { mode := .fixed, shift := 8 }).result =
      .ok f ∧ (f.after [.pixel { coord := ⟨1, 2⟩ }]).word? = some (8, false, 233) := by
    refine Formula.exists_loaded ?_
    rw [Formula.load, hbound, hheader]
    dsimp only
    rw [check, Formula.build, Token.body, hstream]
    decide +kernel
  have hdouble : ∃ g, (Formula.load RandomState.rolling 0 {}).result = .ok g ∧
      Double.integerPart ((g.after [.pixel { coord := ⟨1, 2⟩ }]).z.toFloat.x * 256) = 153 := by
    refine Formula.exists_loaded ?_
    rw [Formula.load, hbound, hheader]
    dsimp only
    rw [check, Formula.build, Token.body, hstream]
    decide +kernel
  obtain ⟨f, hf, hword⟩ := hfixed
  obtain ⟨g, hg, hpart⟩ := hdouble
  exact ⟨f, g, hf, hg, Engine.exists_of_word hword, hpart⟩

end FractalFormula
