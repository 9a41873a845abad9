/-
Rounding in fixed point.

A word stands for a rational (`Fixed.value`), and the words reach from `-span` up to, but not
including, `span`.  Rounding gives the word of the integer that it should come to, whether or not
there is one: integers are multiples of the unit, and the unit divides `2 ^ 32`, so that nothing is
lost when words wrap around before they are rounded (`floor_ofInt`).  Downward and toward zero there
always is one.  Upward and to the nearest it can be `span`, which has none, and what comes out then
is the least number (`rounds_near_iff`).
-/
import FractalFormula.Proofs.Cursor
import FractalFormula.Proofs.Rescaling

namespace FractalFormula

namespace Scale

/-- The least integer above all numbers. -/
def span (s : Scale) : ℤ :=
  2 ^ (31 - s.shift)

theorem span_mul (s : Scale) : s.span * 2 ^ s.shift = 2 ^ 31 := by
  have hhigh := s.high
  rw [span, ← pow_add]
  congr 1
  omega

theorem one_le_span (s : Scale) : 1 ≤ s.span :=
  Int.add_one_le_of_lt (pow_pos two_pos _)

end Scale

namespace Fixed

variable {s : Scale} {a : Fixed s} {n : ℤ}

/-- The number that a word stands for. -/
def value (a : Fixed s) : ℚ :=
  a.raw.toInt / 2 ^ s.shift

/-- The word of an integer, which wraps around if there is none. -/
def ofInteger (n : ℤ) : Fixed s :=
  ⟨Int32.ofInt (n * 2 ^ s.shift)⟩

/-! ## Integers and words -/

theorem neg_span_le_value (a : Fixed s) : -s.span ≤ a.value := by
  have hlow : ((-2 ^ 31 : ℤ) : ℚ) ≤ a.raw.toInt := by exact_mod_cast a.raw.le_toInt
  rw [value, le_div_iff₀ (by positivity)]
  rw [← s.span_mul] at hlow
  push_cast at hlow
  linarith

theorem value_lt_span (a : Fixed s) : a.value < s.span := by
  have hhigh : (a.raw.toInt : ℚ) < (2 ^ 31 : ℤ) := by exact_mod_cast a.raw.toInt_lt
  rw [value, div_lt_iff₀ (by positivity)]
  rw [← s.span_mul] at hhigh
  push_cast at hhigh
  exact hhigh

theorem value_of_toInt (h : a.raw.toInt = n * 2 ^ s.shift) : a.value = n := by
  rw [value, h]
  push_cast
  rw [mul_div_cancel_right₀ _ (by positivity)]

/-- An integer within the bounds is the value of its word. -/
theorem value_ofInteger (hlow : -s.span ≤ n) (hhigh : n < s.span) :
    (ofInteger n : Fixed s).value = n := by
  have hunit : (0 : ℤ) < 2 ^ s.shift := by positivity
  have hlow' := Int.mul_le_mul_of_nonneg_right hlow hunit.le
  have hhigh' := Int.mul_lt_mul_of_pos_right hhigh hunit
  rw [neg_mul, s.span_mul] at hlow'
  rw [s.span_mul] at hhigh'
  exact value_of_toInt (Int32.toInt_ofInt_of_le hlow' hhigh')

/-- The first integer out of bounds wraps around to the least number. -/
theorem value_ofInteger_span (s : Scale) : (ofInteger s.span : Fixed s).value = -s.span := by
  have hleast : (ofInteger s.span : Fixed s).raw.toInt = -s.span * 2 ^ s.shift := by
    rw [ofInteger, neg_mul, s.span_mul]
    rfl
  have hvalue := value_of_toInt hleast
  push_cast at hvalue
  exact hvalue

theorem ofInt_wrap (n k : ℤ) : Int32.ofInt (n + k * 2 ^ 32) = Int32.ofInt n := by
  apply Int32.toInt_inj.mp
  rw [Int32.toInt_ofInt, Int32.toInt_ofInt]
  exact Int.add_mul_bmod_self_right n k (2 ^ 32)

theorem exists_toInt_ofInt (n : ℤ) : ∃ k, (Int32.ofInt n).toInt = n + k * 2 ^ 32 := by
  refine ⟨-n.bdiv (2 ^ 32), ?_⟩
  rw [Int32.toInt_ofInt, neg_mul, ← sub_eq_add_neg, mul_comm]
  exact eq_sub_of_add_eq' (Int.bdiv_add_bmod n (2 ^ 32))

/-! ## Rounding words -/

/-- A word that has wrapped around is rounded down as it would be had it not. -/
theorem floor_ofInt (n : ℤ) :
    floor (⟨Int32.ofInt n⟩ : Fixed s) = ofInteger (n / 2 ^ s.shift) := by
  have hhigh := s.high
  have hunit : (2 ^ s.shift : ℤ) ≠ 0 := by positivity
  obtain ⟨k, hk⟩ := exists_toInt_ofInt n
  have hturn : k * 2 ^ 32 = k * 2 ^ (32 - s.shift) * 2 ^ s.shift := by
    rw [mul_assoc, ← pow_add, Nat.sub_add_cancel (by omega)]
  rw [floor, cast_unit, Int.fdiv_eq_ediv_of_nonneg _ (by positivity), hk, hturn,
    Int.add_mul_ediv_right _ _ hunit, add_mul, ← hturn, ofInt_wrap, ofInteger]

theorem neg_ofInteger (n : ℤ) : (ofInteger n : Fixed s).neg = ofInteger (-n) := by
  rw [neg, ofInteger, ofInteger, neg_mul, Int32.ofInt_neg]

theorem floor_eq (a : Fixed s) : a.floor = ofInteger ⌊a.value⌋ := by
  have hvalue := Rat.floor_intCast_div_natCast a.raw.toInt (2 ^ s.shift)
  push_cast at hvalue
  rw [value, hvalue, ← floor_ofInt, Int32.ofInt_toInt]

theorem ceil_eq (a : Fixed s) : a.ceil = ofInteger ⌈a.value⌉ := by
  have hvalue := Rat.ceil_intCast_div_natCast a.raw.toInt (2 ^ s.shift)
  push_cast at hvalue
  rw [value, hvalue, ← neg_ofInteger, ← floor_ofInt, Int32.ofInt_neg, Int32.ofInt_toInt]
  rfl

theorem trunc_eq (a : Fixed s) : a.trunc = ofInteger (wholePart a.value) := by
  have hsign : a.raw < 0 ↔ a.value < 0 := by
    rw [value, div_lt_iff₀ (by positivity), zero_mul, Int32.lt_iff_toInt_lt]
    norm_cast
  rw [trunc, wholePart]
  simp only [hsign]
  split
  · exact a.ceil_eq
  · exact a.floor_eq

theorem round_eq (a : Fixed s) : a.round = ofInteger ⌊a.value + 1 / 2⌋ := by
  have hlow := s.low
  have hhalf : (2 : ℤ) ^ s.shift = 2 * 2 ^ (s.shift - 1) := by
    rw [← pow_succ']
    congr 1
    omega
  have hunit : ((s.unit / 2 : ℕ) : ℤ) = 2 ^ (s.shift - 1) := by
    rw [Int.natCast_div, cast_unit, hhalf]
    exact Int.mul_ediv_cancel_left _ two_ne_zero
  have hword : a.raw + Int32.ofNat (s.unit / 2) =
      Int32.ofInt (a.raw.toInt + 2 ^ (s.shift - 1)) := by
    rw [Int32.ofInt_add, Int32.ofInt_toInt, ← hunit]
    rfl
  have hvalue : a.value + 1 / 2 =
      ((a.raw.toInt + 2 ^ (s.shift - 1) : ℤ) : ℚ) / (2 ^ s.shift : ℕ) := by
    have hhalf' : (2 : ℚ) ^ s.shift = 2 * 2 ^ (s.shift - 1) := by exact_mod_cast hhalf
    rw [value]
    push_cast
    rw [add_div, hhalf', mul_comm (2 : ℚ), div_mul_eq_div_div_swap (2 ^ (s.shift - 1) : ℚ)]
    field_simp
  rw [round, hword, floor_ofInt, hvalue, Rat.floor_intCast_div_natCast]
  push_cast
  rfl

/-! ## What comes out -/

theorem value_floor (a : Fixed s) : a.floor.value = ⌊a.value⌋ := by
  rw [floor_eq]
  exact value_ofInteger (Int.le_floor.mpr (by exact_mod_cast a.neg_span_le_value))
    (Int.floor_lt.mpr a.value_lt_span)

theorem neg_span_le_ceil (a : Fixed s) : -s.span ≤ ⌈a.value⌉ := by
  have hle := a.neg_span_le_value.trans (Int.le_ceil _)
  exact_mod_cast hle

/-- Below zero there is an integer above every number. -/
theorem value_trunc (a : Fixed s) : a.trunc.value = wholePart a.value := by
  rw [trunc_eq]
  rcases lt_or_ge a.value 0 with h | h
  · rw [wholePart_of_neg h]
    have hspan := s.one_le_span
    have hceil : ⌈a.value⌉ ≤ 0 := Int.ceil_le.mpr (by exact_mod_cast h.le)
    exact value_ofInteger a.neg_span_le_ceil (by omega)
  · rw [wholePart_of_nonneg h, ← floor_eq, value_floor]

/-- An integer that comes out of a number is one of the bounds or lies between them. -/
theorem value_ofInteger_of_le (hlow : -s.span ≤ n) (hhigh : n ≤ s.span) :
    (ofInteger n : Fixed s).value = if n < s.span then (n : ℚ) else -s.span := by
  split
  case isTrue h => exact value_ofInteger hlow h
  case isFalse h =>
    obtain rfl : n = s.span := by omega
    exact value_ofInteger_span s

theorem value_ceil (a : Fixed s) :
    a.ceil.value = if a.value ≤ s.span - 1 then (⌈a.value⌉ : ℚ) else -s.span := by
  have hfits : ⌈a.value⌉ < s.span ↔ a.value ≤ s.span - 1 := by
    rw [← Int.le_sub_one_iff, Int.ceil_le]
    push_cast
    rfl
  rw [ceil_eq, value_ofInteger_of_le a.neg_span_le_ceil (Int.ceil_le.mpr a.value_lt_span.le)]
  simp only [hfits]

theorem value_round (a : Fixed s) :
    a.round.value = if a.value < s.span - 1 / 2 then (⌊a.value + 1 / 2⌋ : ℚ) else -s.span := by
  have hlow := a.neg_span_le_value
  have hhigh := a.value_lt_span
  have hfits : ⌊a.value + 1 / 2⌋ < s.span ↔ a.value < s.span - 1 / 2 := by
    rw [Int.floor_lt, lt_sub_iff_add_lt]
  have hle : ⌊a.value + 1 / 2⌋ < s.span + 1 := by
    rw [Int.floor_lt]
    push_cast
    linarith
  rw [round_eq, value_ofInteger_of_le _ (Int.lt_add_one_iff.mp hle)]
  · simp only [hfits]
  · rw [Int.le_floor]
    push_cast
    linarith

/-! ## Numbers that stay where they are -/

/-- The number has nothing behind its binary point. -/
def IsWhole (a : Fixed s) : Prop :=
  ∃ n : ℤ, a.value = n

/-- All that a number is rounded to is whole and less than one away from it, on the right side. -/
structure RoundsNear (a : Fixed s) : Prop where
  whole : ∀ b ∈ [a.floor, a.ceil, a.trunc, a.round], b.IsWhole
  near : ∀ b ∈ [a.floor, a.ceil, a.trunc, a.round], |b.value - a.value| < 1
  floor_le : a.floor.value ≤ a.value
  le_ceil : a.value ≤ a.ceil.value
  trunc_of_nonneg : 0 ≤ a.value → a.trunc = a.floor
  trunc_of_neg : a.value < 0 → a.trunc = a.ceil
  round_near : |a.round.value - a.value| ≤ 1 / 2

theorem abs_floor_sub_lt (q : ℚ) : |⌊q⌋ - q| < 1 := by
  rw [abs_sub_lt_iff]
  constructor <;> linarith [Int.floor_le q, Int.lt_floor_add_one q]

theorem abs_ceil_sub_lt (q : ℚ) : |⌈q⌉ - q| < 1 := by
  rw [abs_sub_lt_iff]
  constructor <;> linarith [Int.le_ceil q, Int.ceil_lt_add_one q]

theorem abs_floor_add_half_sub_le (q : ℚ) : |⌊q + 1 / 2⌋ - q| ≤ 1 / 2 := by
  rw [abs_sub_le_iff]
  constructor <;> linarith [Int.floor_le (q + 1 / 2), Int.lt_floor_add_one (q + 1 / 2)]

theorem abs_wholePart_sub_lt (q : ℚ) : |wholePart q - q| < 1 := by
  rw [wholePart]
  split
  · exact abs_ceil_sub_lt q
  · exact abs_floor_sub_lt q

theorem roundsNear_of_le (h : a.value ≤ s.span - 1) : a.RoundsNear := by
  have hceil := a.value_ceil
  rw [if_pos h] at hceil
  have hround := a.value_round
  rw [if_pos (by linarith)] at hround
  have htrunc := a.trunc_eq
  constructor
  case whole =>
    simp only [List.forall_mem_cons, IsWhole, a.value_floor, hceil, a.value_trunc, hround]
    exact ⟨⟨_, rfl⟩, ⟨_, rfl⟩, ⟨_, rfl⟩, ⟨_, rfl⟩, List.forall_mem_nil _⟩
  case near =>
    have hhalf := abs_floor_add_half_sub_le a.value
    simp only [List.forall_mem_cons, a.value_floor, hceil, a.value_trunc, hround]
    exact ⟨abs_floor_sub_lt _, abs_ceil_sub_lt _, abs_wholePart_sub_lt _, by linarith,
      List.forall_mem_nil _⟩
  case floor_le => exact a.value_floor ▸ Int.floor_le _
  case le_ceil => exact hceil ▸ Int.le_ceil _
  case trunc_of_nonneg => exact fun h => by rw [htrunc, wholePart_of_nonneg h, floor_eq]
  case trunc_of_neg => exact fun h => by rw [htrunc, wholePart_of_neg h, ceil_eq]
  case round_near => exact hround ▸ abs_floor_add_half_sub_le _

/-- Rounding leaves a number near where it is if and only if there is room for the integer above it.
Downward and toward zero that is not needed.  Upward, a number with less room than one goes to the
least number of all, and to the nearest, one with no more room than one half. -/
theorem rounds_near_iff (a : Fixed s) :
    (a.RoundsNear ↔ a.value ≤ s.span - 1) ∧
      a.floor.value = ⌊a.value⌋ ∧
      a.trunc.value = wholePart a.value ∧
      a.ceil.value = (if a.value ≤ s.span - 1 then (⌈a.value⌉ : ℚ) else -s.span) ∧
      a.round.value = if a.value < s.span - 1 / 2 then (⌊a.value + 1 / 2⌋ : ℚ) else -s.span := by
  refine ⟨⟨fun h => ?_, roundsNear_of_le⟩, a.value_floor, a.value_trunc, a.value_ceil,
    a.value_round⟩
  by_contra hroom
  have hceil := h.le_ceil
  have hspan : (1 : ℚ) ≤ s.span := by exact_mod_cast s.one_le_span
  rw [value_ceil, if_neg hroom] at hceil
  linarith

end Fixed

namespace Engine

/-- In fixed point, the place of the point, whether there is an overflow, and the word of the real
part of `z`. -/
def word? : Engine → Option (Nat × Bool × Int)
  | .float _ => none
  | .fixed scale m => some (scale.shift, m.state.overflow, m.z.x.raw.toInt)
  | .extended _ => none

theorem exists_of_word {e : Engine} {shift : Nat} {overflow : Bool} {word : Int}
    (h : e.word? = some (shift, overflow, word)) :
    ∃ scale m, e = .fixed scale m ∧ scale.shift = shift ∧ m.state.overflow = overflow ∧
      m.z.x.raw.toInt = word := by
  cases e with
  | float | extended => cases h
  | fixed scale m =>
    simp only [word?, Option.some.injEq, Prod.mk.injEq] at h
    exact ⟨scale, m, rfl, h⟩

end Engine

/-- An entry that rounds up a number with less room than one. -/
def lifting : String :=
  "t \x7b\nz=ceil(32767.5)\n\x7d"

/-- With 16 bits behind the point, rounding `32767.5` up or to the nearest gives `-32768`, and there
is no overflow. -/
theorem exists_flipped :
    let s : Scale := ⟨16, by decide, by decide⟩
    let a : Fixed s := ⟨2147450880⟩
    ¬ a.RoundsNear ∧ a.value = 32767 + 1 / 2 ∧ a.ceil.value = -32768 ∧ a.round.value = -32768 ∧
      ∃ f, (Formula.load lifting 0 { mode := .fixed }).result = .ok f ∧
        ∃ scale m, f.after [.pixel { coord := ⟨0, 0⟩ }, .iterate] = .fixed scale m ∧
          scale.shift = 16 ∧ m.state.overflow = false ∧ m.z.x.raw.toInt = -32768 * 2 ^ 16 := by
  intro s a
  have hraw : a.raw.toInt = 2147450880 := by decide
  have hvalue : a.value = 32767 + 1 / 2 := by
    rw [Fixed.value, hraw]
    norm_num [s]
  have hspan : (s.span : ℚ) = 32768 := by norm_num [Scale.span, s]
  obtain ⟨hnear, -, -, hceil, hround⟩ := a.rounds_near_iff
  rw [hvalue, hspan] at hnear hceil hround
  rw [if_neg (by norm_num)] at hceil hround
  refine ⟨fun h => absurd (hnear.mp h) (by norm_num), hvalue, hceil, hround, ?_⟩
  have hbound : ({} : Settings).bindings.unbindable? = none := rfl
  have hheader : Header.read lifting 0 = .ok ⟨"t", .none, none, 3⟩ := rfl
  have hstream : Token.stream (Cursor.seek lifting 3) =
      Token.firstTokens 40 (Cursor.seek lifting 3) :=
    Token.stream_eq_firstTokens (by decide +kernel)
  have hshown : ∃ f, (Formula.load lifting 0 { mode := .fixed }).result = .ok f ∧
      (f.after [.pixel { coord := ⟨0, 0⟩ }, .iterate]).word? = some (16, false, -2147483648) := by
    refine Formula.exists_loaded ?_
    rw [Formula.load, hbound, hheader]
    dsimp only
    rw [check, Formula.build, Token.body, hstream]
    decide +kernel
  obtain ⟨f, hf, hshown⟩ := hshown
  obtain ⟨scale, m, hm, hshift, hover, hword⟩ := Engine.exists_of_word hshown
  exact ⟨f, hf, scale, m, hm, hshift, hover, hword.trans (by norm_num)⟩

end FractalFormula
