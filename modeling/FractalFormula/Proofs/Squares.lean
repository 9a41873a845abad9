/-
Squared moduli in fixed point.

The squares of the two parts are formed exactly and overflow when they do not fit the word, but their
sum wraps around.  So a squared modulus that is there is the exact one unless the sum alone does not
fit (`Complex.Wraps`), and then it is below zero.  What takes the squared modulus, `|z|`, `sqr` and
division, takes that of `Complex.modulus?` (`squared_modulus_exact`).
-/
import FractalFormula.Proofs.Cursor

namespace FractalFormula

namespace Fixed

variable {s : Scale}

/-- The greatest raw form. -/
def greatest : Int := 2147483647

/-- The raw form of the square of a number, rounded down, whether or not it fits the word. -/
def rawSquare (a : Fixed s) : Int :=
  Int.fdiv (a.raw.toInt * a.raw.toInt) s.unit

theorem rawSquare_nonneg (a : Fixed s) : 0 ≤ a.rawSquare :=
  Int.fdiv_nonneg (Int.natAbs_mul_self (a := a.raw.toInt) ▸ Int.natCast_nonneg _)
    (Int.natCast_nonneg _)

/-- A square that fits the word is exact, and any other overflows. -/
theorem mul?_self (a : Fixed s) :
    Scalar.mul? a a = if a.rawSquare ≤ greatest then some ⟨Int32.ofInt a.rawSquare⟩ else none := by
  have hlow : -2147483648 ≤ a.rawSquare := Int.le_trans (by decide) a.rawSquare_nonneg
  show (if -2147483648 ≤ a.rawSquare ∧ a.rawSquare ≤ 2147483647 then _ else _) = _
  simp only [hlow, true_and]
  rfl

end Fixed

namespace Complex

open Fixed

variable {s : Scale}

/-- The sum of the raw squares of the parts, whether or not it fits the word. -/
def rawModulus (z : Complex (Fixed s)) : Int :=
  z.x.rawSquare + z.y.rawSquare

/-- Both squares fit the word, and their sum does not. -/
def Wraps (z : Complex (Fixed s)) : Prop :=
  z.x.rawSquare ≤ greatest ∧ z.y.rawSquare ≤ greatest ∧ greatest < z.rawModulus

/-- An overflow, or the squared modulus itself. -/
def Exact (z : Complex (Fixed s)) (modulus : Option (Fixed s)) : Prop :=
  ∀ m, modulus = some m → m.raw.toInt = z.rawModulus ∧ 0 ≤ m.raw.toInt

theorem modulus?_eq_some {z : Complex (Fixed s)} {m : Fixed s} (h : z.modulus? = some m) :
    z.x.rawSquare ≤ greatest ∧ z.y.rawSquare ≤ greatest ∧ m.raw = Int32.ofInt z.rawModulus := by
  simp only [modulus?, mul?_self, Option.bind_eq_bind, Option.bind_eq_some_iff, Option.pure_def,
    Option.some.injEq, Option.ite_none_right_eq_some] at h
  obtain ⟨_, ⟨hx, rfl⟩, _, ⟨hy, rfl⟩, rfl⟩ := h
  exact ⟨hx, hy, (Int32.ofInt_add _ _).symm⟩

theorem modulus?_of_fits {z : Complex (Fixed s)} (hx : z.x.rawSquare ≤ greatest)
    (hy : z.y.rawSquare ≤ greatest) : ∃ m, z.modulus? = some m := by
  rw [modulus?, mul?_self, mul?_self, if_pos hx, if_pos hy]
  exact ⟨_, rfl⟩

/-- A sum that fits the word is exact. -/
theorem toInt_modulus {z : Complex (Fixed s)} {m : Fixed s} (h : z.modulus? = some m)
    (hz : z.rawModulus ≤ greatest) : m.raw.toInt = z.rawModulus := by
  obtain ⟨-, -, hm⟩ := modulus?_eq_some h
  have hnonneg : 0 ≤ z.rawModulus := Int.add_nonneg z.x.rawSquare_nonneg z.y.rawSquare_nonneg
  unfold greatest at hz
  rw [hm, Int32.toInt_ofInt_of_le (by omega) (by omega)]

/-- A sum that does not fit the word falls below zero, for it is not twice too great. -/
theorem toInt_modulus_neg {z : Complex (Fixed s)} {m : Fixed s} (h : z.modulus? = some m)
    (hz : greatest < z.rawModulus) : m.raw.toInt < 0 := by
  obtain ⟨hx, hy, hm⟩ := modulus?_eq_some h
  have hsum : z.rawModulus ≤ greatest + greatest := Int.add_le_add hx hy
  unfold greatest at hz hsum
  rw [hm, Int32.toInt_ofInt, Int.bmod_def]
  have hsize : ((Int32.size : Nat) : Int) = 4294967296 := rfl
  rw [hsize]
  split <;> omega

theorem exact_modulus_iff (z : Complex (Fixed s)) : z.Exact z.modulus? ↔ ¬ z.Wraps := by
  constructor
  · rintro h ⟨hx, hy, hz⟩
    obtain ⟨m, hm⟩ := modulus?_of_fits hx hy
    have := toInt_modulus_neg hm hz
    have := (h m hm).2
    omega
  · intro h m hm
    obtain ⟨hx, hy, -⟩ := modulus?_eq_some hm
    have hz : z.rawModulus ≤ greatest := Int.not_lt.mp fun hz => h ⟨hx, hy, hz⟩
    have hexact := toInt_modulus hm hz
    refine ⟨hexact, hexact ▸ ?_⟩
    exact Int.add_nonneg z.x.rawSquare_nonneg z.y.rawSquare_nonneg

/-- The quotient of two numbers, given the denominator by which the parts are divided. -/
def over? {N : Type} [Scalar N] (a b : Complex N) (denominator : N) : Option (Complex N) :=
  if Scalar.isTiny denominator then none
  else do
    let xx ← Scalar.mul? a.x b.x
    let yy ← Scalar.mul? a.y b.y
    let yx ← Scalar.mul? a.y b.x
    let xy ← Scalar.mul? a.x b.y
    let x ← Scalar.div? (Scalar.add xx yy) denominator
    let y ← Scalar.div? (Scalar.sub yx xy) denominator
    return ⟨x, y⟩

end Complex

namespace State

variable {N : Type} [Scalar N]

/-- The square overflows with the squared modulus of the current value, and leaves it in `lastsqr`
otherwise. -/
theorem square_of_modulus (s : State N) :
    (s.value.modulus? = none → s.square = s.overflowed) ∧
      ∀ m, s.value.modulus? = some m →
        s.square.vars = (s.setVar Builtin.lastSqr.slot (Complex.real m)).vars := by
  unfold Complex.modulus? square
  dsimp only
  cases Scalar.mul? s.value.x s.value.x with
  | none => exact ⟨fun _ => rfl, nofun⟩
  | some xx =>
    cases Scalar.mul? s.value.y s.value.y with
    | none => exact ⟨fun _ => rfl, nofun⟩
    | some yy =>
      refine ⟨nofun, fun m hm => ?_⟩
      obtain rfl := Option.some.inj hm
      unfold unary
      dsimp only
      split <;> rfl

end State

namespace Complex

variable {scale : Scale}

/-- A squared modulus is exact or overflows unless its sum alone does not fit the word.  The
instruction for `|z|` leaves it, `sqr` leaves it in `lastsqr`, and a division divides by it. -/
theorem squared_modulus_exact (z : Complex (Fixed scale)) :
    (z.Exact z.modulus? ↔ ¬ z.Wraps) ∧
      (∀ (r : Routine (Fixed scale)) (s : State (Fixed scale)), s.value = z →
        (z.modulus? = none →
          s.execute r .mod = s.overflowed ∧ s.execute r (.call .sqr) = s.overflowed) ∧
        ∀ m, z.modulus? = some m →
          s.execute r .mod = s.setValue (real m) ∧
            (s.execute r (.call .sqr)).vars = (s.setVar Builtin.lastSqr.slot (real m)).vars) ∧
      ∀ a : Complex (Fixed scale), a.div? z = z.modulus?.bind (a.over? z) := by
  refine ⟨exact_modulus_iff z, ?_, fun a => rfl⟩
  rintro r s rfl
  obtain ⟨hnone, hsome⟩ := s.square_of_modulus
  have hmod : s.execute r .mod = s.unary fun z => z.modulus?.map real := rfl
  rw [hmod, State.unary]
  refine ⟨fun h => ⟨?_, hnone h⟩, fun m h => ⟨?_, hsome m h⟩⟩
  · rw [h]
    rfl
  · rw [h]
    rfl

end Complex

/-- An entry that goes on while the point it starts with is near. -/
def escaping : String :=
  "t \x7b\nz=|pixel|,z<=4\n\x7d"

/-- The squared modulus of a point far out falls below zero without an overflow, and the point passes
for one that has not escaped. -/
theorem exists_negative_modulus : ∃ f, (Formula.load escaping 0 { mode := .fixed }).result = .ok f ∧
    ∃ scale m, f.after [.pixel { coord := ⟨180, 180⟩ }, .iterate] = .fixed scale m ∧
      m.state.overflow = false ∧ Scalar.isZero m.state.value.x = false ∧
        m.z.x.raw.toInt = -48234496 ∧
          (m.state.var Builtin.pixel.slot).rawModulus = 4246732800 := by
  let shown : Formula → Option (Bool × Bool × Int × Int) := fun f =>
    match f.after [.pixel { coord := ⟨180, 180⟩ }, .iterate] with
    | .fixed _ m => some (m.state.overflow, Scalar.isZero m.state.value.x, m.z.x.raw.toInt,
        (m.state.var Builtin.pixel.slot).rawModulus)
    | _ => none
  have hbound : ({} : Settings).bindings.unbindable? = none := rfl
  have hheader : Header.read escaping 0 = .ok ⟨"t", .none, none, 3⟩ := rfl
  have hstream : Token.stream (Cursor.seek escaping 3) =
      Token.firstTokens 40 (Cursor.seek escaping 3) :=
    Token.stream_eq_firstTokens (by decide +kernel)
  have hshown : ∃ f, (Formula.load escaping 0 { mode := .fixed }).result = .ok f ∧
      shown f = some (false, false, -48234496, 4246732800) := by
    refine Formula.exists_loaded ?_
    rw [Formula.load, hbound, hheader]
    dsimp only
    rw [check, Formula.build, Token.body, hstream]
    decide +kernel
  obtain ⟨f, hf, hshown⟩ := hshown
  refine ⟨f, hf, ?_⟩
  dsimp only [shown] at hshown
  split at hshown
  · rename_i scale m hm
    simp only [Option.some.injEq, Prod.mk.injEq] at hshown
    exact ⟨scale, m, hm, hshown⟩
  · cases hshown

end FractalFormula
