/-
What a seed fixes.

The draws to come depend on the number and the source of a sequence alone (`Alike.draws_eq`),
whatever generator the words come from.  The first seed sets both from its arguments, so it fixes the
draws whatever was drawn before.  A later seed leaves the number as it is and does not look at its
arguments (`seed_fixes_draws`).
-/
import FractalFormula.Proofs.Cursor

namespace FractalFormula
namespace RandomState

/-- What is done to a sequence. -/
inductive Use where
  | randomize (seed : UInt64)
  | seed (x y : Int64)
  | draw
  deriving DecidableEq, Repr

def Use.isSeed : Use → Bool
  | .seed _ _ => true
  | _ => false

def use (r : RandomState) : Use → RandomState
  | .randomize s => r.randomize s
  | .seed x y => r.seed x y
  | .draw => r.draw.2

/-- The sequence of a machine after it was used. -/
def after (g : Generator) (uses : List Use) : RandomState :=
  uses.foldl use (.initial g)

/-- All draws to come. -/
def draws (r : RandomState) : Nat → UInt32 × UInt32
  | 0 => r.draw.1
  | n + 1 => draws r.draw.2 n

/-! ## What the draws depend on -/

/-- The flags apart, the sequences are the same. -/
structure Alike (r r' : RandomState) : Prop where
  generator : r.generator = r'.generator
  number : r.number = r'.number
  source : r.source = r'.source

namespace Alike

variable {r r' : RandomState}

theorem stir (h : Alike r r') : Alike r.stir r'.stir := by
  unfold RandomState.stir
  rw [h.generator, h.number, h.source]
  exact ⟨rfl, rfl, rfl⟩

theorem draw (h : Alike r r') : r.draw.1 = r'.draw.1 ∧ Alike r.draw.2 r'.draw.2 := by
  have hone := h.stir
  have htwo := hone.stir
  exact ⟨Prod.ext hone.number htwo.number, htwo⟩

theorem draws_eq (h : Alike r r') : r.draws = r'.draws := by
  funext n
  induction n generalizing r r' with
  | zero => exact h.draw.1
  | succ n ih => exact ih h.draw.2

/-- A seed makes sequences alike that have the same number where it does not set one. -/
theorem seed {x y x' y' : Int64} (hg : r.generator = r'.generator)
    (h : (if r.seeded then r.number else (x ^^^ y).toUInt64.toUInt32) =
      if r'.seeded then r'.number else (x' ^^^ y').toUInt64.toUInt32) :
    Alike (r.seed x y) (r'.seed x' y') := by
  unfold RandomState.seed
  rw [h]
  exact Alike.stir (Alike.stir (Alike.stir ⟨hg, rfl, rfl⟩))

end Alike

/-! ## Histories -/

/-- Drawing is not seeding. -/
theorem seeded_stir (r : RandomState) : r.stir.seeded = r.seeded := rfl

theorem seeded_use (r : RandomState) (u : Use) : (r.use u).seeded = (r.seeded || u.isSeed) := by
  cases u with
  | randomize s =>
    have hflag : (r.use (.randomize s)).seeded = r.seeded := by
      simp only [use, randomize, warmUp, seeded_stir]
    rw [hflag]
    exact (Bool.or_false _).symm
  | seed x y =>
    have hflag : (r.use (.seed x y)).seeded = true := by
      simp only [use, seed, warmUp, seeded_stir]
    rw [hflag]
    exact (Bool.or_true _).symm
  | draw =>
    have hflag : (r.use .draw).seeded = r.seeded := by
      simp only [use, draw, seeded_stir]
    rw [hflag]
    exact (Bool.or_false _).symm

theorem seeded_after (g : Generator) (uses : List Use) :
    (after g uses).seeded = uses.any Use.isSeed := by
  have run (r : RandomState) : (uses.foldl use r).seeded = (r.seeded || uses.any Use.isSeed) := by
    induction uses generalizing r with
    | nil => exact (Bool.or_false _).symm
    | cons u uses ih => rw [List.foldl_cons, ih, seeded_use, List.any_cons, Bool.or_assoc]
  exact run (.initial g)

/-- A machine draws from the same generator all along. -/
theorem generator_use (r : RandomState) (u : Use) : (r.use u).generator = r.generator := by
  cases u <;> rfl

theorem generator_after (g : Generator) (uses : List Use) : (after g uses).generator = g := by
  have run (r : RandomState) : (uses.foldl use r).generator = r.generator := by
    induction uses generalizing r with
    | nil => rfl
    | cons u uses ih => rw [List.foldl_cons, ih, generator_use]
  exact run (.initial g)

end RandomState

/-! ## The machine -/

namespace State

variable {N : Type} [Scalar N]

/-- The states are the same but for their sequences, which have the same draws to come. -/
structure Resembles (s t : State N) : Prop where
  registers : s = { t with random := s.random }
  draws : s.random.draws = t.random.draws

/-- What a seed sets, given the first draw after it and the sequence after that. -/
theorem seedRandom_eq {s : State N} {x y : UInt32} {rest : RandomState}
    (h : (s.random.seed (Scalar.seedBits s.value.x) (Scalar.seedBits s.value.y)).draw =
      ((x, y), rest)) :
    s.seedRandom =
      let t := { s with random := rest }.setVar Builtin.rand.slot
        ⟨Scalar.ofRandom x, Scalar.ofRandom y⟩
      t.setValue (t.var Builtin.rand.slot) := by
  unfold seedRandom refreshRandom
  dsimp only
  rw [h]

theorem seedRandom_resembles (s : State N) {r r' : RandomState}
    (h : ∀ x y, (r.seed x y).Alike (r'.seed x y)) :
    ({ s with random := r } : State N).seedRandom.Resembles
      ({ s with random := r' } : State N).seedRandom := by
  obtain ⟨hdrawn, hrest⟩ := (h (Scalar.seedBits s.value.x) (Scalar.seedBits s.value.y)).draw
  obtain ⟨⟨x, y⟩, rest, hd⟩ : ∃ d rest,
      (r.seed (Scalar.seedBits s.value.x) (Scalar.seedBits s.value.y)).draw = (d, rest) :=
    ⟨_, _, rfl⟩
  obtain ⟨d', rest', hd'⟩ : ∃ d rest,
      (r'.seed (Scalar.seedBits s.value.x) (Scalar.seedBits s.value.y)).draw = (d, rest) :=
    ⟨_, _, rfl⟩
  rw [hd, hd'] at hdrawn hrest
  obtain rfl : (x, y) = d' := hdrawn
  rw [seedRandom_eq (s := { s with random := r }) hd,
    seedRandom_eq (s := { s with random := r' }) hd']
  exact ⟨rfl, hrest.draws_eq⟩

end State

namespace RandomState

/-- Where no seed has been given, the first one fixes all draws by its arguments alone, and a machine
that gives it goes on as it would from the initial sequence.  Where one has been given, the arguments
of another one make no difference. -/
theorem seed_fixes_draws (g : Generator) (uses : List Use) :
    ((∀ u ∈ uses, u.isSeed = false) →
      (∀ x y, draws ((after g uses).seed x y) = draws ((initial g).seed x y)) ∧
        ∀ {N : Type} [Scalar N] (s : State N), s.random = after g uses →
          s.seedRandom.Resembles ({ s with random := initial g } : State N).seedRandom) ∧
      ((∃ u ∈ uses, u.isSeed = true) → ∀ x y x' y',
        draws ((after g uses).seed x y) = draws ((after g uses).seed x' y')) := by
  constructor
  · intro hno
    have hflag : (after g uses).seeded = false := by
      rw [seeded_after, List.any_eq_false]
      exact fun u hu => Bool.eq_false_iff.mp (hno u hu)
    have halike (x y : Int64) : ((after g uses).seed x y).Alike ((initial g).seed x y) := by
      refine Alike.seed (generator_after g uses) ?_
      rw [hflag]
      rfl
    refine ⟨fun x y => (halike x y).draws_eq, fun s hs => ?_⟩
    have hsame := s.seedRandom_resembles halike
    rwa [← hs] at hsame
  · intro hseed x y x' y'
    have hflag : (after g uses).seeded = true := by
      rw [seeded_after]
      exact List.any_eq_true.mpr hseed
    refine (Alike.seed rfl ?_).draws_eq
    rw [hflag]
    rfl

theorem seed_fixes_draws_randomized :
    (∀ u ∈ [Use.randomize 7, .draw], u.isSeed = false) ∧
      draws ((after .standard [.randomize 7, .draw]).seed 5 3) =
        draws ((initial .standard).seed 5 3) := by
  have hno : ∀ u ∈ [Use.randomize 7, .draw], u.isSeed = false := by decide
  exact ⟨hno, ((seed_fixes_draws .standard _).1 hno).1 5 3⟩

/-- An entry that seeds its sequence from the pixel. -/
def rolling : String :=
  "t \x7b\nz=srand(pixel):z=rand\n\x7d"

theorem exists_rolling : ∃ f, (Formula.load rolling 0 {}).result = .ok f ∧
    (f.after [.pixel { coord := ⟨0, 0⟩ }, .pixel { coord := ⟨1, 2⟩ }]).z.toFloat ≠
      (f.after [.pixel { coord := ⟨1, 2⟩ }]).z.toFloat := by
  have hbound : ({} : Settings).bindings.unbindable? = none := rfl
  have hheader : Header.read rolling 0 = .ok ⟨"t", .none, none, 3⟩ := rfl
  have hstream : Token.stream (Cursor.seek rolling 3) =
      Token.firstTokens 40 (Cursor.seek rolling 3) :=
    Token.stream_eq_firstTokens (by decide +kernel)
  have hvalues : ∃ f, (Formula.load rolling 0 {}).result = .ok f ∧
      decide ((f.after [.pixel { coord := ⟨0, 0⟩ }, .pixel { coord := ⟨1, 2⟩ }]).z.toFloat =
        (f.after [.pixel { coord := ⟨1, 2⟩ }]).z.toFloat) = false := by
    refine Formula.exists_loaded ?_
    rw [Formula.load, hbound, hheader]
    dsimp only
    rw [check, Formula.build, Token.body, hstream]
    decide +kernel
  obtain ⟨f, hf, hvalues⟩ := hvalues
  exact ⟨f, hf, of_decide_eq_false hvalues⟩

/-- A second seed is not looked at, so a pixel shows what was computed before it. -/
theorem exists_seed_ignored :
    (∃ uses x y, draws ((after .standard uses).seed x y) ≠
      draws ((initial .standard).seed x y)) ∧
      ∃ f, (Formula.load rolling 0 {}).result = .ok f ∧
        ∃ p q, (f.after [.pixel p, .pixel q]).z.toFloat ≠ (f.after [.pixel q]).z.toFloat := by
  refine ⟨⟨[.seed 1 2], 3, 4, fun h => ?_⟩, ?_⟩
  · have hfirst := congrFun h 0
    revert hfirst
    decide +kernel
  · obtain ⟨f, hf, hvalues⟩ := exists_rolling
    exact ⟨f, hf, _, _, hvalues⟩

end RandomState
end FractalFormula
