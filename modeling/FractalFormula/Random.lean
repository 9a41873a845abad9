/-!
The random sequence behind `rand` and `srand`.  A 32-bit number is stirred with 15 bits at a time
from a generator of 64-bit words.  The sequence is one of integers, so that every number format maps
the same draws.
-/

namespace FractalFormula

/-- A generator of 64-bit words, told by the words that come after each seed. -/
structure Generator where
  word : UInt64 → Nat → UInt64

namespace Generator

def stride : UInt64 := 0x2d358dccaa6c78a5

def mask : UInt64 := 0x8bb84b93962eacc9

/-- The generator that the command draws from: a counter that begins at the seed, and whose steps are
mixed by a product of 128 bits, folded in half. -/
def standard : Generator where
  word seed n :=
    let s := seed + UInt64.ofNat (n + 1) * stride
    let product := s.toNat * (s ^^^ mask).toNat
    UInt64.ofNat product ^^^ UInt64.ofNat (product >>> 64)

end Generator

/-- A place among the words of a generator: how many have been taken since which seed. -/
structure WordSource where
  seed : UInt64
  taken : Nat
  deriving DecidableEq, Repr

namespace WordSource

def next (w : WordSource) (g : Generator) : UInt64 × WordSource :=
  (g.word w.seed w.taken, ⟨w.seed, w.taken + 1⟩)

end WordSource

/-- The state of the sequence. -/
structure RandomState where
  /-- What the bits come from; it stays the same. -/
  generator : Generator
  number : UInt32
  /-- The formula has seeded the sequence. -/
  seeded : Bool
  /-- The sequence was seeded when the formula was loaded. -/
  randomized : Bool
  source : WordSource

namespace RandomState

def initial (g : Generator := .standard) : RandomState :=
  ⟨g, 0, false, false, ⟨0, 0⟩⟩

/-- Stirs 15 fresh bits into the number. -/
def stir (r : RandomState) : RandomState :=
  let (word, source) := r.source.next r.generator
  let bits := UInt32.ofNat (word.toNat % 0x8000)
  { r with number := ((r.number <<< 15) + bits) ^^^ r.number, source }

/-- Three steps after a seed carry it to every bit. -/
def warmUp (r : RandomState) : RandomState :=
  r.stir.stir.stir

/-- The seed of a formula that reads `rand`. -/
def randomize (r : RandomState) (seed : UInt64) : RandomState :=
  { { r with source := ⟨seed, 0⟩ }.warmUp with randomized := true }

/-- The seed that a formula gives.  Only the first one sets the number that the sequence goes on
from. -/
def seed (r : RandomState) (x y : Int64) : RandomState :=
  let number := if r.seeded then r.number else (x ^^^ y).toUInt64.toUInt32
  let state := number ^^^ (number >>> 16)
  { r with number, seeded := true, source := ⟨state.toUInt64, 0⟩ }.warmUp

/-- Whether `rand` changes before every iteration. -/
def isActive (r : RandomState) : Bool :=
  r.seeded || r.randomized

/-- Two numbers, for the real and the imaginary part. -/
def draw (r : RandomState) : (UInt32 × UInt32) × RandomState :=
  ((r.stir.number, r.stir.stir.number), r.stir.stir)

end RandomState
end FractalFormula
