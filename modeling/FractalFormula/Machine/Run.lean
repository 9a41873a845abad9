import FractalFormula.Machine.Function

/-!
Running a formula: one instruction, a section of the code, a pixel, an iteration, an orbit.
-/

namespace FractalFormula

/-- How a run ended. -/
inductive Outcome where
  /-- The orbit goes on. -/
  | running
  /-- The last value is zero in its real part. -/
  | bailedOut
  /-- An operation had no result. -/
  | overflow
  deriving DecidableEq, Repr

namespace Outcome

def isDone (o : Outcome) : Bool :=
  o != .running

end Outcome

namespace State

variable {N : Type} [Scalar N]

/-- A comparison of real parts, as one or zero. -/
def compare (s : State N) (test : N → N → Bool) : State N :=
  s.binary fun a b => some (Complex.real (Scalar.ofBool (test a.x b.x)))

/-- Executes one instruction; its index stays where it is unless the instruction jumps. -/
def execute (r : Routine N) (op : Opcode) (s : State N) : State N :=
  match op with
  | .load => s.load r.loads[s.here.loads]?
  | .store => s.store r.stores[s.here.stores]?
  | .clear => s.clear
  | .endInit => s.endInit
  | .jump => s.jump r.jumps[s.here.jumps]?
  | .jumpOnFalse => if Scalar.isZero s.value.x then s.jump r.jumps[s.here.jumps]? else s.skipJump
  | .jumpOnTrue => if Scalar.isZero s.value.x then s.skipJump else s.jump r.jumps[s.here.jumps]?
  | .label => s.skipJump
  | .add => s.binary fun a b => some (Complex.add a b)
  | .sub => s.binary fun a b => some (Complex.sub a b)
  | .mul => s.binary Complex.mul?
  | .div => s.binary Complex.div?
  | .pow => s.binary fun a b => Complex.ofFloat? (Elementary.pow a.toFloat b.toFloat)
  | .neg => s.unary fun z => some z.neg
  | .mod => s.unary fun z => z.modulus?.map Complex.real
  | .lt => s.compare Scalar.less
  | .le => s.compare Scalar.lessOrEqual
  | .gt => s.compare fun a b => Scalar.less b a
  | .ge => s.compare fun a b => Scalar.lessOrEqual b a
  | .eq => s.compare Scalar.equal
  | .ne => s.compare fun a b => !Scalar.equal a b
  | .or => s.compare fun a b => !Scalar.isZero a || !Scalar.isZero b
  | .and => s.compare fun a b => !Scalar.isZero a && !Scalar.isZero b
  | .call f => s.call (r.bindings.resolve f)
  | .unassigned _ => s

/-- Executes instructions from the current one to the end of the code, or to the end of the init
section if `initOnly` holds, or to the first overflow. -/
def run (r : Routine N) (initOnly : Bool) : Nat → State N → State N
  | 0, s => s
  | budget + 1, s =>
    match r.code[s.here.op]? with
    | none => s
    | some op =>
      let s := (s.execute r op).advance
      if s.overflow || (initOnly && op == .endInit) then s else run r initOnly budget s

/-- Sets variables until a value does not fit the number format. -/
def preset (s : State N) : List (Builtin × Complex Float) → State N
  | [] => s
  | (v, z) :: rest =>
    match Complex.ofFloat? z with
    | some z => (s.setVar v.slot z).preset rest
    | none => s.overflowed

end State

/-- A routine with its registers. -/
structure Machine (N : Type) where
  routine : Routine N
  state : State N

namespace Machine

variable {N : Type} [Scalar N]

def start (r : Routine N) (random : RandomState) : Machine N :=
  ⟨r, .initial r.initial random⟩

/-- The point that `pixel` stands for.  Fixed point has no room for points far out. -/
def coordinate (r : Routine N) (p : Pixel) : Complex Float :=
  match r.inversion with
  | none => p.coord
  | some i =>
    let z := i.apply p.coord
    if Scalar.mode N == .fixed && 127 ≤ z.normSquared then ⟨8, 8⟩ else z

/-- What the variables that depend on the pixel are set to, in this order. -/
def pixelValues (r : Routine N) (p : Pixel) : List (Builtin × Complex Float) :=
  [(.scrnPix, ⟨Float.ofNat p.col, Float.ofNat p.row⟩),
   (.whiteSq, ⟨if p.isWhite then 1 else 0, 0⟩),
   (.pixel, coordinate r p)]

/-- The registers at the beginning of a pixel. -/
def atPixel (m : Machine N) (p : Pixel) : State N :=
  let s := { m.state with overflow := false, here := .start, entry := .start, top := 0 }
  s.preset (pixelValues m.routine p)

/-- Sets up a new pixel and runs the init section. -/
def perPixel (m : Machine N) (p : Pixel) : Outcome × Machine N :=
  let r := m.routine
  let s := m.atPixel p
  if s.overflow then (.overflow, ⟨r, s⟩)
  else
    let s := (if r.hasInit then s.run r true r.budget else s).saveEntry
    (if s.overflow then .overflow else .running, ⟨r, s⟩)

/-- The registers at the beginning of an iteration. -/
def atEntry (m : Machine N) : State N :=
  let s := { m.state with here := m.state.entry, top := 0 }
  if s.random.isActive then s.refreshRandom else s

/-- Runs the iterated section once.  After an overflow nothing runs until the next pixel. -/
def iterate (m : Machine N) : Outcome × Machine N :=
  if m.state.overflow then (.overflow, m)
  else
    let r := m.routine
    let s := m.atEntry.run r false r.budget
    let outcome :=
      if s.overflow then .overflow else if Scalar.isZero s.value.x then .bailedOut else .running
    (outcome, ⟨r, s⟩)

/-- Iterates until the orbit ends, at most `limit` times, after `count` iterations. -/
def iterateUpTo (m : Machine N) (count : Nat) : Nat → Outcome × Nat × Machine N
  | 0 => (.running, count, m)
  | limit + 1 =>
    let (outcome, m) := m.iterate
    if outcome.isDone then (outcome, count + 1, m) else m.iterateUpTo (count + 1) limit

/-- The orbit of a pixel: how it ended and how many iterations it took. -/
def orbit (m : Machine N) (p : Pixel) (limit : Nat) : Outcome × Nat × Machine N :=
  match m.perPixel p with
  | (.overflow, m) => (.overflow, 0, m)
  | (_, m) => m.iterateUpTo 0 limit

/-- The slot of a name, in any case of its letters. -/
def slotOf? (m : Machine N) (name : String) : Option Nat :=
  m.routine.names.findIdx? (Text.sameName · name)

/-- The value of a variable or a literal by its name. -/
def named? (m : Machine N) (name : String) : Option (Complex N) := do
  m.state.vars[(← m.slotOf? name)]?

/-- The value of the variable `z`. -/
def z (m : Machine N) : Complex N :=
  m.state.var Builtin.z.slot

end Machine
end FractalFormula
