/-
Room on the stack.

A machine reads and writes its stack by an index that nothing checks, and a pixel sets its variables
by slots that are taken to exist.  `State.execute?` and its like do what the machine does, but have no
result where such an index is out of range; entries of tables and slots that are missing are no fault,
since the machine knows what to do without them.  A state with room (`State.Room`) stays one with
room whatever is executed, so nothing is ever out of range, however the code and the tables of a
program were made (`Machine.accesses_in_range`).
-/
import FractalFormula.Proofs.Overflow
import FractalFormula.Proofs.Structured

namespace FractalFormula

/-- Replaces what stands at an index, which has to be in range. -/
def put? {α : Type} (xs : Array α) (i : Nat) (x : α) : Option (Array α) :=
  if h : i < xs.size then some (xs.set i x) else none

theorem put?_eq {α : Type} {xs : Array α} {i : Nat} (h : i < xs.size) (x : α) :
    put? xs i x = some (xs.setIfInBounds i x) := by
  rw [put?, dif_pos h, Array.setIfInBounds, dif_pos h]

namespace State

variable {N : Type} [Scalar N]

/-! ## Instructions that may be at fault -/

def value? (s : State N) : Option (Complex N) :=
  s.stack[s.top]?

def setValue? (s : State N) (z : Complex N) : Option (State N) :=
  (put? s.stack s.top z).map fun stack => { s with stack }

def push? (s : State N) (z : Complex N) : Option (State N) :=
  let top := s.top + 1
  if top = s.stack.size then some { s with top, stack := s.stack.push z }
  else (put? s.stack top z).map fun stack => { s with top, stack }

def unary? (s : State N) (f : Complex N → Option (Complex N)) : Option (State N) :=
  s.value?.bind fun z =>
    match f z with
    | some z => s.setValue? z
    | none => some s.overflowed

def binary? (s : State N) (f : Complex N → Complex N → Option (Complex N)) : Option (State N) :=
  s.value?.bind fun right =>
    let s := { s with top := s.top - 1 }
    s.value?.bind fun left =>
      match f left right with
      | some z => s.setValue? z
      | none => some s.overflowed

def compare? (s : State N) (test : N → N → Bool) : Option (State N) :=
  s.binary? fun a b => some (Complex.real (Scalar.ofBool (test a.x b.x)))

/-- A load puts a value on top of the stack, zero if its entry or its slot is missing. -/
def load? (s : State N) (slot : Option Nat) : Option (State N) :=
  let z := match slot with
    | some i => s.var i
    | none => Complex.zero
  { s with here := { s.here with loads := s.here.loads + 1 } }.push? z

/-- A store without an entry does not look at the stack, and one without a slot stores nothing. -/
def store? (s : State N) (slot : Option Nat) : Option (State N) :=
  let s := { s with here := { s.here with stores := s.here.stores + 1 } }
  match slot with
  | some i => s.value?.map (s.setVar i)
  | none => some s

def clear? (s : State N) : Option (State N) :=
  s.value?.bind fun z => (put? s.stack 0 z).map fun stack => { s with stack, top := 0 }

/-- Jumps if the test of the current value says so. -/
def branch? (s : State N) (r : Routine N) (test : Complex N → Bool) : Option (State N) :=
  s.value?.map fun z => if test z then s.jump r.jumps[s.here.jumps]? else s.skipJump

def square? (s : State N) : Option (State N) :=
  s.value?.bind fun z =>
    match Scalar.mul? z.x z.x, Scalar.mul? z.y z.y with
    | some xx, some yy =>
      (s.setVar Builtin.lastSqr.slot (Complex.real (Scalar.add xx yy))).unary? fun z =>
        (Scalar.mul? z.x z.y).map fun xy => ⟨Scalar.sub xx yy, Scalar.add xy xy⟩
    | _, _ => some s.overflowed

def seedRandom? (s : State N) : Option (State N) :=
  s.value?.bind fun z =>
    let random := s.random.seed (Scalar.seedBits z.x) (Scalar.seedBits z.y)
    let s := { s with random }.refreshRandom
    s.setValue? (s.var Builtin.rand.slot)

def call? (s : State N) (f : Func) : Option (State N) :=
  match f with
  | .sqr => s.square?
  | .srand => s.seedRandom?
  | _ =>
    match f.elementary? with
    | some g => s.unary? fun z => (g z.toFloat).bind Complex.ofFloat?
    | none =>
      match (f.direct? : Option (Complex N → Complex N)) with
      | some g => s.unary? fun z => some (g z)
      | none => some s

def execute? (r : Routine N) (op : Opcode) (s : State N) : Option (State N) :=
  match op with
  | .load => s.load? r.loads[s.here.loads]?
  | .store => s.store? r.stores[s.here.stores]?
  | .clear => s.clear?
  | .endInit => some s.endInit
  | .jump => some (s.jump r.jumps[s.here.jumps]?)
  | .jumpOnFalse => s.branch? r fun z => Scalar.isZero z.x
  | .jumpOnTrue => s.branch? r fun z => !Scalar.isZero z.x
  | .label => some s.skipJump
  | .add => s.binary? fun a b => some (Complex.add a b)
  | .sub => s.binary? fun a b => some (Complex.sub a b)
  | .mul => s.binary? Complex.mul?
  | .div => s.binary? Complex.div?
  | .pow => s.binary? fun a b => Complex.ofFloat? (Elementary.pow a.toFloat b.toFloat)
  | .neg => s.unary? fun z => some z.neg
  | .mod => s.unary? fun z => z.modulus?.map Complex.real
  | .lt => s.compare? Scalar.less
  | .le => s.compare? Scalar.lessOrEqual
  | .gt => s.compare? fun a b => Scalar.less b a
  | .ge => s.compare? fun a b => Scalar.lessOrEqual b a
  | .eq => s.compare? Scalar.equal
  | .ne => s.compare? fun a b => !Scalar.equal a b
  | .or => s.compare? fun a b => !Scalar.isZero a || !Scalar.isZero b
  | .and => s.compare? fun a b => !Scalar.isZero a && !Scalar.isZero b
  | .call f => s.call? (r.bindings.resolve f)
  | .unassigned _ => some s

/-- The code is read at an index that has been compared with its size. -/
def run? (r : Routine N) (initOnly : Bool) : Nat → State N → Option (State N)
  | 0, s => some s
  | budget + 1, s =>
    if h : s.here.op < r.code.size then
      (s.execute? r r.code[s.here.op]).bind fun next =>
        let next := next.advance
        if next.overflow || (initOnly && r.code[s.here.op] == .endInit) then some next
        else run? r initOnly budget next
    else some s

/-- Variables are set by slots that have to exist. -/
def preset? (s : State N) : List (Builtin × Complex Float) → Option (State N)
  | [] => some s
  | (v, z) :: rest =>
    match Complex.ofFloat? z with
    | some z => (put? s.vars v.slot z).bind fun vars => { s with vars }.preset? rest
    | none => some s.overflowed

end State

namespace Machine

variable {N : Type} [Scalar N]

def perPixel? (m : Machine N) (p : Pixel) : Option (Outcome × Machine N) :=
  let r := m.routine
  let s := { m.state with overflow := false, here := .start, entry := .start, top := 0 }
  (s.preset? (pixelValues r p)).bind fun s =>
    if s.overflow then some (.overflow, ⟨r, s⟩)
    else
      (if r.hasInit then s.run? r true r.budget else some s).map fun s =>
        (if s.saveEntry.overflow then .overflow else .running, ⟨r, s.saveEntry⟩)

/-- The outcome is read off the stack once more when the run has ended. -/
def iterate? (m : Machine N) : Option (Outcome × Machine N) :=
  if m.state.overflow then some (.overflow, m)
  else
    let r := m.routine
    (m.atEntry.run? r false r.budget).bind fun s =>
      if s.overflow then some (.overflow, ⟨r, s⟩)
      else s.value?.map fun z => (if Scalar.isZero z.x then .bailedOut else .running, ⟨r, s⟩)

def call? (m : Machine N) : Call → Option (Outcome × Machine N)
  | .pixel p => m.perPixel? p
  | .iterate => m.iterate?

end Machine

/-! ## States with room -/

namespace State

/-- The current value is on the stack, and the predefined variables have their slots. -/
structure Room {N : Type} (s : State N) : Prop where
  top : s.top < s.stack.size
  slots : Builtin.all.length ≤ s.vars.size

/-- Nothing was at fault on the way to a state that has room. -/
def Safe {N : Type} (found : Option (State N)) (s : State N) : Prop :=
  found = some s ∧ s.Room

section

variable {N : Type} {s : State N}

theorem Room.setVar (h : s.Room) (slot : Nat) (z : Complex N) : (s.setVar slot z).Room := by
  refine ⟨h.top, ?_⟩
  rw [State.setVar, Array.size_setIfInBounds]
  exact h.slots

/-- The cursors may stand anywhere. -/
theorem Room.jump (h : s.Room) (e : Option JumpEntry) : (s.jump e).Room := by
  cases e <;> exact ⟨h.top, h.slots⟩

theorem Room.advance (h : s.Room) : s.advance.Room :=
  ⟨h.top, h.slots⟩

theorem Room.saveEntry (h : s.Room) : s.saveEntry.Room :=
  ⟨h.top, h.slots⟩

/-- The index below the top is in range, that of the bottom included. -/
theorem Room.below (h : s.Room) : ({ s with top := s.top - 1 } : State N).Room :=
  ⟨Nat.lt_of_le_of_lt (Nat.sub_le _ _) h.top, h.slots⟩

theorem safe_setValue (h : s.Room) (z : Complex N) : Safe (s.setValue? z) (s.setValue z) := by
  refine ⟨?_, ?_, h.slots⟩
  · rw [setValue?, put?_eq h.top]
    rfl
  · rw [setValue, Array.size_setIfInBounds]
    exact h.top

/-- The stack has grown, or there was an index left above the top. -/
theorem safe_push (h : s.Room) (z : Complex N) : Safe (s.push? z) (s.push z) := by
  unfold push? push
  dsimp only
  split
  · rename_i hfull
    refine ⟨rfl, ?_, h.slots⟩
    rw [Array.size_push]
    exact Nat.lt_succ_of_le (Nat.le_of_eq hfull)
  · rename_i hnot
    have hlt : s.top + 1 < s.stack.size := Nat.lt_of_le_of_ne h.top hnot
    refine ⟨by rw [put?_eq hlt]; rfl, ?_, h.slots⟩
    rw [Array.size_setIfInBounds]
    exact hlt

end

variable {N : Type} [Scalar N] {s : State N}

theorem Room.value?_eq (h : s.Room) : s.value? = some s.value := by
  rw [value?, value, Array.getD_eq_getD_getElem?, Array.getElem?_eq_getElem h.top]
  rfl

theorem safe_unary (h : s.Room) (f : Complex N → Option (Complex N)) :
    Safe (s.unary? f) (s.unary f) := by
  rw [unary?, h.value?_eq, Option.bind_some, unary]
  cases f s.value with
  | none => exact ⟨rfl, h.top, h.slots⟩
  | some z => exact safe_setValue h z

theorem safe_binary (h : s.Room) (f : Complex N → Complex N → Option (Complex N)) :
    Safe (s.binary? f) (s.binary f) := by
  have hbelow := h.below
  unfold binary? binary
  dsimp only
  rw [h.value?_eq, Option.bind_some, hbelow.value?_eq, Option.bind_some]
  cases f _ s.value with
  | none => exact ⟨rfl, hbelow.top, hbelow.slots⟩
  | some z => exact safe_setValue hbelow z

theorem safe_compare (h : s.Room) (test : N → N → Bool) :
    Safe (s.compare? test) (s.compare test) :=
  safe_binary h _

theorem safe_load (h : s.Room) (slot : Option Nat) : Safe (s.load? slot) (s.load slot) := by
  have hcounted : Room { s with here := { s.here with loads := s.here.loads + 1 } } :=
    ⟨h.top, h.slots⟩
  exact safe_push hcounted _

theorem safe_store (h : s.Room) (slot : Option Nat) : Safe (s.store? slot) (s.store slot) := by
  have hcounted : Room { s with here := { s.here with stores := s.here.stores + 1 } } :=
    ⟨h.top, h.slots⟩
  cases slot with
  | none => exact ⟨rfl, hcounted⟩
  | some i => exact ⟨congrArg (Option.map _) hcounted.value?_eq, hcounted.setVar i _⟩

theorem safe_clear (h : s.Room) : Safe s.clear? s.clear := by
  have hpos : 0 < s.stack.size := Nat.lt_of_le_of_lt (Nat.zero_le _) h.top
  refine ⟨?_, ?_, h.slots⟩
  · rw [clear?, h.value?_eq, Option.bind_some, put?_eq hpos]
    rfl
  · rw [clear, Array.size_setIfInBounds]
    exact hpos

theorem safe_branch (h : s.Room) (r : Routine N) (test : Complex N → Bool) :
    Safe (s.branch? r test)
      (if test s.value then s.jump r.jumps[s.here.jumps]? else s.skipJump) := by
  refine ⟨congrArg (Option.map _) h.value?_eq, ?_⟩
  split
  · exact h.jump _
  · exact ⟨h.top, h.slots⟩

theorem Room.refreshRandom (h : s.Room) : s.refreshRandom.Room := by
  have hdrawn : Room { s with random := s.random.draw.2 } := ⟨h.top, h.slots⟩
  exact hdrawn.setVar _ _

theorem safe_square (h : s.Room) : Safe s.square? s.square := by
  have hover : s.overflowed.Room := ⟨h.top, h.slots⟩
  rw [square?, h.value?_eq, Option.bind_some, square]
  cases Scalar.mul? s.value.x s.value.x with
  | none => exact ⟨rfl, hover⟩
  | some xx =>
    cases Scalar.mul? s.value.y s.value.y with
    | none => exact ⟨rfl, hover⟩
    | some yy => exact safe_unary (h.setVar _ _) _

theorem safe_seedRandom (h : s.Room) : Safe s.seedRandom? s.seedRandom := by
  have hseeded : Room
      { s with random := s.random.seed (Scalar.seedBits s.value.x) (Scalar.seedBits s.value.y) } :=
    ⟨h.top, h.slots⟩
  rw [seedRandom?, h.value?_eq, Option.bind_some, seedRandom]
  exact safe_setValue hseeded.refreshRandom _

theorem safe_call (h : s.Room) (f : Func) : Safe (s.call? f) (s.call f) := by
  cases f with
  | sqr => exact safe_square h
  | srand => exact safe_seedRandom h
  | _ =>
    rw [call?, call]
    · first | exact ⟨rfl, h⟩ | exact safe_unary h _
    all_goals (intro h; cases h)

/-- Whatever the tables hold and wherever the cursors stand, an instruction is in range. -/
theorem safe_execute (r : Routine N) (op : Opcode) (h : s.Room) :
    Safe (s.execute? r op) (s.execute r op) := by
  cases op with
  | load => exact safe_load h _
  | store => exact safe_store h _
  | clear => exact safe_clear h
  | jump => exact ⟨rfl, h.jump _⟩
  | jumpOnFalse => exact safe_branch h r _
  | jumpOnTrue =>
    have hswap : s.execute r .jumpOnTrue = if (!Scalar.isZero s.value.x) = true then
        s.jump r.jumps[s.here.jumps]? else s.skipJump := by
      rw [execute]
      cases Scalar.isZero s.value.x <;> rfl
    rw [hswap]
    exact safe_branch h r _
  | endInit | label | unassigned => exact ⟨rfl, h.top, h.slots⟩
  | call f => exact safe_call h _
  | neg | mod =>
    rw [execute?, execute]
    exact safe_unary h _
  | add | sub | mul | div | pow =>
    rw [execute?, execute]
    exact safe_binary h _
  | _ =>
    rw [execute?, execute]
    exact safe_compare h _

/-! ## Runs -/

theorem safe_run (r : Routine N) (initOnly : Bool) (budget : Nat) :
    ∀ {s : State N}, s.Room → Safe (s.run? r initOnly budget) (s.run r initOnly budget) := by
  induction budget with
  | zero => exact fun h => ⟨rfl, h⟩
  | succ budget ih =>
    intro s h
    rw [run?, run]
    by_cases hlt : s.here.op < r.code.size
    · obtain ⟨hstep, hroom⟩ := safe_execute r r.code[s.here.op] h
      rw [dif_pos hlt, hstep, Option.bind_some, Array.getElem?_eq_getElem hlt]
      dsimp only
      split
      · exact ⟨rfl, hroom.advance⟩
      · exact ih hroom.advance
    · rw [dif_neg hlt, Array.getElem?_eq_none (Nat.le_of_not_lt hlt)]
      exact ⟨rfl, h⟩

/-- By induction on the budget: each state of a run has room. -/
theorem room_of_mem_trace {r : Routine N} {initOnly : Bool} {budget : Nat} {t : State N} :
    ∀ {s : State N}, s.Room → t ∈ s.trace r initOnly budget → t.Room := by
  induction budget with
  | zero => exact fun _ ht => absurd ht List.not_mem_nil
  | succ budget ih =>
    intro s h ht
    rw [trace] at ht
    split at ht
    · exact absurd ht List.not_mem_nil
    · rename_i op _
      rcases List.mem_cons.mp ht with rfl | ht
      · exact h
      · split at ht
        · exact absurd ht List.not_mem_nil
        · exact ih (safe_execute r op h).2.advance ht

theorem safe_preset (values : List (Builtin × Complex Float)) :
    ∀ {s : State N}, s.Room → Safe (s.preset? values) (s.preset values) := by
  induction values with
  | nil => exact fun h => ⟨rfl, h⟩
  | cons value values ih =>
    intro s h
    have hslot : value.1.slot < s.vars.size := Nat.lt_of_lt_of_le value.1.slot_lt h.slots
    rw [preset?, preset]
    cases Complex.ofFloat? (N := N) value.2 with
    | none => exact ⟨rfl, h.top, h.slots⟩
    | some z =>
      dsimp only
      rw [put?_eq hslot, Option.bind_some]
      exact ih (h.setVar _ z)

theorem room_initial {vars : Array (Complex N)} (h : Builtin.all.length ≤ vars.size)
    (random : RandomState) : (initial vars random).Room := by
  refine ⟨?_, h⟩
  rw [initial, Array.size_replicate]
  exact (show 0 < stackSize by decide)

end State

/-! ## Calls -/

namespace Machine

variable {N : Type} [Scalar N] {m : Machine N}

theorem room_atEntry (h : m.state.Room) : m.atEntry.Room := by
  have hrewound : State.Room { m.state with here := m.state.entry, top := 0 } :=
    ⟨Nat.lt_of_le_of_lt (Nat.zero_le _) h.top, h.slots⟩
  unfold atEntry
  dsimp only
  split
  · exact hrewound.refreshRandom
  · exact hrewound

/-- The registers of a machine at the beginning of a pixel, before the variables are set. -/
theorem safe_atPixel (h : m.state.Room) (p : Pixel) :
    State.Safe (State.preset?
      { m.state with overflow := false, here := .start, entry := .start, top := 0 }
      (pixelValues m.routine p)) (m.atPixel p) :=
  State.safe_preset _ ⟨Nat.lt_of_le_of_lt (Nat.zero_le _) h.top, h.slots⟩

theorem safe_perPixel (h : m.state.Room) (p : Pixel) :
    m.perPixel? p = some (m.perPixel p) ∧ (m.perPixel p).2.state.Room := by
  obtain ⟨hpreset, hstart⟩ := safe_atPixel h p
  obtain ⟨hrun, hend⟩ := State.safe_run m.routine true m.routine.budget hstart
  rw [perPixel?, perPixel]
  dsimp only
  rw [hpreset, Option.bind_some]
  split
  · exact ⟨rfl, hstart⟩
  · split
    · rw [hrun]
      exact ⟨rfl, hend.saveEntry⟩
    · exact ⟨rfl, hstart.saveEntry⟩

theorem safe_iterate (h : m.state.Room) :
    m.iterate? = some m.iterate ∧ m.iterate.2.state.Room := by
  obtain ⟨hrun, hend⟩ := State.safe_run m.routine false m.routine.budget (room_atEntry h)
  rw [iterate?, iterate]
  split
  · exact ⟨rfl, h⟩
  · dsimp only
    rw [hrun, Option.bind_some, hend.value?_eq]
    refine ⟨?_, hend⟩
    split <;> rfl

theorem safe_call (h : m.state.Room) (c : Call) :
    m.call? c = some (m.answer c, m.call c) ∧ (m.call c).state.Room :=
  match c with
  | .pixel p => safe_perPixel h p
  | .iterate => safe_iterate h

theorem room_foldl (calls : List Call) (h : m.state.Room) :
    (calls.foldl call m).state.Room := by
  induction calls generalizing m with
  | nil => exact h
  | cons c calls ih => exact ih (safe_call h c).2

/-- A call that is about to execute an instruction has room, and the instruction is there. -/
theorem room_of_mem_trace (h : m.state.Room) {budget : Nat} {c : Call} {s : State N}
    (hs : s ∈ m.trace budget c) : s.Room ∧ s.here.op < m.routine.code.size := by
  cases c with
  | pixel p =>
    rw [trace] at hs
    split at hs
    · exact absurd hs List.not_mem_nil
    · exact ⟨State.room_of_mem_trace (safe_atPixel h p).2 hs, State.op_lt_of_mem_trace hs⟩
  | iterate =>
    rw [trace] at hs
    split at hs
    · exact absurd hs List.not_mem_nil
    · exact ⟨State.room_of_mem_trace (room_atEntry h) hs, State.op_lt_of_mem_trace hs⟩

/-- A program that has the slots of the predefined variables may have any code and any tables: no call
is at fault, and before and after each instruction, however long a run goes on, the index of the
current value is in range.  This is so for each instruction on its own, wherever the cursors stand. -/
theorem accesses_in_range (N : Type) [Scalar N] {p : Program}
    (hslots : Builtin.all.length ≤ p.slots.length) {bindings : Bindings}
    {inversion : Option Inversion} {r : Routine N}
    (hr : Routine.ofProgram p bindings inversion = .ok r) :
    (∀ s : State N, s.Room → ∀ op,
      s.execute? r op = some (s.execute r op) ∧ (s.execute r op).Room) ∧
      ∀ (random : RandomState) (calls : List Call) (c : Call),
        let m := calls.foldl call (start r random)
        m.call? c = some (m.answer c, m.call c) ∧
          m.state.top < m.state.stack.size ∧
            ∀ budget, ∀ s ∈ m.trace budget c, s.top < s.stack.size ∧
              ∃ op, r.code[s.here.op]? = some op ∧ s.execute? r op = some (s.execute r op) ∧
                (s.execute r op).advance.top < (s.execute r op).advance.stack.size := by
  refine ⟨fun s h op => State.safe_execute r op h, fun random calls c => ?_⟩
  intro m
  have hstart : (start r random).state.Room := by
    refine State.room_initial ?_ random
    rw [(Routine.ofProgram_eq hr).2.2, List.size_toArray, List.length_map]
    exact hslots
  have hroom : m.state.Room := room_foldl calls hstart
  refine ⟨(safe_call hroom c).1, hroom.top, fun budget s hs => ?_⟩
  obtain ⟨hroom, hlt⟩ := room_of_mem_trace hroom hs
  have hroutine : m.routine = r := routine_foldl calls _
  rw [hroutine] at hlt
  obtain ⟨hstep, hnext⟩ := State.safe_execute r r.code[s.here.op] hroom
  exact ⟨hroom.top, _, Array.getElem?_eq_getElem hlt, hstep, hnext.advance.top⟩

/-- Operators at the bottom of the stack, a load of a slot that does not exist, a jump to behind the
code and a byte without a meaning. -/
theorem accesses_in_range_tampered :
    let p : Program := ⟨"", [.add, .load, .mod, .jump, .unassigned 200, .clear],
      Compile.Draft.builtinSlots {}, [99], [], [⟨.endIf, ⟨9, 7, 5⟩, 1000⟩], true, {}⟩
    let first : Call := .pixel { coord := ⟨1, 2⟩ }
    Builtin.all.length ≤ p.slots.length ∧
      ∃ r : Routine Float, Routine.ofProgram p {} none = .ok r ∧
        let m := [first].foldl call (start r .initial)
        m.call? .iterate = some (m.answer .iterate, m.call .iterate) ∧
          ∀ budget, ∀ s ∈ m.trace budget .iterate, s.top < s.stack.size := by
  intro p first
  have hslots : Builtin.all.length ≤ p.slots.length := by decide
  obtain ⟨r, hr⟩ := Source.exists_float_routine p {} none
  obtain ⟨-, hcalls⟩ := accesses_in_range Float hslots hr
  obtain ⟨hcall, -, htrace⟩ := hcalls .initial [first] .iterate
  exact ⟨hslots, r, hr, hcall, fun budget s hs => (htrace budget s hs).1⟩

end Machine
end FractalFormula
