/-
Slots that no load reads.

A load is the only instruction that reads a slot it has not just set.  The square sets `lastsqr` and
does not read it, a pixel sets what depends on it, and a seed reads `rand` when it has drawn it.  So
two machines that differ in slots which are not loaded (`State.Agrees`) differ in nothing else,
however they are called (`Machine.unread_unnoticed`).  Slots that start with zero because their
values do not fit the number format are such slots.
-/
import FractalFormula.Proofs.Overflow
import FractalFormula.Proofs.Structured

namespace FractalFormula

namespace State

/-- The same registers with other variables. -/
def withVars {N : Type} (s : State N) (vars : Array (Complex N)) : State N :=
  { s with vars }

/-- The variables make no difference to the move, and it leaves them as they are. -/
def Blind {N : Type} (f : State N → State N) : Prop :=
  ∀ s vars, f (s.withVars vars) = (f s).withVars vars

/-- The states are the same but for the variables, of which they have as many, and those in the
slots that are kept are the same too. -/
structure Agrees {N : Type} (kept : Nat → Prop) (s t : State N) : Prop where
  registers : s = t.withVars s.vars
  size : s.vars.size = t.vars.size
  vars : ∀ i, kept i → s.vars[i]? = t.vars[i]?

section

variable {N : Type} {s t : State N} {kept kept' : Nat → Prop}

theorem Blind.setValue (z : Complex N) : Blind fun s => s.setValue z :=
  fun _ _ => rfl

theorem Blind.push (z : Complex N) : Blind fun s => s.push z := by
  intro s vars
  show (s.withVars vars).push z = (s.push z).withVars vars
  have hfull : (s.withVars vars).top + 1 = (s.withVars vars).stack.size ↔
      s.top + 1 = s.stack.size := Iff.rfl
  rw [State.push, State.push]
  simp only [hfull]
  split <;> rfl

theorem Blind.jump (e : Option JumpEntry) : Blind fun s : State N => s.jump e := by
  intro s vars
  cases e <;> rfl

namespace Agrees

theorem here (h : s.Agrees kept t) : s.here = t.here :=
  (congrArg State.here h.registers).trans rfl

theorem overflow (h : s.Agrees kept t) : s.overflow = t.overflow :=
  (congrArg State.overflow h.registers).trans rfl

theorem random (h : s.Agrees kept t) : s.random = t.random :=
  (congrArg State.random h.registers).trans rfl

theorem mono (h : s.Agrees kept' t) (hk : ∀ i, kept i → kept' i) : s.Agrees kept t :=
  ⟨h.registers, h.size, fun i hi => h.vars i (hk i hi)⟩

theorem blind {f : State N → State N} (hf : Blind f) (h : s.Agrees kept t) :
    (f s).Agrees kept (f t) := by
  have stays (u : State N) : (f u).vars = u.vars := (congrArg State.vars (hf u u.vars)).trans rfl
  constructor
  case registers =>
    rw [stays, ← hf, ← h.registers]
  case size => rw [stays, stays, h.size]
  case vars => rw [stays, stays]; exact h.vars

/-- A slot that is set agrees from then on, whether or not it is kept. -/
theorem setVar_kept (h : s.Agrees kept t) (slot : Nat) (z : Complex N) :
    (s.setVar slot z).Agrees (fun i => kept i ∨ i = slot) (t.setVar slot z) := by
  constructor
  case registers =>
    conv_lhs => rw [h.registers]
    rfl
  case size => simp only [State.setVar, Array.size_setIfInBounds, h.size]
  case vars =>
    intro i hi
    simp only [State.setVar, Array.getElem?_setIfInBounds, h.size]
    split
    · rfl
    · rename_i hne
      exact h.vars i (hi.resolve_right fun heq => hne heq.symm)

theorem setVar (h : s.Agrees kept t) (slot : Nat) (z : Complex N) :
    (s.setVar slot z).Agrees kept (t.setVar slot z) :=
  (h.setVar_kept slot z).mono fun _ => Or.inl

end Agrees
end

variable {N : Type} [Scalar N] {r : Routine N} {kept : Nat → Prop} {s t : State N}

/-- The registers with the sequence seeded from the current value. -/
def seeded (s : State N) : State N :=
  { s with random := s.random.seed (Scalar.seedBits s.value.x) (Scalar.seedBits s.value.y) }

namespace Blind

theorem unary (f : Complex N → Option (Complex N)) : Blind fun s => s.unary f := by
  intro s vars
  have hvalue : (s.withVars vars).value = s.value := rfl
  show (s.withVars vars).unary f = (s.unary f).withVars vars
  rw [State.unary, State.unary, hvalue]
  split <;> rfl

theorem binary (f : Complex N → Complex N → Option (Complex N)) : Blind fun s => s.binary f := by
  intro s vars
  have hleft : { s.withVars vars with top := (s.withVars vars).top - 1 }.value =
      { s with top := s.top - 1 }.value := rfl
  have hright : (s.withVars vars).value = s.value := rfl
  show (s.withVars vars).binary f = (s.binary f).withVars vars
  rw [State.binary, State.binary, hleft, hright]
  split <;> rfl

theorem call {f : Func} (hsquare : f ≠ .sqr) (hseed : f ≠ .srand) :
    Blind fun s : State N => s.call f := by
  intro s vars
  show (s.withVars vars).call f = (s.call f).withVars vars
  unfold State.call
  split
  · exact absurd rfl hsquare
  · exact absurd rfl hseed
  · split
    · exact unary _ s vars
    · split
      · exact unary _ s vars
      · rfl

end Blind

namespace Agrees

theorem value (h : s.Agrees kept t) : s.value = t.value :=
  (congrArg State.value h.registers).trans rfl

theorem var (h : s.Agrees kept t) {i : Nat} (hi : kept i) : s.var i = t.var i := by
  rw [State.var, State.var, Array.getD_eq_getD_getElem?, Array.getD_eq_getD_getElem?, h.vars i hi]

/-! ## Instructions -/

theorem load (h : s.Agrees kept t) (slot : Option Nat) (hslot : ∀ i, slot = some i → kept i) :
    (s.load slot).Agrees kept (t.load slot) := by
  have hcounted := h.blind
    (f := fun s => { s with here := { s.here with loads := s.here.loads + 1 } }) fun _ _ => rfl
  cases slot with
  | none => exact hcounted.blind (.push _)
  | some i =>
    have hpushed := hcounted.blind (.push (s.var i))
    conv at hpushed => rhs; rw [h.var (hslot i rfl)]
    exact hpushed

theorem store (h : s.Agrees kept t) (slot : Option Nat) :
    (s.store slot).Agrees kept (t.store slot) := by
  have hcounted := h.blind
    (f := fun s => { s with here := { s.here with stores := s.here.stores + 1 } }) fun _ _ => rfl
  cases slot with
  | none => exact hcounted
  | some i =>
    have hset := hcounted.setVar i s.value
    conv at hset => rhs; rw [h.value]
    exact hset

theorem unary (h : s.Agrees kept t) (f : Complex N → Option (Complex N)) :
    (s.unary f).Agrees kept (t.unary f) :=
  h.blind (.unary f)

theorem binary (h : s.Agrees kept t) (f : Complex N → Complex N → Option (Complex N)) :
    (s.binary f).Agrees kept (t.binary f) :=
  h.blind (.binary f)

/-- The draws are the same, and `rand` agrees from then on. -/
theorem refreshRandom (h : s.Agrees kept t) :
    s.refreshRandom.Agrees (fun i => kept i ∨ i = Builtin.rand.slot) t.refreshRandom := by
  unfold State.refreshRandom
  rw [h.random]
  obtain ⟨⟨x, y⟩, rest⟩ := t.random.draw
  have hdrawn := h.blind (f := fun s => { s with random := rest }) fun _ _ => rfl
  exact hdrawn.setVar_kept _ _

/-- The value that a seed leaves has just been drawn. -/
theorem seedRandom (h : s.Agrees kept t) : s.seedRandom.Agrees kept t.seedRandom := by
  have hseeded : s.seeded.Agrees kept t.seeded := h.blind fun _ _ => rfl
  have hdrawn := hseeded.refreshRandom
  have hset := hdrawn.blind (.setValue (s.seeded.refreshRandom.var Builtin.rand.slot))
  conv at hset => rhs; rw [hdrawn.var (Or.inr rfl)]
  exact hset.mono fun _ => Or.inl

/-- The square sets `lastsqr` to what it has formed of the current value. -/
theorem square (h : s.Agrees kept t) : s.square.Agrees kept t.square := by
  unfold State.square
  rw [h.value]
  dsimp only
  split
  · exact (h.setVar _ _).unary _
  · exact h.blind fun _ _ => rfl

theorem call (h : s.Agrees kept t) (f : Func) : (s.call f).Agrees kept (t.call f) := by
  by_cases hsquare : f = .sqr
  · subst hsquare
    exact h.square
  by_cases hseed : f = .srand
  · subst hseed
    exact h.seedRandom
  exact h.blind (.call hsquare hseed)

/-- All that an instruction reads of the variables is what it loads. -/
theorem execute (hkept : ∀ i ∈ r.loads, kept i) (h : s.Agrees kept t) (op : Opcode) :
    (s.execute r op).Agrees kept (t.execute r op) := by
  have hjump : (s.jump r.jumps[s.here.jumps]?).Agrees kept (t.jump r.jumps[t.here.jumps]?) := by
    rw [h.here]
    exact h.blind (.jump _)
  have hskip : s.skipJump.Agrees kept t.skipJump := h.blind fun _ _ => rfl
  cases op with
  | load =>
    rw [State.execute, State.execute, h.here]
    exact h.load _ fun i hi => hkept i (Array.mem_of_getElem? hi)
  | store =>
    rw [State.execute, State.execute, h.here]
    exact h.store _
  | clear | endInit => exact h.blind fun _ _ => rfl
  | jump => exact hjump
  | label => exact hskip
  | jumpOnFalse | jumpOnTrue =>
    rw [State.execute, State.execute, h.value]
    split
    · assumption
    · assumption
  | call f => exact h.call _
  | unassigned => exact h
  | neg | mod =>
    rw [State.execute, State.execute]
    exact h.unary _
  | _ =>
    simp only [State.execute, State.compare]
    exact h.binary _

/-! ## Runs -/

/-- By induction on the budget: both runs are at the same instruction in every step, and so end
together. -/
theorem run (hkept : ∀ i ∈ r.loads, kept i) (initOnly : Bool) (budget : Nat) :
    ∀ {s t : State N}, s.Agrees kept t →
      (s.run r initOnly budget).Agrees kept (t.run r initOnly budget) := by
  induction budget with
  | zero => exact fun h => h
  | succ budget ih =>
    intro s t h
    rw [State.run, State.run, h.here]
    split
    · exact h
    · rename_i op _
      have hnext : (s.execute r op).advance.Agrees kept (t.execute r op).advance :=
        (h.execute hkept op).blind fun _ _ => rfl
      dsimp only
      rw [hnext.overflow]
      split
      · exact hnext
      · exact ih hnext

/-- By induction on what is set. -/
theorem preset (values : List (Builtin × Complex Float)) : ∀ {s t : State N}, s.Agrees kept t →
    (s.preset values).Agrees kept (t.preset values) := by
  induction values with
  | nil => exact fun h => h
  | cons value values ih =>
    intro s t h
    rw [State.preset, State.preset]
    split
    · exact ih (h.setVar _ _)
    · exact h.blind fun _ _ => rfl

end Agrees
end State

/-! ## Calls -/

namespace Machine

variable {N : Type} [Scalar N] {kept : Nat → Prop} {m m' : Machine N}

/-- The machines run the same routine in states that agree, and all that the routine loads is
kept. -/
structure Agrees (kept : Nat → Prop) (m m' : Machine N) : Prop where
  routine : m.routine = m'.routine
  loads : ∀ i ∈ m.routine.loads, kept i
  state : m.state.Agrees kept m'.state

/-- What a sequence of calls answers. -/
def outcomes (m : Machine N) : List Call → List Outcome
  | [] => []
  | c :: calls => m.answer c :: (m.call c).outcomes calls

/-- What a call answers and what it leaves if its run is cut after a number of instructions. -/
def cut (m : Machine N) (budget : Nat) : Call → Outcome × Machine N
  | .pixel x =>
    let r := m.routine
    let s := m.atPixel x
    if s.overflow then (.overflow, ⟨r, s⟩)
    else
      let s := (if r.hasInit then s.run r true budget else s).saveEntry
      (if s.overflow then .overflow else .running, ⟨r, s⟩)
  | .iterate =>
    if m.state.overflow then (.overflow, m)
    else
      let s := m.atEntry.run m.routine false budget
      let outcome :=
        if s.overflow then .overflow else if Scalar.isZero s.value.x then .bailedOut else .running
      (outcome, ⟨m.routine, s⟩)

/-- A sequence of calls that are cut, each where it says. -/
def cuts (m : Machine N) : List (Nat × Call) → List Outcome × Machine N
  | [] => ([], m)
  | (budget, c) :: calls =>
    let rest := (m.cut budget c).2.cuts calls
    ((m.cut budget c).1 :: rest.1, rest.2)

theorem cut_budget (m : Machine N) (c : Call) :
    m.cut m.routine.budget c = (m.answer c, m.call c) := by
  cases c <;> rfl

/-- Calls are cut at the budget of the routine. -/
theorem cuts_budget (calls : List Call) : ∀ m : Machine N,
    m.cuts (calls.map (m.routine.budget, ·)) = (m.outcomes calls, calls.foldl call m) := by
  induction calls with
  | nil => exact fun _ => rfl
  | cons c calls ih =>
    intro m
    have hrest := ih (m.call c)
    rw [m.routine_call c] at hrest
    rw [List.map_cons, cuts, cut_budget]
    dsimp only
    rw [hrest]
    rfl

namespace Agrees

theorem cut_pixel (h : m.Agrees kept m') (budget : Nat) (x : Pixel) :
    (m.cut budget (.pixel x)).1 = (m'.cut budget (.pixel x)).1 ∧
      (m.cut budget (.pixel x)).2.Agrees kept (m'.cut budget (.pixel x)).2 := by
  obtain ⟨r, s⟩ := m
  obtain ⟨r', t⟩ := m'
  obtain ⟨rfl, hkept, hstate⟩ := h
  have hstart : (atPixel ⟨r, s⟩ x).Agrees kept (atPixel ⟨r, t⟩ x) := by
    have hrewound := hstate.blind (f := fun s =>
      { s with overflow := false, here := .start, entry := .start, top := 0 }) fun _ _ => rfl
    exact hrewound.preset _
  have hend : (if r.hasInit then (atPixel ⟨r, s⟩ x).run r true budget
      else atPixel ⟨r, s⟩ x).saveEntry.Agrees kept (if r.hasInit then
        (atPixel ⟨r, t⟩ x).run r true budget else atPixel ⟨r, t⟩ x).saveEntry := by
    split
    · exact (hstart.run hkept true budget).blind fun _ _ => rfl
    · exact hstart.blind fun _ _ => rfl
  unfold Machine.cut
  dsimp only
  rw [hstart.overflow]
  split
  · exact ⟨rfl, rfl, hkept, hstart⟩
  · rw [hend.overflow]
    exact ⟨rfl, rfl, hkept, hend⟩

theorem atEntry (h : m.Agrees kept m') : m.atEntry.Agrees kept m'.atEntry := by
  have hrewound : ({ m.state with here := m.state.entry, top := 0 } : State N).Agrees kept
      { m'.state with here := m'.state.entry, top := 0 } :=
    h.state.blind (f := fun s => { s with here := s.entry, top := 0 }) fun _ _ => rfl
  have hactive : m.state.random.isActive = m'.state.random.isActive :=
    congrArg RandomState.isActive h.state.random
  unfold Machine.atEntry
  dsimp only
  rw [hactive]
  split
  · exact hrewound.refreshRandom.mono fun _ => Or.inl
  · exact hrewound

theorem cut_iterate (h : m.Agrees kept m') (budget : Nat) :
    (m.cut budget .iterate).1 = (m'.cut budget .iterate).1 ∧
      (m.cut budget .iterate).2.Agrees kept (m'.cut budget .iterate).2 := by
  obtain ⟨r, s⟩ := m
  obtain ⟨r', t⟩ := m'
  obtain ⟨rfl, hkept, hstate⟩ := id h
  have hstart := h.atEntry
  have hend := hstart.run hkept false budget
  unfold Machine.cut
  dsimp only
  rw [hstate.overflow]
  split
  · exact ⟨rfl, rfl, hkept, hstate⟩
  · rw [hend.overflow, hend.value]
    exact ⟨rfl, rfl, hkept, hend⟩

theorem cut (h : m.Agrees kept m') (budget : Nat) (c : Call) :
    (m.cut budget c).1 = (m'.cut budget c).1 ∧
      (m.cut budget c).2.Agrees kept (m'.cut budget c).2 :=
  match c with
  | .pixel x => h.cut_pixel budget x
  | .iterate => h.cut_iterate budget

/-- By induction on the calls. -/
theorem cuts (calls : List (Nat × Call)) : ∀ {m m' : Machine N}, m.Agrees kept m' →
    (m.cuts calls).1 = (m'.cuts calls).1 ∧ (m.cuts calls).2.Agrees kept (m'.cuts calls).2 := by
  induction calls with
  | nil => exact fun h => ⟨rfl, h⟩
  | cons c calls ih =>
    intro m m' h
    obtain ⟨hanswer, hcall⟩ := h.cut c.1 c.2
    obtain ⟨houtcomes, hlast⟩ := ih hcall
    exact ⟨congrArg₂ List.cons hanswer houtcomes, hlast⟩

theorem outcomes (h : m.Agrees kept m') (calls : List Call) :
    m.outcomes calls = m'.outcomes calls ∧
      (calls.foldl Machine.call m).Agrees kept (calls.foldl Machine.call m') := by
  have hcuts := h.cuts (calls.map (m.routine.budget, ·))
  conv at hcuts in (m'.cuts _) => rw [h.routine]
  rwa [cuts_budget, h.routine, cuts_budget] at hcuts

end Agrees
end Machine

/-! ## Starting values -/

/-- The program does not load the slot, and its value does not fit the number format. -/
def Program.Drops (p : Program) (N : Type) [Scalar N] (i : Nat) : Prop :=
  i ∉ p.loads ∧
    ∃ slot, p.slots[i]? = some slot ∧ (Complex.ofFloat? slot.value : Option (Complex N)) = none

theorem Routine.initial_of_drops {N : Type} [Scalar N] {p : Program} {bindings : Bindings}
    {inversion : Option Inversion} {r : Routine N} (h : ofProgram p bindings inversion = .ok r)
    {i : Nat} (hi : p.Drops N i) : r.initial[i]? = some Complex.zero := by
  obtain ⟨-, slot, hslot, hfit⟩ := hi
  rw [(ofProgram_eq h).2.2, List.getElem?_toArray, List.getElem?_map, hslot, Option.map_some,
    literalValue, hfit]
  rfl

/-- Machines in states that agree on what the routine loads answer all calls alike and stay in such
states.  So it makes no difference which values the slots start with that a program drops, except to
those who ask for them.  The same holds of calls that are cut after any number of instructions. -/
theorem Machine.unread_unnoticed (N : Type) [Scalar N] :
    (∀ (r : Routine N) (s t : State N), s.Agrees (· ∈ r.loads) t →
      (∀ calls, outcomes ⟨r, s⟩ calls = outcomes ⟨r, t⟩ calls ∧
        (calls.foldl call ⟨r, s⟩).state.Agrees (· ∈ r.loads)
          (calls.foldl call ⟨r, t⟩).state) ∧
      ∀ calls, (cuts ⟨r, s⟩ calls).1 = (cuts ⟨r, t⟩ calls).1 ∧
        (cuts ⟨r, s⟩ calls).2.state.Agrees (· ∈ r.loads) (cuts ⟨r, t⟩ calls).2.state) ∧
      ∀ (p : Program) (bindings : Bindings) (inversion : Option Inversion) (r : Routine N),
        Routine.ofProgram p bindings inversion = .ok r →
          (∀ i, p.Drops N i → r.initial[i]? = some Complex.zero) ∧
            ∀ initial : Array (Complex N), initial.size = r.initial.size →
              (∀ i, ¬ p.Drops N i → initial[i]? = r.initial[i]?) → ∀ random,
                let m := start r random
                let m' : Machine N := ⟨r, .initial initial random⟩
                (∀ calls, m.outcomes calls = m'.outcomes calls ∧
                  (calls.foldl call m).state.Agrees (¬ p.Drops N ·)
                    (calls.foldl call m').state ∧
                  ∀ name, (∀ i, m.slotOf? name = some i → ¬ p.Drops N i) →
                    (calls.foldl call m).named? name = (calls.foldl call m').named? name) ∧
                ∀ calls, (m.cuts calls).1 = (m'.cuts calls).1 ∧
                  (m.cuts calls).2.state.Agrees (¬ p.Drops N ·) (m'.cuts calls).2.state := by
  constructor
  · intro r s t h
    have hmachine : Agrees (· ∈ r.loads) ⟨r, s⟩ ⟨r, t⟩ := ⟨rfl, fun _ hi => hi, h⟩
    exact ⟨fun calls => (hmachine.outcomes calls).imp_right Agrees.state,
      fun calls => (hmachine.cuts calls).imp_right Agrees.state⟩
  · intro p bindings inversion r hr
    refine ⟨fun i => Routine.initial_of_drops hr, fun initial hsize hinitial random => ?_⟩
    intro m m'
    have hloads : ∀ i ∈ r.loads, ¬ p.Drops N i := by
      rw [(Routine.ofProgram_eq hr).1.loads]
      exact fun i hi hdrop => hdrop.1 (List.mem_toArray.mp hi)
    have hmachine : m.Agrees (¬ p.Drops N ·) m' :=
      ⟨rfl, hloads, rfl, hsize.symm, fun i hi => (hinitial i hi).symm⟩
    refine ⟨fun calls => ?_, fun calls => (hmachine.cuts calls).imp_right Agrees.state⟩
    obtain ⟨houtcomes, hlast⟩ := hmachine.outcomes calls
    refine ⟨houtcomes, hlast.state, fun name hname => ?_⟩
    have hslot : (calls.foldl call m).slotOf? name = m.slotOf? name := by
      rw [slotOf?, routine_foldl, slotOf?]
    have hslot' : (calls.foldl call m').slotOf? name = m.slotOf? name := by
      rw [slotOf?, ← hlast.routine, ← slotOf?, hslot]
    rw [named?, named?, hslot, hslot']
    cases hfound : m.slotOf? name with
    | none => rfl
    | some i => exact hlast.state.vars i (hname i hfound)

/-- With 29 bits behind the point, the limit of iterations does not fit, and `z=pixel` does not
load it. -/
theorem unread_unnoticed_maxIt :
    let scale : Scale := ⟨29, by decide, by decide⟩
    let p : Program := ⟨"z=pixel", [.load, .store], Compile.Draft.builtinSlots {},
      [Builtin.pixel.slot], [Builtin.z.slot], [], false, {}⟩
    let calls : List Call := [.pixel { coord := ⟨1, 2⟩ }, .iterate]
    p.Drops (Fixed scale) Builtin.maxIt.slot ∧
      ∃ r : Routine (Fixed scale), Routine.ofProgram p {} none = .ok r ∧
        let m := Machine.start r .initial
        let m' : Machine (Fixed scale) :=
          ⟨r, .initial (r.initial.setIfInBounds Builtin.maxIt.slot (.real Scalar.one)) .initial⟩
        m.state.Agrees (· ∈ r.loads) m'.state ∧
          (calls.foldl Machine.call m).state.Agrees (· ∈ r.loads)
            (calls.foldl Machine.call m').state ∧
          m.outcomes calls = m'.outcomes calls ∧
          (m.cuts [(1, .iterate)]).2.state.Agrees (· ∈ r.loads)
            (m'.cuts [(1, .iterate)]).2.state := by
  intro scale p calls
  have hslot : p.slots[Builtin.maxIt.slot]? =
      some ⟨"maxit", .predefined, ⟨Float.ofNat 150, 0⟩⟩ := rfl
  have hfit : (Complex.ofFloat? ⟨Float.ofNat 150, 0⟩ : Option (Complex (Fixed scale))) = none := by
    decide +kernel
  have hdrop : p.Drops (Fixed scale) Builtin.maxIt.slot := ⟨by decide, _, hslot, hfit⟩
  have hok : (Routine.ofProgram p {} none : Except String (Routine (Fixed scale))).isOk = true := by
    decide +kernel
  cases hr : (Routine.ofProgram p {} none : Except String (Routine (Fixed scale))) with
  | error name =>
    rw [hr] at hok
    cases hok
  | ok r =>
    refine ⟨hdrop, r, rfl, ?_⟩
    intro m m'
    obtain ⟨hany, hprogram⟩ := Machine.unread_unnoticed (Fixed scale)
    obtain ⟨-, hinitial⟩ := hprogram p {} none r hr
    have hset {i : Nat} (hi : i ≠ Builtin.maxIt.slot) :
        (r.initial.setIfInBounds Builtin.maxIt.slot (.real Scalar.one))[i]? = r.initial[i]? := by
      rw [Array.getElem?_setIfInBounds_ne hi.symm]
    have hloads : ∀ i ∈ r.loads, i ≠ Builtin.maxIt.slot := by
      rw [(Routine.ofProgram_eq hr).1.loads]
      decide
    have hstate : m.state.Agrees (· ∈ r.loads) m'.state :=
      ⟨rfl, (Array.size_setIfInBounds ..).symm, fun i hi => (hset (hloads i hi)).symm⟩
    have hcalls := hinitial _ (Array.size_setIfInBounds ..)
      (fun i hi => hset fun heq => hi (heq ▸ hdrop)) .initial
    obtain ⟨hwhole, hcut⟩ := hany r _ _ hstate
    exact ⟨hstate, (hwhole calls).2, (hcalls.1 calls).1, (hcut [(1, .iterate)]).2⟩

end FractalFormula
