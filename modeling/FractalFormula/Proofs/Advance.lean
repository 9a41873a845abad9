/-
How far a call goes.

A jump cursor that is not behind its instruction leads forward, so a call executes no instruction
twice (`Machine.advances_of_ahead`).  The one exception is the entry of an `endif`: it leads nowhere
and its place is the start of the code.  Only a cursor that has strayed gets there, and
`Formula.calls_advance` says for which calls that cannot be.
-/
import FractalFormula.Proofs.Cursor
import Mathlib.Data.List.Perm.Subperm

namespace FractalFormula

/-- The jumps that the cursor has passed include those before the instruction. -/
def Place.Ahead (here : Place) (code : List Opcode) : Prop :=
  (Place.index code here.op).jumps ≤ here.jumps

theorem Place.LinesUp.ahead {here : Place} {code : List Opcode} (h : here.LinesUp code) :
    here.Ahead code :=
  Nat.le_of_eq (congrArg Place.jumps h).symm

namespace State

variable {N : Type} [Scalar N]

/-- Whether an instruction goes where its entry leads. -/
def takes (s : State N) : Opcode → Bool
  | .jump => true
  | .jumpOnFalse => Scalar.isZero s.value.x
  | .jumpOnTrue => !Scalar.isZero s.value.x
  | _ => false

theorem isJump_of_takes {s : State N} {op : Opcode} (h : s.takes op = true) : op.isJump = true := by
  cases op <;> first | rfl | cases h

theorem here_of_takes (r : Routine N) {s : State N} {op : Opcode} (h : s.takes op = true) :
    (s.execute r op).advance.here = (s.jump r.jumps[s.here.jumps]?).advance.here := by
  cases op with
  | jump => rfl
  | jumpOnFalse =>
    have hzero : Scalar.isZero s.value.x = true := h
    rw [execute, if_pos hzero]
  | jumpOnTrue =>
    have hzero : ¬ Scalar.isZero s.value.x = true := by simpa [takes] using h
    rw [execute, if_neg hzero]
  | _ => cases h

theorem here_of_not_takes (r : Routine N) {s : State N} {op : Opcode} (h : s.takes op = false) :
    (s.execute r op).advance.here = s.here.past [op] := by
  cases hjump : op.isJump with
  | false => exact here_execute r hjump s
  | true =>
    have hskip : s.skipJump.advance.here = s.here.past [op] := (Place.past_jump hjump s.here).symm
    cases op with
    | jump => cases h
    | jumpOnFalse =>
      have hzero : ¬ Scalar.isZero s.value.x = true := Bool.eq_false_iff.mp h
      rw [execute, if_neg hzero, hskip]
    | jumpOnTrue =>
      have hzero : Scalar.isZero s.value.x = true := by simpa [takes] using h
      rw [execute, if_pos hzero, hskip]
    | label => exact hskip
    | _ => cases hjump

/-! ## Runs without a bound -/

/-- The states in which a run is about to execute an instruction, in order. -/
def trace (r : Routine N) (initOnly : Bool) : Nat → State N → List (State N)
  | 0, _ => []
  | budget + 1, s =>
    match r.code[s.here.op]? with
    | none => []
    | some op =>
      let next := (s.execute r op).advance
      s :: if next.overflow || (initOnly && op == .endInit) then [] else trace r initOnly budget next

theorem visits_eq_trace (r : Routine N) (initOnly : Bool) : ∀ (budget : Nat) (s : State N),
    s.visits r initOnly budget = (s.trace r initOnly budget).map State.here := by
  intro budget
  induction budget with
  | zero => exact fun _ => rfl
  | succ budget ih =>
    intro s
    rw [visits, trace]
    cases r.code[s.here.op]? with
    | none => rfl
    | some op =>
      dsimp only
      split
      · rfl
      · rw [ih]
        rfl

/-- With more budget a run goes on where it had to stop, and not at all if it came to an end. -/
theorem trace_add (r : Routine N) (initOnly : Bool) (more : Nat) : ∀ (budget : Nat) (s : State N),
    s.trace r initOnly budget <+: s.trace r initOnly (budget + more) ∧
      ((s.trace r initOnly budget).length < budget →
        s.trace r initOnly (budget + more) = s.trace r initOnly budget ∧
          s.run r initOnly (budget + more) = s.run r initOnly budget) := by
  intro budget
  induction budget with
  | zero => exact fun _ => ⟨List.nil_prefix, fun h => absurd h (Nat.not_lt_zero _)⟩
  | succ budget ih =>
    intro s
    rw [Nat.succ_add, trace, trace, run, run]
    cases r.code[s.here.op]? with
    | none => exact ⟨List.prefix_refl _, fun _ => ⟨rfl, rfl⟩⟩
    | some op =>
      dsimp only
      split
      · exact ⟨List.prefix_refl _, fun _ => ⟨rfl, rfl⟩⟩
      · obtain ⟨hbegins, hend⟩ := ih (s.execute r op).advance
        refine ⟨List.cons_prefix_cons.mpr ⟨rfl, hbegins⟩, fun hlt => ?_⟩
        obtain ⟨htrace, hrun⟩ := hend (Nat.lt_of_succ_lt_succ hlt)
        exact ⟨congrArg (s :: ·) htrace, hrun⟩

theorem op_lt_of_mem_trace {r : Routine N} {initOnly : Bool} : ∀ {budget : Nat} {s t : State N},
    t ∈ s.trace r initOnly budget → t.here.op < r.code.size := by
  intro budget
  induction budget with
  | zero => exact fun h => absurd h List.not_mem_nil
  | succ budget ih =>
    intro s t h
    rw [trace] at h
    cases hcode : r.code[s.here.op]? with
    | none =>
      rw [hcode] at h
      exact absurd h List.not_mem_nil
    | some op =>
      rw [hcode] at h
      rcases List.mem_cons.mp h with rfl | h
      · exact (Array.getElem?_eq_some_iff.mp hcode).1
      · split at h
        · exact absurd h List.not_mem_nil
        · exact ih h

/-- The instruction is a jump that goes by the entry of an `endif`. -/
def Misled (r : Routine N) (s : State N) : Prop :=
  ∃ op e, r.code[s.here.op]? = some op ∧ s.takes op = true ∧ r.jumps[s.here.jumps]? = some e ∧
    e.word = .endIf

/-- A jump that is taken leads to a jump behind the instruction. -/
def Leaps (r : Routine N) (s : State N) : Prop :=
  ∀ op e, r.code[s.here.op]? = some op → s.takes op = true → r.jumps[s.here.jumps]? = some e →
    s.here.op < e.target.op ∧ ∃ op', r.code[e.target.op]? = some op' ∧ op'.isJump = true

/-! ## Cursors that are not behind -/

variable {p : Program} {r : Routine N}

theorem leaps_of_ahead (ho : p.Ordered) (hr : r.Performs p) {s : State N} (hs : s.here.Ahead p.code)
    (hno : ¬ s.Misled r) : s.Leaps r := by
  intro op e hop htakes he
  have hne : e.word ≠ .endIf := fun hend => hno ⟨op, e, hop, htakes, he, hend⟩
  rw [hr.jumps, List.getElem?_toArray] at he
  obtain ⟨⟨op', hop', hjump'⟩, -, hbehind⟩ := ho.forward he hne
  refine ⟨hbehind _ hs, op', ?_, hjump'⟩
  rw [hr.code, List.getElem?_toArray, hop']

/-- An entry of an `endif` leads to the start of the code. -/
theorem not_leaps_of_misled (ho : p.Ordered) (hr : r.Performs p) {s : State N} (h : s.Misled r) :
    ¬ s.Leaps r := by
  obtain ⟨op, e, hop, htakes, he, hend⟩ := h
  intro hleaps
  have hlt := (hleaps op e hop htakes he).1
  rw [hr.jumps, List.getElem?_toArray] at he
  rw [ho.closed e (List.mem_of_getElem? he) hend] at hlt
  exact absurd hlt (Nat.not_lt_zero _)

theorem ahead_execute (ho : p.Ordered) (hr : r.Performs p) {s : State N} {op : Opcode}
    (hs : s.here.Ahead p.code) (hop : p.code[s.here.op]? = some op) (hno : ¬ s.Misled r) :
    (s.execute r op).advance.here.Ahead p.code ∧
      s.here.op < (s.execute r op).advance.here.op := by
  have hnext := Place.index_succ hop
  cases htakes : s.takes op with
  | false =>
    rw [here_of_not_takes r htakes]
    refine ⟨?_, Nat.lt_succ_self _⟩
    show (Place.index p.code (s.here.op + 1)).jumps ≤ s.here.jumps + _
    rw [hnext]
    exact Nat.add_le_add_right hs _
  | true =>
    rw [here_of_takes r htakes]
    cases he : r.jumps[s.here.jumps]? with
    | none =>
      -- the cursor has passed all entries, and there are no more jumps than entries
      refine ⟨?_, Nat.lt_succ_self _⟩
      show (Place.index p.code (s.here.op + 1)).jumps ≤ s.here.jumps
      rw [hr.jumps, List.getElem?_toArray] at he
      have hpassed := List.getElem?_eq_none_iff.mp he
      rw [ho.count] at hpassed
      refine Nat.le_trans ?_ hpassed
      show 0 + (p.code.take _).countP _ ≤ _
      rw [Nat.zero_add]
      exact (List.take_sublist _ _).countP_le
    | some e =>
      have hcode : r.code[s.here.op]? = some op := by rw [hr.code, List.getElem?_toArray, hop]
      have hlt := (leaps_of_ahead ho hr hs hno op e hcode htakes he).1
      have hne : e.word ≠ .endIf := fun hend => hno ⟨op, e, hcode, htakes, he, hend⟩
      rw [hr.jumps, List.getElem?_toArray] at he
      obtain ⟨-, hdest, -⟩ := ho.forward he hne
      exact ⟨Nat.le_of_eq hdest.symm, Nat.lt_succ_of_lt hlt⟩

/-- From a cursor that is not behind, a run that is never misled goes forward all the way. -/
theorem trace_of_ahead (ho : p.Ordered) (hr : r.Performs p) (initOnly : Bool) :
    ∀ (budget : Nat) (s : State N), s.here.Ahead p.code →
      (∀ t ∈ s.trace r initOnly budget, ¬ t.Misled r) →
      (s.trace r initOnly budget).Pairwise (fun t u => t.here.op < u.here.op) ∧
        ∀ t ∈ s.trace r initOnly budget, t.here.Ahead p.code ∧ s.here.op ≤ t.here.op := by
  intro budget
  induction budget with
  | zero => exact fun _ _ _ => ⟨.nil, fun _ h => absurd h List.not_mem_nil⟩
  | succ budget ih =>
    intro s hs hno
    rw [trace] at hno ⊢
    cases hcode : r.code[s.here.op]? with
    | none => exact ⟨.nil, fun _ h => absurd h List.not_mem_nil⟩
    | some op =>
      rw [hcode] at hno
      dsimp only at hno ⊢
      have hop : p.code[s.here.op]? = some op := by
        rw [← hcode, hr.code, List.getElem?_toArray]
      obtain ⟨hahead, hlt⟩ := ahead_execute ho hr hs hop (hno s List.mem_cons_self)
      by_cases hstop : ((s.execute r op).advance.overflow || (initOnly && op == .endInit)) = true
      · rw [if_pos hstop]
        refine ⟨List.pairwise_singleton _ _, fun t ht => ?_⟩
        obtain rfl := List.mem_singleton.mp ht
        exact ⟨hs, Nat.le_refl _⟩
      · rw [if_neg hstop] at hno ⊢
        obtain ⟨hpairs, hall⟩ := ih _ hahead fun t ht => hno t (List.mem_cons_of_mem _ ht)
        refine ⟨List.pairwise_cons.mpr ⟨fun t ht => ?_, hpairs⟩, fun t ht => ?_⟩
        · exact Nat.lt_of_lt_of_le hlt (hall t ht).2
        · rcases List.mem_cons.mp ht with rfl | ht
          · exact ⟨hs, Nat.le_refl _⟩
          · have := (hall t ht).2
            exact ⟨(hall t ht).1, by omega⟩

/-- Instructions that come in order are no more than there are. -/
theorem length_le_of_pairwise {r : Routine N} {initOnly : Bool} {budget : Nat} {s : State N}
    (h : (s.trace r initOnly budget).Pairwise fun t u => t.here.op < u.here.op) :
    (s.trace r initOnly budget).length ≤ r.code.size := by
  have hnodup : ((s.trace r initOnly budget).map fun t => t.here.op).Nodup :=
    List.pairwise_map.mpr (h.imp Nat.ne_of_lt)
  have hsub : ((s.trace r initOnly budget).map fun t => t.here.op) ⊆ List.range r.code.size := by
    intro n hn
    obtain ⟨t, ht, rfl⟩ := List.mem_map.mp hn
    exact List.mem_range.mpr (op_lt_of_mem_trace ht)
  have := (List.Nodup.subperm hnodup hsub).length_le
  rwa [List.length_map, List.length_range] at this

end State

/-! ## Calls -/

namespace Machine

variable {N : Type} [Scalar N]

/-- The states in which a call is about to execute an instruction, if it may execute `budget` of
them. -/
def trace (m : Machine N) (budget : Nat) : Call → List (State N)
  | .pixel p =>
    if (m.atPixel p).overflow || !m.routine.hasInit then []
    else (m.atPixel p).trace m.routine true budget
  | .iterate => if m.state.overflow then [] else m.atEntry.trace m.routine false budget

theorem visits_eq_trace (m : Machine N) (c : Call) :
    m.visits c = (m.trace m.routine.budget c).map State.here := by
  cases c with
  | pixel x =>
    rw [visits, trace]
    split
    · rfl
    · exact State.visits_eq_trace _ _ _ _
  | iterate =>
    rw [visits, trace]
    split
    · rfl
    · exact State.visits_eq_trace _ _ _ _

/-- However long it may run, a call goes forward only: from each instruction to a later one, by a
jump to just behind a later jump.  So it ends after no more instructions than there are. -/
structure Advances (m : Machine N) (c : Call) : Prop where
  increasing : ∀ budget, (m.trace budget c).Pairwise fun s t => s.here.op < t.here.op
  leaps : ∀ budget, ∀ s ∈ m.trace budget c, s.Leaps m.routine
  bounded : ∀ budget, (m.trace budget c).length ≤ m.routine.code.size
  ends : ∀ budget, m.routine.code.size < budget → m.trace budget c = m.trace m.routine.budget c

/-- Some instruction of the call is a jump that goes by the entry of an `endif`. -/
def Misled (m : Machine N) (c : Call) : Prop :=
  ∃ s ∈ m.trace m.routine.budget c, s.Misled m.routine

/-- The place from which a call starts is not behind, if it executes anything. -/
def Ahead (m : Machine N) (code : List Opcode) : Prop :=
  m.state.overflow = true ∨ code.length ≤ m.state.entry.op ∨ m.state.entry.Ahead code

variable {p : Program} {m : Machine N}

/-- What a call traces is traced by a run from a place that is not behind. -/
theorem exists_trace (hr : m.routine.Performs p) (h : m.Ahead p.code) (c : Call) :
    ∃ (s : State N) (initOnly : Bool), s.here.Ahead p.code ∧
      ((∀ budget, m.trace budget c = []) ∨
        ∀ budget, m.trace budget c = s.trace m.routine initOnly budget) := by
  cases c with
  | pixel x =>
    have hstart : (m.atPixel x).here = .start := (State.still_preset _ _).here
    refine ⟨m.atPixel x, true, ?_, ?_⟩
    · rw [hstart]
      exact Nat.le_refl 0
    · by_cases hnone : ((m.atPixel x).overflow || !m.routine.hasInit) = true
      · exact .inl fun _ => if_pos hnone
      · exact .inr fun _ => if_neg hnone
  | iterate =>
    by_cases hover : m.state.overflow = true
    · exact ⟨{ m.state with here := .start }, false, Nat.le_refl 0, .inl fun _ => if_pos hover⟩
    · have htrace (budget : Nat) :
          m.trace budget .iterate = m.atEntry.trace m.routine false budget := if_neg hover
      rcases h.resolve_left hover with hlong | hahead
      · refine ⟨{ m.state with here := .start }, false, Nat.le_refl 0, .inl fun budget => ?_⟩
        have hnone : m.routine.code[m.atEntry.here.op]? = none := by
          rw [m.still_atEntry.1, hr.code, List.getElem?_toArray]
          exact List.getElem?_eq_none hlong
        rw [htrace]
        cases budget with
        | zero => rfl
        | succ budget => rw [State.trace, hnone]
      · refine ⟨m.atEntry, false, ?_, .inr htrace⟩
        rwa [m.still_atEntry.1]

theorem advances_iff (ho : p.Ordered) (hr : m.routine.Performs p) (h : m.Ahead p.code) (c : Call) :
    m.Advances c ↔ ¬ m.Misled c := by
  constructor
  · rintro hadvances ⟨s, hs, hmisled⟩
    exact State.not_leaps_of_misled ho hr hmisled (hadvances.leaps _ s hs)
  · intro hno
    have hno : ∀ s ∈ m.trace m.routine.budget c, ¬ s.Misled m.routine :=
      fun s hs hmisled => hno ⟨s, hs, hmisled⟩
    obtain ⟨s, initOnly, hahead, hnone | htrace⟩ := exists_trace hr h c
    · refine ⟨fun budget => ?_, fun budget t ht => ?_, fun budget => ?_, fun budget _ => ?_⟩
      · rw [hnone]
        exact .nil
      · rw [hnone] at ht
        exact absurd ht List.not_mem_nil
      · rw [hnone]
        exact Nat.zero_le _
      · rw [hnone, hnone]
    · rw [htrace] at hno
      obtain ⟨hpairs, hall⟩ := State.trace_of_ahead ho hr initOnly _ s hahead hno
      have hsize : m.routine.code.size < m.routine.budget := by
        rw [Routine.budget]
        omega
      have hlength := State.length_le_of_pairwise hpairs
      -- the budget of a call is more than it needs, so no budget shows more than that one
      have hwithin (budget : Nat) : (s.trace m.routine initOnly budget).Sublist
          (s.trace m.routine initOnly m.routine.budget) := by
        have hend := (State.trace_add m.routine initOnly budget m.routine.budget s).2 (by omega)
        have hbegins := (State.trace_add m.routine initOnly m.routine.budget budget s).1
        rw [Nat.add_comm, hend.1] at hbegins
        exact hbegins.sublist
      have hpairs' (budget : Nat) := hpairs.sublist (hwithin budget)
      refine ⟨fun budget => ?_, fun budget t ht => ?_, fun budget => ?_, fun budget hlt => ?_⟩
      · rw [htrace]
        exact hpairs' budget
      · rw [htrace] at ht
        have ht := (hwithin budget).subset ht
        exact State.leaps_of_ahead ho hr (hall t ht).1 (hno t ht)
      · rw [htrace]
        exact State.length_le_of_pairwise (hpairs' budget)
      · have hlength' := State.length_le_of_pairwise (hpairs' budget)
        have hend := (State.trace_add m.routine initOnly m.routine.budget budget s).2 (by omega)
        have hend' := (State.trace_add m.routine initOnly budget m.routine.budget s).2 (by omega)
        rw [htrace, htrace, ← hend.1, Nat.add_comm, hend'.1]

/-- Cursors that line up are never misled: the entry of an `endif` belongs to its label. -/
theorem not_misled_of_lines_up (hp : p.Linked) (ho : p.Ordered) (hr : m.routine.Performs p)
    {c : Call} (h : ∀ here ∈ m.visits c, here.op < p.code.length ∧ here.LinesUp p.code) :
    ¬ m.Misled c := by
  rintro ⟨s, hs, op, e, hop, htakes, he, hend⟩
  have hup : s.here.LinesUp p.code := by
    refine (h s.here ?_).2
    rw [visits_eq_trace]
    exact List.mem_map_of_mem hs
  rw [hr.code, List.getElem?_toArray] at hop
  have hlabel : op ≠ .label := fun hlabel => by
    rw [hlabel] at htakes
    cases htakes
  obtain ⟨n, hlt, hn, e', he', hplace⟩ := hp.lands hop (State.isJump_of_takes htakes) hlabel
  rw [hr.jumps, List.getElem?_toArray, hup] at he
  obtain rfl := Option.some.inj (he'.symm.trans he)
  rw [ho.closed e' (List.mem_of_getElem? he) hend] at hplace
  have hback : 1 = (Place.index p.code (n + 1)).op := congrArg Place.op hplace
  rw [Place.index_op hn] at hback
  omega

/-! ## Sequences of calls -/

theorem op_entry_run (r : Routine N) (initOnly : Bool) : ∀ (budget : Nat) (s : State N),
    (s.run r initOnly budget).entry.op = s.entry.op := by
  intro budget
  induction budget with
  | zero => exact fun _ => rfl
  | succ budget ih =>
    intro s
    have hstep (op : Opcode) : (s.execute r op).advance.entry.op = s.entry.op := by
      rw [State.entry_execute]
      split <;> rfl
    rw [State.run]
    split
    · rfl
    · dsimp only
      split
      · exact hstep _
      · rw [ih, hstep]

theorem op_entry_iterate (h : m.state.overflow = true ∨ m.state.entry.op = 0) :
    (m.call .iterate).state.overflow = true ∨ (m.call .iterate).state.entry.op = 0 := by
  by_cases hover : m.state.overflow = true
  · rw [call_iterate_of_overflow hover]
    exact .inl hover
  · rw [call_iterate hover]
    refine .inr ?_
    show (State.run m.routine false _ m.atEntry).entry.op = 0
    rw [op_entry_run, m.still_atEntry.2]
    exact h.resolve_left hover

/-- By induction on the calls: without a pixel, iterations begin at the first instruction. -/
theorem op_entry_foldl {before : List Call} (hno : ∀ c ∈ before, c = .iterate) :
    ∀ {m : Machine N}, m.state.overflow = true ∨ m.state.entry.op = 0 →
      (before.foldl call m).state.overflow = true ∨ (before.foldl call m).state.entry.op = 0 := by
  induction before with
  | nil => exact fun h => h
  | cons c before ih =>
    obtain ⟨rfl, hrest⟩ := List.forall_mem_cons.mp hno
    exact fun h => ih hrest (op_entry_iterate h)

/-- Whatever calls come before, a call does not start from a place that is behind. -/
theorem ahead_foldl (hp : p.Linked) (hr : m.routine.Performs p) (h : m.Fresh) (before : List Call) :
    (before.foldl call m).Ahead p.code := by
  by_cases hpixel : ∃ x, .pixel x ∈ before
  · obtain ⟨x, hx⟩ := hpixel
    exact (settled_of_pixel_mem hp hx hr).ready.imp_right (Or.imp_right Place.LinesUp.ahead)
  · have hno : ∀ c ∈ before, c = .iterate := by
      intro c hc
      cases c with
      | pixel x => exact absurd ⟨x, hc⟩ hpixel
      | iterate => rfl
    have hzero := op_entry_foldl hno (h.imp_right fun hentry => congrArg Place.op hentry)
    refine hzero.imp_right fun hop => .inr ?_
    rw [Place.Ahead, hop]
    exact Nat.zero_le _

end Machine

/-! ## Formulas -/

namespace Engine

def Advances (e : Engine) (c : Call) : Prop :=
  e.Satisfies fun _ _ m => m.Advances c

def Misled (e : Engine) (c : Call) : Prop :=
  e.Satisfies fun _ _ m => m.Misled c

theorem Advances.visits {e : Engine} {c : Call} (h : e.Advances c) :
    (e.visits c).Pairwise fun here there => here.op < there.op := by
  have visited {N : Type} [Scalar N] {m : Machine N} (h : m.Advances c) :
      (m.visits c).Pairwise fun here there => here.op < there.op := by
    rw [m.visits_eq_trace]
    exact List.pairwise_map.mpr (h.increasing _)
  cases e with
  | float m => exact visited h
  | fixed scale m => exact visited h
  | extended m => exact visited h

end Engine

namespace Formula

/-- A call of a loaded formula goes forward only, if a pixel was set up before, or if it is the first
call, or if the init section has no jumps.  In every sequence of calls those do that are not
misled. -/
theorem calls_advance {text : String} {start : Nat} {s : Settings} {f : Formula}
    (h : (load text start s).result = .ok f) (before : List Call) (c : Call) :
    (before = [] ∨ (∃ x, .pixel x ∈ c :: before) ∨ ¬ f.BranchesInInit →
        (f.after before).Advances c) ∧
      ((f.after before).Advances c ↔ ¬ (f.after before).Misled c) := by
  obtain ⟨offset, tally, hcheck, hresolve, random, hengine⟩ := exists_resolved h
  have hchecked := checked_of_check hcheck s.environment
  have hp := Program.linked_of_resolve hchecked hresolve
  have ho := Program.ordered_of_resolve hchecked hresolve
  obtain ⟨N, _, wrap, m, hwrap, he, hr, hentry⟩ := Engine.exists_machine hengine
  have hafter : f.after before = wrap (before.foldl Machine.call m) := by
    rw [after, he, hwrap.foldl]
  have hr' : (before.foldl Machine.call m).routine.Performs f.program := by
    rwa [Machine.routine_foldl]
  have hiff : (f.after before).Advances c ↔ ¬ (f.after before).Misled c := by
    rw [hafter, Engine.Advances, Engine.Misled, hwrap.satisfies, hwrap.satisfies]
    exact Machine.advances_iff ho hr' (Machine.ahead_foldl hp hr (.inr hentry) before) c
  refine ⟨fun hc => hiff.mpr ?_, hiff⟩
  have hup := lines_up_after hp hr hentry hc
  rw [hafter, Engine.Misled, hwrap.satisfies]
  exact Machine.not_misled_of_lines_up hp ho hr' hup

/-- An entry whose init section branches and whose second iteration meets an `endif` instead of an
`if`. -/
def circling : String :=
  "t \x7b\nz\nz=z+(z==z)\nif(z==z)\nif(z<z)\nendif\nendif:\nif(z==z)\nendif\n\x7d"

theorem exists_circling : ∃ f, (load circling 0 {}).result = .ok f ∧
    (((f.after [.iterate]).visits .iterate).map Place.op)[17]? = some 17 ∧
    (((f.after [.iterate]).visits .iterate).map Place.op)[18]? = some 1 := by
  have hbound : ({} : Settings).bindings.unbindable? = none := rfl
  have hheader : Header.read circling 0 = .ok ⟨"t", .none, none, 3⟩ := rfl
  have hstream : Token.stream (Cursor.seek circling 3) =
      Token.firstTokens 80 (Cursor.seek circling 3) :=
    Token.stream_eq_firstTokens (by decide +kernel)
  have hvisits : ∃ f, (load circling 0 {}).result = .ok f ∧
      ((((f.after [.iterate]).visits .iterate).map Place.op)[17]?,
        (((f.after [.iterate]).visits .iterate).map Place.op)[18]?) = (some 17, some 1) := by
    refine exists_loaded ?_
    rw [load, hbound, hheader]
    dsimp only
    rw [check, build, Token.body, hstream]
    decide +kernel
  obtain ⟨f, hf, hpair⟩ := hvisits
  exact ⟨f, hf, congrArg Prod.fst hpair, congrArg Prod.snd hpair⟩

theorem calls_advance_after_pixel : ∃ f, (load circling 0 {}).result = .ok f ∧
    ∀ x, (f.after [.pixel x]).Advances .iterate := by
  obtain ⟨f, hf, -⟩ := exists_circling
  exact ⟨f, hf, fun x => (calls_advance hf [.pixel x] .iterate).1
    (Or.inr (Or.inl ⟨x, List.mem_cons_of_mem _ List.mem_cons_self⟩))⟩

/-- Two iterations without a pixel: the second goes back to the start of the code. -/
theorem exists_backward_jump : ∃ f, (load circling 0 {}).result = .ok f ∧
    ¬ (f.after [.iterate]).Advances .iterate := by
  obtain ⟨f, hf, hseventeen, hone⟩ := exists_circling
  refine ⟨f, hf, fun h => ?_⟩
  obtain ⟨hlt, hop⟩ := List.getElem?_eq_some_iff.mp hseventeen
  obtain ⟨hlt', hop'⟩ := List.getElem?_eq_some_iff.mp hone
  have hforward := List.pairwise_iff_getElem.mp (List.pairwise_map.mpr h.visits) 17 18 hlt hlt'
    (Nat.lt_succ_self 17)
  rw [hop, hop'] at hforward
  exact absurd hforward (by decide)

end Formula
end FractalFormula
