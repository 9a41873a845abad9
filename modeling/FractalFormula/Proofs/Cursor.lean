/-
The cursors of a running machine.

A place lines up with the code if its cursors count what stands before its instruction (`LinesUp`).
Each instruction of a linked program keeps that (`lines_up_execute`), so it holds throughout a run
that starts from such a place (`lines_up_run`).  Between runs it hangs on the saved entry, of which
the end of the init section sets one cursor only: `Formula.cursors_line_up` says for which sequences
of calls the entry is sound, and that others can go wrong.
-/
import FractalFormula.Load.Formula
import FractalFormula.Proofs.Linked
import FractalFormula.Proofs.Motion
import Mathlib.Data.List.NodupEquivFin

namespace FractalFormula

/-- There is one end of the init section at most. -/
theorem Program.Linked.endInit_inj {p : Program} (hp : p.Linked) {i j : Nat}
    (hi : p.code[i]? = some .endInit) (hj : p.code[j]? = some .endInit) : i = j := by
  have hafter {i j : Nat} (hlt : i < j) (hi : p.code[i]? = some .endInit)
      (hj : p.code[j]? = some .endInit) : False := by
    obtain ⟨hi, hiop⟩ := List.getElem?_eq_some_iff.mp hi
    obtain ⟨hj, hjop⟩ := List.getElem?_eq_some_iff.mp hj
    have htwice : List.Duplicate .endInit p.code :=
      List.duplicate_iff_exists_distinct_get.mpr ⟨⟨i, hi⟩, ⟨j, hj⟩, hlt, hiop.symm, hjop.symm⟩
    have hcount := List.duplicate_iff_two_le_count.mp htwice
    exact absurd hp.ends (Nat.not_le_of_lt hcount)
  rcases Nat.lt_trichotomy i j with hlt | heq | hlt
  · exact (hafter hlt hi hj).elim
  · exact heq
  · exact (hafter hlt hj hi).elim

/-- The cursors are those that the code before the instruction leaves. -/
def Place.LinesUp (here : Place) (code : List Opcode) : Prop :=
  here = Place.index code here.op

/-- What a run over some places does to the saved entry: it takes over the jumps of an end of the
init section among them, if there is one. -/
def Place.Saves (code : List Opcode) (visited : List Place) (entry entry' : Place) : Prop :=
  (∀ here ∈ visited, code[here.op]? ≠ some .endInit) ∧ entry' = entry ∨
    ∃ here ∈ visited, code[here.op]? = some .endInit ∧ entry' = { entry with jumps := here.jumps }

theorem Place.Saves.nil {code : List Opcode} (entry : Place) : Saves code [] entry entry :=
  Or.inl ⟨fun _ h => absurd h List.not_mem_nil, rfl⟩

theorem Place.Saves.cons {code : List Opcode} {here : Place} {visited : List Place} {op : Opcode}
    {entry entry' : Place} (hop : code[here.op]? = some op)
    (h : Saves code visited (if op = .endInit then { entry with jumps := here.jumps } else entry)
      entry') : Saves code (here :: visited) entry entry' := by
  rcases h with ⟨hno, hentry⟩ | ⟨there, hmem, hend, hentry⟩
  · by_cases hend : op = .endInit
    · rw [if_pos hend] at hentry
      exact Or.inr ⟨here, List.mem_cons_self, hend ▸ hop, hentry⟩
    · rw [if_neg hend] at hentry
      refine Or.inl ⟨fun there hthere => ?_, hentry⟩
      rcases List.mem_cons.mp hthere with rfl | hthere
      · rw [hop]
        exact fun h => hend (Option.some.inj h)
      · exact hno there hthere
  · refine Or.inr ⟨there, List.mem_cons_of_mem _ hmem, hend, hentry.trans ?_⟩
    split <;> rfl

/-- The routine has the tables of the program. -/
structure Routine.Performs {N : Type} (r : Routine N) (p : Program) : Prop where
  code : r.code = p.code.toArray
  loads : r.loads = p.loads.toArray
  stores : r.stores = p.stores.toArray
  jumps : r.jumps = p.jumps.toArray
  hasInit : r.hasInit = p.hasInit

namespace State

variable {N : Type} [Scalar N]

/-! ## Runs -/

/-- The places at which a run is about to execute an instruction, in order. -/
def visits (r : Routine N) (initOnly : Bool) : Nat → State N → List Place
  | 0, _ => []
  | budget + 1, s =>
    match r.code[s.here.op]? with
    | none => []
    | some op =>
      let next := (s.execute r op).advance
      s.here ::
        if next.overflow || (initOnly && op == .endInit) then [] else visits r initOnly budget next

variable {p : Program} {r : Routine N}

/-- An instruction leads forward, to a place that lines up if its own does. -/
theorem lines_up_execute (hp : p.Linked) (hr : r.Performs p) {s : State N} {op : Opcode}
    (hs : s.here.LinesUp p.code) (hop : p.code[s.here.op]? = some op) :
    (s.execute r op).advance.here.LinesUp p.code ∧
      s.here.op < (s.execute r op).advance.here.op := by
  have hlt : s.here.op < p.code.length := (List.getElem?_eq_some_iff.mp hop).1
  have hpast : s.here.past [op] = Place.index p.code (s.here.op + 1) := by
    rw [Place.index_succ hop, ← hs]
  have hindex {n : Nat} (hn : n ≤ p.code.length) {here : Place} (h : here = Place.index p.code n) :
      here.LinesUp p.code ∧ here.op = n := by
    have hop : here.op = n := by rw [h, Place.index_op hn]
    exact ⟨by rw [Place.LinesUp, hop, h], hop⟩
  have behind (h : (s.execute r op).advance.here = s.here.past [op]) :
      (s.execute r op).advance.here.LinesUp p.code ∧
        s.here.op < (s.execute r op).advance.here.op := by
    obtain ⟨hup, hn⟩ := hindex hlt (h.trans hpast)
    exact ⟨hup, by omega⟩
  cases hjump : op.isJump with
  | false => exact behind (here_execute r hjump s)
  | true =>
    rcases here_execute_jump r hjump s with h | ⟨hlabel, h⟩
    · exact behind h
    · obtain ⟨m, hnm, hm, e, he, hplace⟩ := hp.lands hop hjump hlabel
      have hentry : r.jumps[s.here.jumps]? = some e := by
        rw [hs, hr.jumps, List.getElem?_toArray, he]
      rw [hentry] at h
      obtain ⟨hup, hn⟩ := hindex hm (h.trans hplace)
      exact ⟨hup, by omega⟩

/-- How a run goes from a place that lines up: all places do, the entry takes over the jumps of the
last end of an init section, and the run comes to its end before its budget does. -/
theorem lines_up_run (hp : p.Linked) (hr : r.Performs p) (initOnly : Bool) :
    ∀ (budget : Nat) (s : State N), s.here.LinesUp p.code →
      p.code.length < s.here.op + budget →
      let visited := s.visits r initOnly budget
      let last := s.run r initOnly budget
      (∀ here ∈ visited, here.op < p.code.length ∧ here.LinesUp p.code) ∧
        Place.Saves p.code visited s.entry last.entry ∧
        (last.overflow = true ∨ p.code.length ≤ last.here.op ∨
          initOnly = true ∧ ∃ n, p.code[n]? = some .endInit ∧
            last.here = Place.index p.code (n + 1) ∧
            last.entry.jumps = (Place.index p.code n).jumps) := by
  intro budget
  induction budget with
  | zero =>
    intro s _ hbudget
    have hle : p.code.length ≤ s.here.op := by omega
    exact ⟨fun _ h => absurd h List.not_mem_nil, .nil _, Or.inr (Or.inl hle)⟩
  | succ budget ih =>
    intro s hs hbudget
    cases hcode : p.code[s.here.op]? with
    | none =>
      have hstop : r.code[s.here.op]? = none := by rw [hr.code, List.getElem?_toArray, hcode]
      have hle : p.code.length ≤ s.here.op := List.getElem?_eq_none_iff.mp hcode
      rw [visits, run, hstop]
      exact ⟨fun _ h => absurd h List.not_mem_nil, .nil _, Or.inr (Or.inl hle)⟩
    | some op =>
      have hstep : r.code[s.here.op]? = some op := by rw [hr.code, List.getElem?_toArray, hcode]
      have hlt : s.here.op < p.code.length := (List.getElem?_eq_some_iff.mp hcode).1
      let next := (s.execute r op).advance
      obtain ⟨hup, hforward⟩ := lines_up_execute hp hr hs hcode
      have hbudget' : p.code.length < next.here.op + budget := by
        have : s.here.op < next.here.op := hforward
        omega
      have hentry := entry_execute r op s
      have hvisit {visited : List Place} (h : ∀ here ∈ visited,
          here.op < p.code.length ∧ here.LinesUp p.code) : ∀ here ∈ s.here :: visited,
          here.op < p.code.length ∧ here.LinesUp p.code := fun here hmem =>
        (List.mem_cons.mp hmem).elim (fun heq => heq ▸ ⟨hlt, hs⟩) (h here)
      rw [visits, run, hstep]
      dsimp only
      by_cases hstop : (next.overflow || (initOnly && op == .endInit)) = true
      · rw [if_pos hstop, if_pos hstop]
        refine ⟨hvisit fun _ h => absurd h List.not_mem_nil, .cons hcode (hentry ▸ .nil _), ?_⟩
        rcases Bool.or_eq_true_iff.mp hstop with hover | hinit
        · exact Or.inl hover
        · obtain ⟨honly, hend⟩ := Bool.and_eq_true_iff.mp hinit
          obtain rfl := eq_of_beq hend
          refine Or.inr (Or.inr ⟨honly, s.here.op, hcode, ?_, ?_⟩)
          · rw [here_execute r rfl s, Place.index_succ hcode, ← hs]
          · rw [hentry, ← hs]
            rfl
      · rw [if_neg hstop, if_neg hstop]
        obtain ⟨hvisited, hsaves, hlast⟩ := ih next hup hbudget'
        exact ⟨hvisit hvisited, .cons hcode (hentry ▸ hsaves), hlast⟩

end State

/-! ## Pixels and iterations -/

/-- What a formula is asked to do. -/
inductive Call where
  | pixel (p : Pixel)
  | iterate

namespace Machine

variable {N : Type} [Scalar N]

/-- The places that a call visits. -/
def visits (m : Machine N) : Call → List Place
  | .pixel p =>
    if (m.atPixel p).overflow || !m.routine.hasInit then []
    else (m.atPixel p).visits m.routine true m.routine.budget
  | .iterate =>
    if m.state.overflow then [] else m.atEntry.visits m.routine false m.routine.budget

def call (m : Machine N) : Call → Machine N
  | .pixel p => (m.perPixel p).2
  | .iterate => m.iterate.2

theorem call_pixel_of_overflow {m : Machine N} {x : Pixel} (h : (m.atPixel x).overflow = true) :
    m.call (.pixel x) = ⟨m.routine, m.atPixel x⟩ := by
  rw [call, perPixel]
  dsimp only
  rw [if_pos h]

theorem call_pixel_of_noInit {m : Machine N} {x : Pixel} (h : ¬ (m.atPixel x).overflow = true)
    (hinit : m.routine.hasInit = false) :
    m.call (.pixel x) = ⟨m.routine, (m.atPixel x).saveEntry⟩ := by
  rw [call, perPixel]
  dsimp only
  rw [if_neg h, hinit, if_neg Bool.false_ne_true]

theorem call_pixel {m : Machine N} {x : Pixel} (h : ¬ (m.atPixel x).overflow = true)
    (hinit : m.routine.hasInit = true) :
    m.call (.pixel x) =
      ⟨m.routine, ((m.atPixel x).run m.routine true m.routine.budget).saveEntry⟩ := by
  rw [call, perPixel]
  dsimp only
  rw [if_neg h, hinit, if_pos rfl]

theorem call_iterate_of_overflow {m : Machine N} (h : m.state.overflow = true) :
    m.call .iterate = m := by
  rw [call, iterate, if_pos h]

theorem call_iterate {m : Machine N} (h : ¬ m.state.overflow = true) :
    m.call .iterate = ⟨m.routine, m.atEntry.run m.routine false m.routine.budget⟩ := by
  rw [call, iterate, if_neg h]

theorem routine_call (m : Machine N) (c : Call) : (m.call c).routine = m.routine := by
  cases c with
  | pixel x =>
    by_cases h : (m.atPixel x).overflow = true
    · rw [call_pixel_of_overflow h]
    · cases hinit : m.routine.hasInit with
      | false => rw [call_pixel_of_noInit h hinit]
      | true => rw [call_pixel h hinit]
  | iterate =>
    by_cases h : m.state.overflow = true
    · rw [call_iterate_of_overflow h]
    · rw [call_iterate h]

theorem still_atEntry (m : Machine N) :
    m.atEntry.here = m.state.entry ∧ m.atEntry.entry = m.state.entry := by
  unfold atEntry
  dsimp only
  split <;> exact ⟨rfl, rfl⟩

end Machine

theorem Routine.Performs.budget {N : Type} {r : Routine N} {p : Program} (h : r.Performs p)
    (n : Nat) : p.code.length < n + r.budget := by
  rw [Routine.budget, h.code, List.size_toArray]
  omega

namespace Machine

section

variable {N : Type}

/-- Iterations start from a place that lines up, if they start at all. -/
def Ready (m : Machine N) (code : List Opcode) : Prop :=
  m.state.overflow = true ∨ code.length ≤ m.state.entry.op ∨ m.state.entry.LinesUp code

/-- Iterations do so for good: every end of the init section finds the entry as it would leave
it. -/
def Settled (m : Machine N) (code : List Opcode) : Prop :=
  m.state.overflow = true ∨ code.length ≤ m.state.entry.op ∨
    m.state.entry.LinesUp code ∧ ∀ n, code[n]? = some .endInit →
      (Place.index code n).jumps = m.state.entry.jumps

theorem Settled.ready {m : Machine N} {code : List Opcode} (h : m.Settled code) : m.Ready code :=
  h.imp_right (Or.imp_right And.left)

/-- The place behind the end of the init section, with the jumps before it. -/
theorem index_behind_endInit {code : List Opcode} {n : Nat} (h : code[n]? = some .endInit) :
    { Place.index code (n + 1) with jumps := (Place.index code n).jumps } =
      Place.index code (n + 1) := by
  rw [Place.index_succ h]
  rfl

/-- The entry that is saved when a run of the init section has come to its end. -/
theorem settled_saveEntry {p : Program} (hp : p.Linked) (r : Routine N) {s : State N}
    (h : s.overflow = true ∨ p.code.length ≤ s.here.op ∨
      ∃ n, p.code[n]? = some .endInit ∧ s.here = Place.index p.code (n + 1) ∧
        s.entry.jumps = (Place.index p.code n).jumps) :
    Settled ⟨r, s.saveEntry⟩ p.code := by
  rcases h with hover | hlong | ⟨n, hn, hbehind, hjumps⟩
  · exact Or.inl hover
  · exact Or.inr (Or.inl hlong)
  · have hlt : n < p.code.length := (List.getElem?_eq_some_iff.mp hn).1
    have hentry : s.saveEntry.entry = Place.index p.code (n + 1) := by
      rw [State.saveEntry, hbehind, hjumps, index_behind_endInit hn]
    refine Or.inr (Or.inr ⟨?_, fun n' hn' => ?_⟩)
    · show Place.LinesUp s.saveEntry.entry p.code
      rw [hentry, Place.LinesUp, Place.index_op hlt]
    · rw [hp.endInit_inj hn' hn]
      exact hjumps.symm

end

variable {N : Type} [Scalar N] {p : Program} {m : Machine N}

theorem lines_up_pixel (hp : p.Linked) (hr : m.routine.Performs p) (x : Pixel) :
    ∀ here ∈ m.visits (.pixel x), here.op < p.code.length ∧ here.LinesUp p.code := by
  intro here hmem
  rw [visits] at hmem
  split at hmem
  · exact absurd hmem List.not_mem_nil
  · have hstart : (m.atPixel x).here = .start := (State.still_preset _ _).here
    have hs : (m.atPixel x).here.LinesUp p.code := by rw [hstart]; rfl
    exact (State.lines_up_run hp hr true _ _ hs (hr.budget _)).1 here hmem

/-- With the entry at the end of the code an iteration does nothing. -/
theorem run_of_long (hr : m.routine.Performs p) (h : p.code.length ≤ m.state.entry.op) :
    m.atEntry.visits m.routine false m.routine.budget = [] ∧
      m.atEntry.run m.routine false m.routine.budget = m.atEntry := by
  have hnone : m.routine.code[m.atEntry.here.op]? = none := by
    rw [m.still_atEntry.1, hr.code, List.getElem?_toArray]
    exact List.getElem?_eq_none h
  constructor
  · rw [Routine.budget, State.visits, hnone]
  · rw [Routine.budget, State.run, hnone]

theorem lines_up_iterate (hp : p.Linked) (hr : m.routine.Performs p) (h : m.Ready p.code) :
    ∀ here ∈ m.visits .iterate, here.op < p.code.length ∧ here.LinesUp p.code := by
  intro here hmem
  rw [visits] at hmem
  split at hmem
  · exact absurd hmem List.not_mem_nil
  · rename_i hover
    rcases h.resolve_left hover with hlong | hup
    · rw [(run_of_long hr hlong).1] at hmem
      exact absurd hmem List.not_mem_nil
    · have hs : m.atEntry.here.LinesUp p.code := by rwa [m.still_atEntry.1]
      exact (State.lines_up_run hp hr false _ _ hs (hr.budget _)).1 here hmem

/-- After a pixel the entry stands behind the init section, or there is nothing to iterate. -/
theorem settled_pixel (hp : p.Linked) (hr : m.routine.Performs p) (x : Pixel) :
    (m.call (.pixel x)).Settled p.code := by
  have hstill : State.Still _ (m.atPixel x) := State.still_preset _ _
  have hhere : (m.atPixel x).here = .start := hstill.here
  have hentry : (m.atPixel x).entry = .start := hstill.entry
  by_cases hover : (m.atPixel x).overflow = true
  · rw [call_pixel_of_overflow hover]
    exact Or.inl hover
  · cases hinit : m.routine.hasInit with
    | false =>
      have hno := hp.noInit (hr.hasInit ▸ hinit)
      rw [call_pixel_of_noInit hover hinit]
      refine Or.inr (Or.inr ⟨?_, fun n hn => absurd (List.mem_of_getElem? hn) hno⟩)
      show Place.LinesUp { (m.atPixel x).here with jumps := (m.atPixel x).entry.jumps } p.code
      rw [hhere, hentry]
      rfl
    | true =>
      have hs : (m.atPixel x).here.LinesUp p.code := by rw [hhere]; rfl
      have hlast := (State.lines_up_run hp hr true _ _ hs (hr.budget _)).2.2
      rw [call_pixel hover hinit]
      exact settled_saveEntry hp m.routine (hlast.imp_right (Or.imp_right And.right))

theorem settled_iterate (hp : p.Linked) (hr : m.routine.Performs p) (h : m.Settled p.code) :
    (m.call .iterate).Settled p.code := by
  by_cases hover : m.state.overflow = true
  · rwa [call_iterate_of_overflow hover]
  · rw [call_iterate hover]
    rcases h.resolve_left hover with hlong | ⟨hup, hends⟩
    · rw [(run_of_long hr hlong).2]
      refine Or.inr (Or.inl ?_)
      show p.code.length ≤ m.atEntry.entry.op
      rwa [m.still_atEntry.2]
    · have hs : m.atEntry.here.LinesUp p.code := by rwa [m.still_atEntry.1]
      obtain ⟨hvisited, hsaves, -⟩ := State.lines_up_run hp hr false _ _ hs (hr.budget _)
      generalize m.atEntry.run m.routine false m.routine.budget = s at *
      have hsame : s.entry = m.state.entry := by
        rw [← m.still_atEntry.2]
        rcases hsaves with ⟨-, hentry⟩ | ⟨here, hmem, hend, hentry⟩
        · exact hentry
        · have hjumps : here.jumps = m.state.entry.jumps := by
            rw [(hvisited here hmem).2]
            exact hends _ hend
          rw [hentry, hjumps, m.still_atEntry.2]
      refine Or.inr (Or.inr ?_)
      show s.entry.LinesUp p.code ∧ ∀ n, _ → _ = s.entry.jumps
      rw [hsame]
      exact ⟨hup, hends⟩

/-! ## Sequences of calls -/

theorem settled_call (hp : p.Linked) (hr : m.routine.Performs p) (h : m.Settled p.code) (c : Call) :
    (m.call c).Settled p.code := by
  cases c with
  | pixel x => exact settled_pixel hp hr x
  | iterate => exact settled_iterate hp hr h

theorem lines_up_call (hp : p.Linked) (hr : m.routine.Performs p) (h : m.Ready p.code) (c : Call) :
    ∀ here ∈ m.visits c, here.op < p.code.length ∧ here.LinesUp p.code := by
  cases c with
  | pixel x => exact lines_up_pixel hp hr x
  | iterate => exact lines_up_iterate hp hr h

theorem routine_foldl (calls : List Call) : ∀ m : Machine N,
    (calls.foldl call m).routine = m.routine := by
  induction calls with
  | nil => exact fun _ => rfl
  | cons c calls ih => exact fun m => (ih _).trans (m.routine_call c)

theorem settled_foldl (hp : p.Linked) (calls : List Call) : ∀ {m : Machine N},
    m.routine.Performs p → m.Settled p.code → (calls.foldl call m).Settled p.code := by
  induction calls with
  | nil => exact fun _ h => h
  | cons c calls ih =>
    intro m hr h
    exact ih (by rwa [m.routine_call c]) (settled_call hp hr h c)

/-- Once a pixel has been set up, the entry is sound for good. -/
theorem settled_of_pixel_mem (hp : p.Linked) {calls : List Call} {x : Pixel}
    (h : .pixel x ∈ calls) : ∀ {m : Machine N}, m.routine.Performs p →
    (calls.foldl call m).Settled p.code := by
  induction calls with
  | nil => exact absurd h List.not_mem_nil
  | cons c calls ih =>
    intro m hr
    have hr' : (m.call c).routine.Performs p := by rwa [m.routine_call c]
    rcases List.mem_cons.mp h with rfl | h
    · exact settled_foldl hp calls hr' (settled_pixel hp hr x)
    · exact ih h hr'

/-! ## Iterations without a pixel -/

/-- Without an overflow an iteration runs through the end of an init section with jumps. -/
def Strays (m : Machine N) (code : List Opcode) : Prop :=
  (m.call .iterate).state.overflow = false ∧
    ∃ here ∈ m.visits .iterate, code[here.op]? = some .endInit ∧ here.jumps ≠ 0

/-- The machine as it was loaded, as far as its entry is concerned. -/
def Fresh (m : Machine N) : Prop :=
  m.state.overflow = true ∨ m.state.entry = .start

omit [Scalar N] in
theorem Fresh.ready (h : m.Fresh) (code : List Opcode) : m.Ready code :=
  h.imp_right fun hentry => Or.inr (by rw [hentry]; rfl)

theorem saves_iterate (hp : p.Linked) (hr : m.routine.Performs p) (hover : ¬ m.state.overflow = true)
    (h : m.Ready p.code) :
    Place.Saves p.code (m.visits .iterate) m.state.entry (m.call .iterate).state.entry := by
  rw [call_iterate hover, visits, if_neg hover, ← m.still_atEntry.2]
  rcases h.resolve_left hover with hlong | hup
  · rw [(run_of_long hr hlong).1, (run_of_long hr hlong).2]
    exact .nil _
  · have hs : m.atEntry.here.LinesUp p.code := by rwa [m.still_atEntry.1]
    exact (State.lines_up_run hp hr false _ _ hs (hr.budget _)).2.1

theorem fresh_iterate (hp : p.Linked) (hr : m.routine.Performs p) (h : m.Fresh)
    (hstrays : ¬ m.Strays p.code) : (m.call .iterate).Fresh := by
  by_cases hover : m.state.overflow = true
  · rw [call_iterate_of_overflow hover]
    exact h
  · have hentry := h.resolve_left hover
    rcases saves_iterate hp hr hover (h.ready _) with ⟨-, hsame⟩ | ⟨here, hmem, hend, hsaved⟩
    · exact Or.inr (hsame.trans hentry)
    · by_cases hjumps : here.jumps = 0
      · exact Or.inr (by rw [hsaved, hentry, hjumps]; rfl)
      · refine Or.inl (Bool.of_not_eq_false fun hno => hstrays ⟨hno, here, hmem, hend, hjumps⟩)

/-- The next iteration starts from a place that does not line up. -/
theorem exists_not_lines_up (hp : p.Linked) (hr : m.routine.Performs p) (h : m.Fresh)
    (hstrays : m.Strays p.code) :
    ∃ here ∈ (m.call .iterate).visits .iterate, ¬ here.LinesUp p.code := by
  obtain ⟨hover', there, hthere, hend, hjumps⟩ := hstrays
  have hover : ¬ m.state.overflow = true := fun hover => by
    rw [visits, if_pos hover] at hthere
    exact absurd hthere List.not_mem_nil
  have hup := lines_up_iterate hp hr (h.ready _)
  have hentry : (m.call .iterate).state.entry = { Place.start with jumps := there.jumps } := by
    rcases saves_iterate hp hr hover (h.ready _) with ⟨hno, -⟩ | ⟨here, hmem, hend', hsaved⟩
    · exact absurd hend (hno there hthere)
    · have hop := hp.endInit_inj hend' hend
      have hsame : here = there := by rw [(hup here hmem).2, (hup there hthere).2, hop]
      rw [hsaved, hsame, h.resolve_left hover]
  have hlong : 0 < p.code.length := Nat.lt_of_le_of_lt (Nat.zero_le _) (hup there hthere).1
  refine ⟨{ Place.start with jumps := there.jumps }, ?_, fun hbad => hjumps (congrArg Place.jumps hbad)⟩
  have hhere : (m.call .iterate).atEntry.here = { Place.start with jumps := there.jumps } := by
    rw [(m.call .iterate).still_atEntry.1, hentry]
  have hcode : (m.call .iterate).routine.code[(m.call .iterate).atEntry.here.op]? =
      some p.code[0] := by
    rw [m.routine_call, hr.code, List.getElem?_toArray, hhere]
    exact List.getElem?_eq_getElem hlong
  rw [visits, if_neg (by rw [hover']; exact Bool.false_ne_true), Routine.budget, State.visits, hcode,
    ← hhere]
  exact List.mem_cons_self

/-- Cursors line up in every sequence of calls exactly if no iteration strays before the first
pixel. -/
theorem lines_up_iff (hp : p.Linked) (hr : m.routine.Performs p) (h : m.Fresh) :
    (∀ (before : List Call) (c : Call), ∀ here ∈ (before.foldl call m).visits c,
        here.op < p.code.length ∧ here.LinesUp p.code) ↔
      ∀ n, ¬ ((List.replicate n .iterate).foldl call m).Strays p.code := by
  have hr' (calls : List Call) : (calls.foldl call m).routine.Performs p := by rwa [routine_foldl]
  have step (n : Nat) : (List.replicate (n + 1) Call.iterate).foldl call m =
      ((List.replicate n .iterate).foldl call m).call .iterate := by
    rw [List.replicate_succ', List.foldl_append]
    rfl
  constructor
  · intro hall
    have hfresh : ∀ n, ((List.replicate n .iterate).foldl call m).Fresh ∧
        ¬ ((List.replicate n .iterate).foldl call m).Strays p.code := by
      have stay (n : Nat) (hn : ((List.replicate n .iterate).foldl call m).Fresh) :
          ¬ ((List.replicate n .iterate).foldl call m).Strays p.code := fun hstrays => by
        obtain ⟨here, hmem, hno⟩ := exists_not_lines_up hp (hr' _) hn hstrays
        rw [← step] at hmem
        exact hno (hall _ _ here hmem).2
      intro n
      induction n with
      | zero => exact ⟨h, stay 0 h⟩
      | succ n ih =>
        have hn : ((List.replicate (n + 1) .iterate).foldl call m).Fresh := by
          rw [step]
          exact fresh_iterate hp (hr' _) ih.1 ih.2
        exact ⟨hn, stay _ hn⟩
    exact fun n => (hfresh n).2
  · intro hstay before c here hmem
    by_cases hpixel : ∃ x, .pixel x ∈ before
    · obtain ⟨x, hx⟩ := hpixel
      exact lines_up_call hp (hr' _) (settled_of_pixel_mem hp hx hr).ready c here hmem
    · have hbefore : before = List.replicate before.length .iterate :=
        List.eq_replicate_of_mem fun d hd => by
          cases d with
          | pixel x => exact absurd ⟨x, hd⟩ hpixel
          | iterate => rfl
      have hfresh : ∀ n, ((List.replicate n .iterate).foldl call m).Fresh := by
        intro n
        induction n with
        | zero => exact h
        | succ n ih =>
          rw [step]
          exact fresh_iterate hp (hr' _) ih (hstay n)
      rw [hbefore] at hmem
      exact lines_up_call hp (hr' _) ((hfresh _).ready _) c here hmem

end Machine

/-! ## Formulas -/

namespace Engine

def visits (e : Engine) (c : Call) : List Place :=
  match e with
  | .float m => m.visits c
  | .fixed _ m => m.visits c
  | .extended m => m.visits c

def call (e : Engine) : Call → Engine
  | .pixel p => (e.perPixel p).2
  | .iterate => e.iterate.2

/-- The machine in an engine satisfies `P`, whatever its number format. -/
def Satisfies (P : (N : Type) → [Scalar N] → Machine N → Prop) (e : Engine) : Prop :=
  match e with
  | .float m => P _ m
  | .fixed _ m => P _ m
  | .extended m => P _ m

/-- An engine does what the machine in it does. -/
structure Wraps {N : Type} [Scalar N] (wrap : Machine N → Engine) : Prop where
  call : ∀ m c, (wrap m).call c = wrap (m.call c)
  visits : ∀ m c, (wrap m).visits c = m.visits c
  overflow : ∀ m, (wrap m).overflow = m.state.overflow
  satisfies : ∀ (P : (N : Type) → [Scalar N] → Machine N → Prop) m, (wrap m).Satisfies P ↔ P N m

theorem wraps_float : Wraps .float :=
  ⟨fun _ c => by cases c <;> rfl, fun _ _ => rfl, fun _ => rfl, fun _ _ => Iff.rfl⟩

theorem wraps_fixed (scale : Scale) : Wraps (.fixed scale) :=
  ⟨fun _ c => by cases c <;> rfl, fun _ _ => rfl, fun _ => rfl, fun _ _ => Iff.rfl⟩

theorem wraps_extended : Wraps .extended :=
  ⟨fun _ c => by cases c <;> rfl, fun _ _ => rfl, fun _ => rfl, fun _ _ => Iff.rfl⟩

theorem Wraps.foldl {N : Type} [Scalar N] {wrap : Machine N → Engine} (h : Wraps wrap)
    (calls : List Call) (m : Machine N) :
    calls.foldl Engine.call (wrap m) = wrap (calls.foldl Machine.call m) :=
  List.foldl_hom wrap (fun m c => h.call m c)

/-- A routine has the tables of the program it is made of. -/
theorem performs_of_bind {N : Type} [Scalar N] {p : Program} {s : Settings} {random : RandomState}
    {m : Machine N} (h : bind p s random = .ok m) :
    m.routine.Performs p ∧ m.state.entry = .start := by
  unfold bind Routine.ofProgram at h
  cases hinit : Routine.initialFrom (N := N) p.loads 0 p.slots with
  | error name =>
    rw [hinit] at h
    cases h
  | ok initial =>
    rw [hinit] at h
    obtain rfl := Except.ok.inj h
    exact ⟨⟨rfl, rfl, rfl, rfl, rfl⟩, rfl⟩

/-- There is a machine in the number format of the settings. -/
theorem exists_machine {p : Program} {s : Settings} {random : RandomState} {e : Engine}
    (h : ofProgram p s random = .ok e) :
    ∃ (N : Type) (_ : Scalar N) (wrap : Machine N → Engine) (m : Machine N), Wraps wrap ∧
      e = wrap m ∧ m.routine.Performs p ∧ m.state.entry = .start := by
  have wrapped {N : Type} [Scalar N] {wrap : Machine N → Engine} (hwrap : Wraps wrap)
      (h : (bind p s random).map wrap = .ok e) : ∃ (N : Type) (_ : Scalar N)
        (wrap : Machine N → Engine) (m : Machine N), Wraps wrap ∧ e = wrap m ∧
          m.routine.Performs p ∧ m.state.entry = .start := by
    cases hbind : bind (N := N) p s random with
    | error e =>
      rw [hbind] at h
      cases h
    | ok m =>
      rw [hbind] at h
      exact ⟨N, _, wrap, m, hwrap, (Except.ok.inj h).symm, performs_of_bind hbind⟩
  unfold ofProgram at h
  split at h
  · exact wrapped wraps_float h
  · exact wrapped wraps_extended h
  · split at h
    · cases h
    · exact wrapped (wraps_fixed _) h

/-- Without an overflow an iteration runs through the end of an init section with jumps. -/
def Strays (e : Engine) (code : List Opcode) : Prop :=
  (e.call .iterate).overflow = false ∧
    ∃ here ∈ e.visits .iterate, code[here.op]? = some .endInit ∧ here.jumps ≠ 0

end Engine

/-- The cursors at an instruction count the loads, the stores and the jumps before it, and its line
in the listing is the one for these cursors. -/
structure Place.Matches (here : Place) (p : Program) : Prop where
  inside : here.op < p.code.length
  loads : here.loads = (p.code.take here.op).count .load
  stores : here.stores = (p.code.take here.op).count .store
  jumps : here.jumps = (p.code.take here.op).countP Opcode.isJump
  listed : (p.listingFrom 0 0 0 0 p.code)[here.op]? =
    p.code[here.op]?.map (p.line here.op here.loads here.stores here.jumps)

theorem Place.matches_iff {here : Place} {p : Program} :
    here.Matches p ↔ here.op < p.code.length ∧ here.LinesUp p.code := by
  have hindex : Place.index p.code here.op = ⟨(Place.index p.code here.op).op,
      (p.code.take here.op).count .load, (p.code.take here.op).count .store,
      (p.code.take here.op).countP Opcode.isJump⟩ := by
    simp only [Place.index, Place.past, Place.start, Nat.zero_add]
  constructor
  · rintro ⟨hop, hloads, hstores, hjumps, -⟩
    refine ⟨hop, ?_⟩
    rw [LinesUp, hindex, ← hloads, ← hstores, ← hjumps, index_op (Nat.le_of_lt hop)]
  · rintro ⟨hop, hup⟩
    rw [LinesUp, hindex] at hup
    have hloads := congrArg Place.loads hup
    have hstores := congrArg Place.stores hup
    have hjumps := congrArg Place.jumps hup
    refine ⟨hop, hloads, hstores, hjumps, ?_⟩
    have hline := p.getElem?_listingFrom p.code .start here.op
    refine hline.trans (congrArg (p.code[here.op]?.map ·) (funext fun op => ?_))
    show p.line (Place.index p.code here.op).op (Place.index p.code here.op).loads
      (Place.index p.code here.op).stores (Place.index p.code here.op).jumps op = _
    rw [hindex, index_op (Nat.le_of_lt hop), ← hloads, ← hstores, ← hjumps]

namespace Formula

/-- What a formula is after some calls. -/
def after (f : Formula) (calls : List Call) : Engine :=
  calls.foldl Engine.call f.engine

/-- Some jump stands before the end of the init section. -/
def BranchesInInit (f : Formula) : Prop :=
  ∃ n, f.program.code[n]? = some .endInit ∧ ∃ op ∈ f.program.code.take n, op.isJump = true

/-- A program that is built is not empty, and it is resolved and bound. -/
theorem resolved_of_build {text : String} {header : Header} {s : Settings}
    {messages : List (Severity × String)} {f : Formula}
    (h : (build text header s messages).result = .ok f) :
    f.header = header ∧ (compile (Token.body text header.bodyStart) s.environment).code ≠ [] ∧
      (compile (Token.body text header.bodyStart) s.environment).resolve = .ok f.program ∧
      ∃ random, Engine.ofProgram f.program s random = .ok f.engine := by
  unfold build at h
  dsimp only at h
  split at h
  · cases h
  · rename_i hcode
    split at h
    · cases h
    · rename_i p hresolve
      cases hengine : Engine.ofProgram p s (random p s) with
      | error e =>
        rw [hengine] at h
        cases h
      | ok e =>
        rw [hengine] at h
        obtain rfl := Except.ok.inj h
        exact ⟨rfl, fun hnil => hcode (List.isEmpty_iff.mpr hnil), hresolve, _, hengine⟩

/-- What is loaded has been checked and built. -/
theorem built_of_load {text : String} {start : Nat} {s : Settings} {f : Formula}
    (h : (load text start s).result = .ok f) :
    ∃ tally messages, check text f.header.bodyStart = .ok tally ∧
      (build text f.header s messages).result = .ok f := by
  unfold load at h
  split at h
  · cases h
  · split at h
    · cases h
    · dsimp only at h
      split at h
      · cases h
      · rename_i tally hcheck
        split at h
        · cases h
        · obtain ⟨rfl, -⟩ := resolved_of_build h
          exact ⟨tally, _, hcheck, h⟩

/-- What becomes of the text of a formula on its way to the machine. -/
theorem resolved_of_load {text : String} {start : Nat} {s : Settings} {f : Formula}
    (h : (load text start s).result = .ok f) :
    ∃ tally, check text f.header.bodyStart = .ok tally ∧
      (compile (Token.body text f.header.bodyStart) s.environment).resolve = .ok f.program ∧
      ∃ random, Engine.ofProgram f.program s random = .ok f.engine := by
  obtain ⟨tally, messages, hcheck, hbuild⟩ := built_of_load h
  exact ⟨tally, hcheck, (resolved_of_build hbuild).2.2⟩

theorem exists_resolved {text : String} {start : Nat} {s : Settings} {f : Formula}
    (h : (load text start s).result = .ok f) :
    ∃ offset tally, check text offset = .ok tally ∧
      (compile (Token.body text offset) s.environment).resolve = .ok f.program ∧
      ∃ random, Engine.ofProgram f.program s random = .ok f.engine :=
  ⟨f.header.bodyStart, resolved_of_load h⟩

theorem exists_of_load {text : String} {start : Nat} {s : Settings} {f : Formula}
    (h : (load text start s).result = .ok f) :
    f.program.Linked ∧ ∃ random, Engine.ofProgram f.program s random = .ok f.engine := by
  obtain ⟨offset, tally, hcheck, hresolve, hengine⟩ := exists_resolved h
  exact ⟨Program.linked_of_resolve (checked_of_check hcheck s.environment) hresolve, hengine⟩

/-- What a loaded formula shows can be read off the load itself. -/
theorem exists_loaded {α : Type} {text : String} {start : Nat} {s : Settings} {shown : Formula → α}
    {a : α} (h : (load text start s).result.toOption.map shown = some a) :
    ∃ f, (load text start s).result = .ok f ∧ shown f = a := by
  cases hload : (load text start s).result with
  | error e =>
    rw [hload] at h
    cases h
  | ok f =>
    rw [hload] at h
    exact ⟨f, rfl, Option.some.inj h⟩

theorem lines_up_after {N : Type} [Scalar N] {f : Formula} {m : Machine N}
    (hp : f.program.Linked) (hr : m.routine.Performs f.program) (hentry : m.state.entry = .start)
    {before : List Call} {c : Call}
    (hc : before = [] ∨ (∃ x, .pixel x ∈ c :: before) ∨ ¬ f.BranchesInInit) :
    ∀ here ∈ (before.foldl Machine.call m).visits c,
      here.op < f.program.code.length ∧ here.LinesUp f.program.code := by
  have hr' : (before.foldl Machine.call m).routine.Performs f.program := by
    rwa [Machine.routine_foldl]
  rcases hc with rfl | ⟨x, hx⟩ | hno
  · exact Machine.lines_up_call hp hr (Machine.Fresh.ready (Or.inr hentry) _) c
  · rcases List.mem_cons.mp hx with rfl | hx
    · exact Machine.lines_up_pixel hp hr' x
    · exact Machine.lines_up_call hp hr' (Machine.settled_of_pixel_mem hp hx hr).ready c
  · have hsettled : m.Settled f.program.code := by
      refine Or.inr (Or.inr ⟨by rw [hentry]; rfl, fun n hn => ?_⟩)
      rw [hentry]
      show 0 + (f.program.code.take n).countP Opcode.isJump = 0
      rw [Nat.zero_add, List.countP_eq_zero]
      exact fun op hop hjump => hno ⟨n, hn, op, hop, hjump⟩
    exact Machine.lines_up_call hp hr' (Machine.settled_foldl hp before hr hsettled).ready c

/-- The cursors of a loaded formula line up at every instruction of a call if a pixel was set up
before, or if it is the first call, or if the init section has no jumps.  In every sequence of calls
they do so exactly if no iteration strays before the first pixel. -/
theorem cursors_line_up {text : String} {start : Nat} {s : Settings} {f : Formula}
    (h : (load text start s).result = .ok f) :
    (∀ (before : List Call) (c : Call), before = [] ∨ (∃ x, .pixel x ∈ c :: before) ∨
        ¬ f.BranchesInInit → ∀ here ∈ (f.after before).visits c, here.Matches f.program) ∧
      ((∀ (before : List Call) (c : Call), ∀ here ∈ (f.after before).visits c,
          here.Matches f.program) ↔
        ∀ n, ¬ (f.after (List.replicate n .iterate)).Strays f.program.code) := by
  obtain ⟨hp, random, hengine⟩ := exists_of_load h
  obtain ⟨N, _, wrap, m, hwrap, he, hr, hentry⟩ := Engine.exists_machine hengine
  have hafter (calls : List Call) : f.after calls = wrap (calls.foldl Machine.call m) := by
    rw [after, he, hwrap.foldl]
  have hstrays (m : Machine N) :
      (wrap m).Strays f.program.code ↔ m.Strays f.program.code := by
    rw [Engine.Strays, Machine.Strays, hwrap.call, hwrap.overflow, hwrap.visits]
  simp only [Place.matches_iff, hstrays, hafter, hwrap.visits]
  exact ⟨fun before c hc => lines_up_after hp hr hentry hc,
    Machine.lines_up_iff hp hr (Or.inr hentry)⟩

/-- An entry whose init section branches. -/
def branching : String :=
  "t \x7b\nif(0)\nendif:\nif(1)\nz=z+1\nendif\n\x7d"

theorem exists_branching : ∃ f, (load branching 0 {}).result = .ok f ∧
    (f.after [.iterate]).visits .iterate = [⟨0, 0, 0, 2⟩, ⟨1, 1, 0, 2⟩] := by
  have hbound : ({} : Settings).bindings.unbindable? = none := rfl
  have hheader : Header.read branching 0 = .ok ⟨"t", .none, none, 3⟩ := rfl
  have hstream : Token.stream (Cursor.seek branching 3) =
      Token.firstTokens 50 (Cursor.seek branching 3) :=
    Token.stream_eq_firstTokens (by decide +kernel)
  refine exists_loaded ?_
  rw [load, hbound, hheader]
  dsimp only
  rw [check, build, Token.body, hstream]
  decide +kernel

theorem cursors_line_up_after_pixel : ∃ f, (load branching 0 {}).result = .ok f ∧
    ∀ x, ∀ here ∈ (f.after [.pixel x]).visits .iterate, here.Matches f.program := by
  obtain ⟨f, hf, -⟩ := exists_branching
  exact ⟨f, hf, fun x => (cursors_line_up hf).1 [.pixel x] .iterate
    (Or.inr (Or.inl ⟨x, List.mem_cons_of_mem _ List.mem_cons_self⟩))⟩

/-- Two iterations without a pixel: the second takes the jumps before the end of the init section
for granted and yet begins at its start. -/
theorem exists_stray_cursor : ∃ f, (load branching 0 {}).result = .ok f ∧
    ∃ here ∈ (f.after [.iterate]).visits .iterate, ¬ here.Matches f.program := by
  obtain ⟨f, hf, hvisits⟩ := exists_branching
  refine ⟨f, hf, ⟨0, 0, 0, 2⟩, hvisits ▸ List.mem_cons_self, fun h => ?_⟩
  have hjumps : 2 = (f.program.code.take 0).countP Opcode.isJump := h.jumps
  cases hjumps

end Formula
end FractalFormula
