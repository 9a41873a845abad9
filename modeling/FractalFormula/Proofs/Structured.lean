/-
Pixels and iterations of a compiled body.

A pixel evaluates the init section of a body and an iteration the iterated section
(`Machine.Follows`), whatever the variables, the stack and the random sequence hold.  This is so for
every machine that has the tables of the body (`Source.Built`), and `Source.structured` says of which
texts the tables come out that way.
-/
import FractalFormula.Proofs.Cursor
import FractalFormula.Proofs.Plain
import FractalFormula.Proofs.Simulation

namespace FractalFormula

open Compile State Routine

/-! ## Sections -/

namespace Scene

variable {N : Type} [Scalar N]

def refreshed (sc : Scene N) : Scene N :=
  if sc.random.isActive then sc.refreshRandom else sc

theorem overflow_refreshed (sc : Scene N) : sc.refreshed.overflow = sc.overflow := by
  unfold refreshed
  split <;> rfl

/-- What is said after a pixel was set up. -/
def setUpOutcome (sc : Scene N) : Outcome :=
  if sc.overflow then .overflow else .running

/-- What is said after an iteration. -/
def outcome (sc : Scene N) : Outcome :=
  if sc.overflow then .overflow else if Scalar.isZero sc.value.x then .bailedOut else .running

end Scene

namespace Source

section

variable {N : Type} [Scalar N]

/-- A new pixel: variables are set, and the init section is evaluated. -/
def setUp (s : Source) (bindings : Bindings) (values : List (Builtin × Complex Float))
    (sc : Scene N) : Scene N :=
  ({ sc with overflow := false }.preset values).andThen ((s.init.getD .nil).eval bindings)

/-- An iteration: `rand` gets its next value if it is in use, and the iterated section is
evaluated. -/
def iterate (s : Source) (bindings : Bindings) (sc : Scene N) : Scene N :=
  s.loop.eval bindings sc.refreshed

end

/-- A routine has the tables of a body. -/
structure Built {N : Type} (s : Source) (r : Routine N) (slots : List Slot) : Prop where
  split : s.Split
  furnished : Furnished slots
  lists : r.Lists slots .start s.instructions
  size : r.code.size = s.code.length
  hasInit : r.hasInit = s.init.isSome
  wired : ∃ entries : List JumpEntry, r.jumps = entries.toArray ∧ s.Wired entries

section

variable {N : Type} {s : Source} {r : Routine N} {slots : List Slot}

theorem Built.lists_loop (h : s.Built r slots) :
    r.Lists slots s.entry (s.loop.instructions .none) := by
  obtain ⟨hsplit, -, hlists, -⟩ := h
  obtain ⟨init, loop⟩ := s
  cases init with
  | none => exact hlists
  | some b =>
    have hloop := (lists_append.mp hlists).2
    have hcolon : loop.instructions .colon = .plain .endInit :: loop.instructions .none := by
      cases loop with
      | nil => exact absurd rfl (hsplit nofun)
      | statement | branch => rfl
    rw [hcolon, (b.instructions_spec .none).1] at hloop
    show r.Lists slots (Place.start.past (b.code .none ++ [.endInit])) _
    rw [Place.past_append]
    exact hloop.2.2

/-- The init section ends with an instruction of its own. -/
theorem Built.lists_init (h : s.Built r slots) {b : Block} (hb : s.init = some b) :
    r.Lists slots .start (b.instructions .none) ∧
      r.code[(Place.start.past (b.code .none)).op]? = some .endInit := by
  obtain ⟨hsplit, -, hlists, -⟩ := h
  obtain ⟨init, loop⟩ := s
  obtain rfl : init = some b := hb
  obtain ⟨hinit, hloop⟩ := lists_append.mp hlists
  rw [(b.instructions_spec .none).1] at hloop
  cases loop with
  | nil => exact absurd rfl (hsplit nofun)
  | statement | branch => exact ⟨hinit, hloop.1⟩

theorem op_entry (hsplit : s.Split) : (s.entry.past (s.loop.code .none)).op = s.code.length := by
  rw [code_eq hsplit, entry, ← Place.past_append]
  exact Nat.zero_add _

end

end Source

/-! ## Calls -/

namespace State

variable {N : Type} [Scalar N] {r : Routine N}

theorem run_of_size_le {initOnly : Bool} {s : State N} (h : r.code.size ≤ s.here.op) :
    ∀ budget, s.run r initOnly budget = s
  | 0 => rfl
  | budget + 1 => by rw [run, Array.getElem?_eq_none h]

theorem run_endInit {s : State N} (hop : r.code[s.here.op]? = some .endInit) {budget : Nat}
    (hbudget : 0 < budget) : s.run r true budget = s.endInit.advance := by
  obtain ⟨budget, rfl⟩ := Nat.exists_eq_add_one.mpr hbudget
  rw [run, hop]
  dsimp only
  rw [if_pos (by simp)]
  rfl

/-- The machine at the beginning of a call. -/
def rewound (s : State N) : State N :=
  { s with top := 0 }

theorem Upright.rewound {slots : List Slot} {s : State N} (h : s.Upright slots) :
    s.rewound.Upright slots :=
  ⟨Nat.lt_of_le_of_lt (Nat.zero_le _) h.top, h.size, h.literals⟩

end State

namespace Machine

variable {N : Type} [Scalar N] {s : Source} {r : Routine N} {slots : List Slot} {m : Machine N}

theorem shows_atPixel (hf : Furnished slots) (h : m.state.rewound.Upright slots) (x : Pixel) :
    (m.atPixel x).Shows slots
      ({ m.state.rewound.scene slots with overflow := false }.preset
        (pixelValues m.routine x)) := by
  have hstart : ({ m.state with overflow := false, here := .start, entry := .start, top := 0 } :
      State N).Shows slots { m.state.rewound.scene slots with overflow := false } :=
    ⟨⟨h.top, h.size, h.literals⟩, rfl⟩
  exact hstart.preset hf _

theorem shows_atEntry (hf : Furnished slots) (h : m.state.rewound.Upright slots) :
    m.atEntry.Shows slots (m.state.rewound.scene slots).refreshed := by
  have hstart : ({ m.state with here := m.state.entry, top := 0 } : State N).Shows slots
      (m.state.rewound.scene slots) := ⟨⟨h.top, h.size, h.literals⟩, rfl⟩
  unfold atEntry Scene.refreshed
  show State.Shows slots (if m.state.random.isActive then _ else _)
    (if m.state.random.isActive then _ else _)
  split
  · exact hstart.refreshRandom hf
  · exact hstart

/-- The run of the init section, if there is one, ends at the iterated section. -/
theorem runs_init (hb : s.Built r slots) {st : State N} {sc : Scene N} (h : st.Shows slots sc)
    (hover : sc.overflow = false) (hhere : st.here = .start) (hentry : st.entry = .start) :
    let sc' := (s.init.getD .nil).eval r.bindings sc
    let last := if r.hasInit then st.run r true r.budget else st
    last.Shows slots sc' ∧ (sc'.overflow = false → last.saveEntry.entry = s.entry) := by
  intro sc' last
  cases hinit : s.init with
  | none =>
    have hno : r.hasInit = false := by rw [hb.hasInit, hinit]; rfl
    have hsc : sc' = sc := by simp only [sc', hinit]; rfl
    have hlast : last = st := if_neg (by rw [hno]; exact Bool.false_ne_true)
    rw [hsc, hlast]
    refine ⟨h, fun _ => ?_⟩
    rw [saveEntry, hhere, hentry, Source.entry, Source.prologue, hinit]
    rfl
  | some b =>
    have hyes : r.hasInit = true := by rw [hb.hasInit, hinit]; rfl
    have hsc : sc' = b.eval r.bindings sc := by simp only [sc', hinit]; rfl
    have hlast : last = st.run r true r.budget := if_pos hyes
    obtain ⟨hlists, hend⟩ := hb.lists_init hinit
    obtain ⟨entries, hentries, hwired⟩ := hb.wired
    have hreach : Reaches r slots true st (b.eval r.bindings sc)
        (·.here = st.here.past (b.code .none)) :=
      b.reaches hb.furnished hentries .none (by decide) h hover (hhere ▸ hlists)
        (hhere ▸ hwired.init b hinit)
    obtain ⟨st', hruns, hentry', hshows, hhere'⟩ := hreach
    obtain ⟨rest, hrest, hrun⟩ := hruns r.budget (by rw [budget]; omega)
    rw [hsc, hlast, hrun, hshows.overflow]
    cases hover' : (b.eval r.bindings sc).overflow with
    | true => exact ⟨by rwa [if_pos rfl], fun h => Bool.noConfusion h⟩
    | false =>
      have hhere' := hhere' hover'
      rw [hhere] at hhere'
      rw [← hhere'] at hend
      have hlt := (Array.getElem?_eq_some_iff.mp hend).1
      rw [if_neg Bool.false_ne_true, run_endInit hend (by omega)]
      refine ⟨hshows.at_place _ _, fun _ => ?_⟩
      show ({ st'.here with op := st'.here.op + 1, jumps := st'.here.jumps } : Place) = s.entry
      rw [Source.entry, Source.prologue, hinit, Place.past_append, ← hhere']
      rfl

/-- A pixel evaluates the init section. -/
theorem perPixel_of_built (hb : s.Built m.routine slots) (h : m.state.rewound.Upright slots)
    (x : Pixel) :
    let sc := s.setUp m.routine.bindings (pixelValues m.routine x) (m.state.rewound.scene slots)
    ∃ after, m.perPixel x = (sc.setUpOutcome, ⟨m.routine, after⟩) ∧ after.Shows slots sc ∧
      (sc.overflow = false → after.entry = s.entry) := by
  intro sc
  have hstart := shows_atPixel hb.furnished h x
  have hstill : Still _ (m.atPixel x) := still_preset _ _
  generalize hsc₀ : ({ m.state.rewound.scene slots with overflow := false }.preset
    (pixelValues m.routine x) : Scene N) = sc₀ at hstart
  have hsc : sc = sc₀.andThen ((s.init.getD .nil).eval m.routine.bindings) := by
    simp only [sc, Source.setUp, hsc₀]
  rw [perPixel, hstart.overflow, hsc, Scene.andThen]
  dsimp only
  cases hover : sc₀.overflow with
  | true =>
    rw [if_pos rfl, if_pos rfl]
    refine ⟨m.atPixel x, ?_, hstart, fun hno => ?_⟩
    · rw [Scene.setUpOutcome, hover, if_pos rfl]
    · rw [hover] at hno
      cases hno
  | false =>
    rw [if_neg Bool.false_ne_true, if_neg Bool.false_ne_true]
    obtain ⟨hlast, hentry⟩ := runs_init hb hstart hover hstill.here hstill.entry
    refine ⟨State.saveEntry _, ?_, hlast.at_place _ _, hentry⟩
    have hover' : ∀ st : State N, st.saveEntry.overflow = st.overflow := fun _ => rfl
    rw [hover', hlast.overflow]
    rfl

/-- An iteration evaluates the iterated section. -/
theorem iterate_of_built (hb : s.Built m.routine slots) (h : m.state.rewound.Upright slots)
    (hover : m.state.overflow = false) (hentry : m.state.entry = s.entry) :
    let sc := s.iterate m.routine.bindings (m.state.rewound.scene slots)
    ∃ after, m.iterate = (sc.outcome, ⟨m.routine, after⟩) ∧ after.Shows slots sc ∧
      after.entry = s.entry := by
  intro sc
  obtain ⟨entries, hentries, hwired⟩ := hb.wired
  have hhere : m.atEntry.here = s.entry := m.still_atEntry.1.trans hentry
  have hreach : Reaches m.routine slots false m.atEntry sc
      (·.here = m.atEntry.here.past (s.loop.code .none)) :=
    s.loop.reaches hb.furnished hentries .none nofun (shows_atEntry hb.furnished h)
      ((Scene.overflow_refreshed _).trans hover) (hhere ▸ hb.lists_loop) (hhere ▸ hwired.loop)
  obtain ⟨last, hruns, hlast, hshows, hend⟩ := hreach
  obtain ⟨rest, -, hrun⟩ := hruns m.routine.budget (by rw [budget]; omega)
  have hrun : m.atEntry.run m.routine false m.routine.budget = last := by
    rw [hrun]
    cases hover' : last.overflow with
    | true => exact if_pos rfl
    | false =>
      have hend := hend (hshows.overflow ▸ hover')
      rw [if_neg Bool.false_ne_true]
      refine run_of_size_le (Nat.le_of_eq ?_) rest
      rw [hend, hhere, Source.op_entry hb.split, hb.size]
  refine ⟨last, ?_, hshows, hlast.trans (m.still_atEntry.2.trans hentry)⟩
  rw [iterate, if_neg (by rw [hover]; exact Bool.false_ne_true)]
  dsimp only
  rw [hrun, hshows.overflow, hshows.value]
  rfl

/-- A call does what the evaluation of its section does to the scene.  After an overflow nothing is
iterated. -/
def Follows (m : Machine N) (s : Source) (slots : List Slot) : Call → Prop
  | .pixel x =>
    let sc := s.setUp m.routine.bindings (pixelValues m.routine x) (m.state.rewound.scene slots)
    (m.perPixel x).1 = sc.setUpOutcome ∧ (m.perPixel x).2.state.scene slots = sc
  | .iterate =>
    (m.state.overflow = true → m.iterate = (.overflow, m)) ∧
      (m.state.overflow = false →
        let sc := s.iterate m.routine.bindings (m.state.rewound.scene slots)
        m.iterate.1 = sc.outcome ∧ m.iterate.2.state.scene slots = sc)

/-- Iterations start from the iterated section. -/
structure Poised (m : Machine N) (s : Source) (slots : List Slot) : Prop where
  upright : m.state.rewound.Upright slots
  entry : m.state.overflow = false → m.state.entry = s.entry

theorem follows_pixel (hb : s.Built m.routine slots) (h : m.state.rewound.Upright slots)
    (x : Pixel) : m.Follows s slots (.pixel x) ∧ (m.call (.pixel x)).Poised s slots := by
  obtain ⟨after, hpixel, hshows, hentry⟩ := perPixel_of_built hb h x
  constructor
  · rw [Follows, hpixel]
    exact ⟨rfl, hshows.scene⟩
  · rw [call, hpixel]
    exact ⟨hshows.upright.rewound, fun hover => hentry (hshows.overflow.symm.trans hover)⟩

/-- Every call is followed, and keeps the machine ready for the next one. -/
theorem follows_call (hb : s.Built m.routine slots) (h : m.Poised s slots) (c : Call) :
    m.Follows s slots c ∧ (m.call c).Poised s slots := by
  cases c with
  | pixel x => exact follows_pixel hb h.upright x
  | iterate =>
    cases hover : m.state.overflow with
    | true =>
      have hstop : m.iterate = (.overflow, m) := by rw [iterate, if_pos hover]
      rw [Follows, hover, call, hstop]
      exact ⟨⟨fun _ => rfl, fun h => Bool.noConfusion h⟩, h⟩
    | false =>
      obtain ⟨after, hiterate, hshows, hentry⟩ :=
        iterate_of_built hb h.upright hover (h.entry hover)
      constructor
      · rw [Follows, hover, hiterate]
        exact ⟨fun h => Bool.noConfusion h, fun _ => ⟨rfl, hshows.scene⟩⟩
      · rw [call, hiterate]
        exact ⟨hshows.upright.rewound, fun _ => hentry⟩

theorem poised_foldl (calls : List Call) : ∀ {m : Machine N}, s.Built m.routine slots →
    m.Poised s slots → (calls.foldl call m).Poised s slots := by
  induction calls with
  | nil => exact fun _ h => h
  | cons c calls ih =>
    intro m hb h
    refine ih ?_ (follows_call hb h c).2
    rwa [routine_call]

end Machine

/-! ## Compiled bodies -/

namespace Routine

variable {N : Type} [Scalar N]

/-- Slots start with their values; one that does not fit is never loaded. -/
theorem initialFrom_eq {loads : List Nat} : ∀ {index : Nat} {slots : List Slot}
    {values : List (Complex N)}, initialFrom loads index slots = .ok values →
    values = slots.map (literalValue ·.value) := by
  intro index slots
  induction slots generalizing index with
  | nil => exact fun h => (Except.ok.inj h).symm
  | cons s slots ih =>
    intro values h
    have next {z : Complex N} (hz : literalValue s.value = z)
        (h : (initialFrom loads (index + 1) slots).map (z :: ·) = .ok values) :
        values = (s :: slots).map (literalValue ·.value) := by
      cases hrest : initialFrom (N := N) loads (index + 1) slots with
      | error name =>
        rw [hrest] at h
        cases h
      | ok rest =>
        rw [hrest] at h
        rw [List.map_cons, hz, ← ih hrest]
        exact (Except.ok.inj h).symm
    rw [initialFrom] at h
    split at h
    · rename_i z hz
      exact next (by rw [literalValue, hz]; rfl) h
    · rename_i hz
      split at h
      · cases h
      · exact next (by rw [literalValue, hz]; rfl) h

theorem ofProgram_eq {p : Program} {bindings : Bindings} {inversion : Option Inversion}
    {r : Routine N} (h : ofProgram p bindings inversion = .ok r) :
    r.Performs p ∧ r.bindings = bindings ∧
      r.initial = (p.slots.map (literalValue ·.value)).toArray := by
  unfold ofProgram at h
  cases hinit : initialFrom (N := N) p.loads 0 p.slots with
  | error name =>
    rw [hinit] at h
    cases h
  | ok initial =>
    rw [hinit] at h
    obtain rfl := Except.ok.inj h
    exact ⟨⟨rfl, rfl, rfl, rfl, rfl⟩, rfl, congrArg List.toArray (initialFrom_eq hinit)⟩

theorem upright_start {r : Routine N} {slots : List Slot}
    (h : r.initial = (slots.map (literalValue ·.value)).toArray) (random : RandomState) :
    (Machine.start r random).state.rewound.Upright slots := by
  refine ⟨?_, ?_, fun i slot hi _ => ?_⟩
  · show 0 < (Array.replicate stackSize _).size
    rw [Array.size_replicate]
    decide
  · show r.initial.size = _
    rw [h, List.size_toArray, List.length_map]
  · show r.initial.getD i _ = _
    rw [h, Array.getD_eq_getD_getElem?, List.getElem?_toArray, List.getElem?_map, hi]
    rfl

end Routine

theorem exists_of_forall₂ {α β : Type} {R : α → β → Prop} {l : List α} {l' : List β}
    (h : List.Forall₂ R l l') : ∀ {i : Nat} {b : β}, l'[i]? = some b →
    ∃ a, l[i]? = some a ∧ R a b := by
  induction h with
  | nil => exact nofun
  | cons hab _ ih =>
    intro i b hb
    cases i with
    | zero =>
      obtain rfl := Option.some.inj hb
      exact ⟨_, rfl, hab⟩
    | succ i => exact ih hb

namespace Source

variable {s : Source} {p : Program}

theorem built_of_tables (hsplit : s.Split) (h : s.Tables p) {env : Environment}
    (hbuiltin : Draft.builtinSlots env <+: p.slots) {N : Type} {r : Routine N}
    (hr : r.Performs { p with jumps := Jumps.linked p.code p.jumps s.leads }) :
    s.Built r p.slots := by
  obtain ⟨hopcodes, hoperands, htargets⟩ := s.instructions_spec
  refine ⟨hsplit, furnished_of_prefix hbuiltin, ?_, ?_, ?_, ?_⟩
  · refine lists_of_tables (fun i op hi => ?_) (fun i o hi => ?_) fun i v hi => ?_
    · show r.code[0 + i]? = _
      rw [Nat.zero_add, hr.code, List.getElem?_toArray, h.code, ← hopcodes, hi]
    · show ∃ slot, r.loads[0 + i]? = _ ∧ _
      rw [Nat.zero_add, hr.loads, List.getElem?_toArray]
      rw [hoperands] at hi
      exact exists_of_forall₂ h.loads hi
    · show ∃ slot, r.stores[0 + i]? = _ ∧ _
      rw [Nat.zero_add, hr.stores, List.getElem?_toArray]
      refine exists_of_forall₂ h.stores ?_
      rw [List.getElem?_map, ← htargets, hi]
      rfl
  · rw [hr.code, List.size_toArray, h.code]
  · rw [hr.hasInit, h.hasInit]
  · refine ⟨_, hr.jumps, ?_⟩
    rw [h.code, h.jumps]
    exact wired hsplit

/-- In a number format that has room for the literals, each call from the first pixel on does what
the section it runs says, whatever the machine holds besides the literals. -/
def CarriedOut (s : Source) (q : Program) (N : Type) [Scalar N] : Prop :=
  ∀ (bindings : Bindings) (inversion : Option Inversion) (r : Routine N),
    Routine.ofProgram q bindings inversion = .ok r →
      r.bindings = bindings ∧
      (∀ random, (Machine.start r random).state.rewound.Upright q.slots) ∧
      ∀ m : Machine N, m.routine = r → m.state.rewound.Upright q.slots →
        ∀ (x : Pixel) (calls : List Call), m.Follows s q.slots (.pixel x) ∧
          ∀ c, (calls.foldl Machine.call (m.call (.pixel x))).Follows s q.slots c

theorem carried_out_of_tables (hsplit : s.Split) (h : s.Tables p) {env : Environment}
    (hbuiltin : Draft.builtinSlots env <+: p.slots) (N : Type) [Scalar N] :
    s.CarriedOut { p with jumps := Jumps.linked p.code p.jumps s.leads } N := by
  intro bindings inversion r hr
  obtain ⟨hperforms, hbindings, hinitial⟩ := ofProgram_eq hr
  refine ⟨hbindings, upright_start hinitial, ?_⟩
  rintro m rfl hupright x calls
  have hb : s.Built m.routine p.slots := built_of_tables hsplit h hbuiltin hperforms
  obtain ⟨hpixel, hpoised⟩ := Machine.follows_pixel hb hupright x
  refine ⟨hpixel, fun c => ?_⟩
  have hb' : s.Built (m.call (.pixel x)).routine p.slots := by rwa [Machine.routine_call]
  refine (Machine.follows_call ?_ (Machine.poised_foldl calls hb' hpoised) c).1
  rwa [Machine.routine_foldl]

/-- A body of statements and branches without minus signs and bars is accepted, and its program
carries out the conventional reading of it. -/
theorem structured {text : String} {offset : Nat}
    (h : s.All fun e => e.Plain ∧ e.depth < 64) (hjumps : s.words.length < Check.jumpLimit)
    (hrender : s.Renders (Token.stream (Cursor.seek text offset))) (env : Environment) :
    (∃ tally, check text offset = .ok tally) ∧
      (∃ parse : Source, parse.All Expr.Parsed ∧ parse.lexemes = s.lexemes) ∧
      ∀ parse : Source, parse.All Expr.Parsed → parse.lexemes = s.lexemes →
        ∃ q, (compile (Token.body text offset) env).resolve = .ok q ∧
          ∀ (N : Type) [Scalar N], parse.CarriedOut q N := by
  have hread : s.All Check.Frame.Readable := h.mono fun e he => ⟨he.1.legible, he.2⟩
  refine ⟨check_of_renders hread hjumps hrender, ?_, fun parse hparse hlex => ?_⟩
  · obtain ⟨parse, hparse, hlex, -⟩ := exists_conventional h
    exact ⟨parse, hparse.mono fun e he => ⟨he.1, he.2.1, he.2.2⟩, hlex⟩
  · have hrender' : parse.Renders (Token.stream (Cursor.seek text offset)) := by
      obtain ⟨b, hb, htokens⟩ := hrender
      exact ⟨b, hb, by rw [hlex, htokens]⟩
    have hcompiled := compile_of_renders (hparse.mono fun _ => Expr.Parsed.readable) hrender' env
    have htables := tables_of_parse hparse hrender' env
    exact ⟨_, resolve_of_tables htables,
      fun N _ => carried_out_of_tables hparse.split htables hcompiled.builtin N⟩

/-- Floats have room for all literals. -/
theorem exists_float_routine (q : Program) (bindings : Bindings) (inversion : Option Inversion) :
    ∃ r : Routine Float, Routine.ofProgram q bindings inversion = .ok r := by
  have hinitial (index : Nat) (slots : List Slot) :
      ∃ values : List (Complex Float), initialFrom q.loads index slots = .ok values := by
    induction slots generalizing index with
    | nil => exact ⟨[], rfl⟩
    | cons s slots ih =>
      obtain ⟨values, hvalues⟩ := ih (index + 1)
      exact ⟨s.value :: values, by rw [initialFrom, hvalues]; rfl⟩
  obtain ⟨values, hvalues⟩ := hinitial 0 q.slots
  exact ⟨_, by rw [ofProgram, hvalues]; rfl⟩

theorem structured_branches :
    let text := "z=0:\nif(z<1)\nz=sqr(z)+pixel\nelseif(z<2)\nif(z)\nx=z\nendif\nelse\nz=2\nendif\n\x7d"
    let zero := Expr.literal "0" ⟨Decimal.leading ['0'], 0⟩ false
    let one := Expr.literal "1" ⟨Decimal.leading ['1'], 0⟩ false
    let two := Expr.literal "2" ⟨Decimal.leading ['2'], 0⟩ false
    let z := Expr.name "z"
    let s : Source :=
      ⟨some (.statement ⟨["z"], zero⟩ .nil),
        .branch (.group (.binary .lt z one))
          (.statement ⟨["z"], .binary .add (.call .sqr (.group z)) (.name "pixel")⟩ .nil)
          (.elseIf (.group (.binary .lt z two))
            (.branch (.group z) (.statement ⟨["x"], z⟩ .nil) .endIf .nil)
            (.else (.statement ⟨["z"], two⟩ .nil))) .nil⟩
    s.All (fun e => e.Plain ∧ e.depth < 64) ∧ s.words.length < Check.jumpLimit ∧
      s.Renders (Token.stream (Cursor.seek text 0)) ∧
      ∃ (q : Program) (r : Routine Float), (compile (Token.body text 0) {}).resolve = .ok q ∧
        Routine.ofProgram q {} none = .ok r ∧ ∀ random x (calls : List Call) c,
          (calls.foldl Machine.call ((Machine.start r random).call (.pixel x))).Follows s q.slots
            c := by
  intro text zero one two z s
  have hparsed : s.All Expr.Parsed := by
    have hiff (e : Expr) : e.Parsed ↔ e.Plain ∧ e.Conventional ∧ e.depth < 64 :=
      ⟨fun h => ⟨h.plain, h.conventional, h.depth⟩, fun h => ⟨h.1, h.2.1, h.2.2⟩⟩
    simp [s, zero, one, two, z, All, Block.All, Tail.All, hiff, Expr.Plain, Expr.Conventional,
      Expr.depth, Expr.isBracketed, Expr.rank, Infix.rank]
  have hplain : s.All fun e => e.Plain ∧ e.depth < 64 := hparsed.mono fun e he => ⟨he.1, he.3⟩
  have hwords : s.words.length < Check.jumpLimit := by decide
  have hrender : s.Renders (Token.stream (Cursor.seek text 0)) := by
    refine ⟨.none, by decide, ?_⟩
    rw [Token.stream_eq_firstTokens (n := 100) (by decide +kernel)]
    decide +kernel
  refine ⟨hplain, hwords, hrender, ?_⟩
  obtain ⟨q, hq, hcarried⟩ := (structured hplain hwords hrender {}).2.2 s hparsed rfl
  obtain ⟨r, hr⟩ := exists_float_routine q {} none
  obtain ⟨-, hstart, hcalls⟩ := hcarried Float {} none r hr
  exact ⟨q, r, hq, hr, fun random x calls c => (hcalls _ rfl (hstart random) x calls).2 c⟩

end Source
end FractalFormula
