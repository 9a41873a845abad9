/-
The init section.

What is queued before the colon is kept apart from what comes behind it, so the code of a body begins
with that of the statements before its colon, and no jump leads out of it (`opens_of_check`).  A run
from the start executes each of these instructions unless a jump passes over it
(`State.executed_or_skipped`).  The entry that it leaves stands behind them, and that is where every
iteration begins until the next pixel (`Machine.Beyond`).
-/
import FractalFormula.Proofs.Advance
import FractalFormula.Proofs.Depth
import FractalFormula.Proofs.Operands
import FractalFormula.Proofs.Separators
import Mathlib.Data.List.TakeWhile

namespace FractalFormula

open Compile

/-! ## Jumps before the colon -/

namespace Jumps

theorem leads_append (acc : List (Option Nat)) (groups : List Group) (found : List (Option Nat))
    (rest : List (Nat × FlowWord)) :
    leads groups (found ++ acc) rest = (leads groups found rest).map (· ++ acc) := by
  fun_induction leads groups found rest with
  | case1 => rfl
  | case2 => rfl
  | _ => simp_all [leads]

/-- The words before a place where no branch is open lead to one another. -/
theorem lt_of_leads {a b : List FlowWord} {found : List (Option Nat)} {k l : Nat}
    (ha : Balanced 0 a) (hb : Balanced 0 b) (h : leads [] [] (backward 0 (a ++ b)) = some found)
    (hk : k < a.length) (hl : found[k]? = some (some l)) : l < a.length := by
  obtain ⟨after, -, hafter⟩ := leads_of_balanced hb a.length
  obtain ⟨before, hforward, hbefore⟩ := leads_of_balanced ha 0
  rw [Nat.zero_add] at hforward
  have hwords : backward 0 (a ++ b) = backward a.length b ++ backward 0 a := by
    simp [backward, List.zipIdx_append]
  have hsplit : leads [] after (backward 0 a) = some (before ++ after) := by
    have hone := leads_append after [] [] (backward 0 a)
    have htwo := hbefore []
    rw [List.append_nil, leads] at htwo
    rwa [htwo, List.nil_append] at hone
  rw [hwords, hafter, hsplit] at h
  obtain rfl := Option.some.inj h
  obtain ⟨hlength, hget⟩ := hforward.getElem?
  rw [List.getElem?_append_left (by omega)] at hl
  obtain ⟨hclosed, hopen⟩ := hget k a[k] (List.getElem?_eq_getElem hk)
  by_cases hend : a[k] = .endIf
  · rw [hclosed hend] at hl
    cases hl
  · obtain ⟨l', hl', -, hlt⟩ := hopen hend
    rw [hl'] at hl
    cases hl
    exact hlt

end Jumps

namespace Program

open Jumps

theorem dest_le_of_resolve {p r : Program} {a b : List FlowWord} (ha : Balanced 0 a)
    (hb : Balanced 0 b) (hjumps : p.jumps = (a ++ b).map .unresolved) (hr : p.resolve = .ok r)
    {k : Nat} {e : JumpEntry} (hk : k < a.length) (he : r.jumps[k]? = some e) :
    e.dest ≤ a.length := by
  have hwords : p.jumps.map JumpEntry.word = a ++ b := by
    rw [hjumps, List.map_map]
    exact List.map_id _
  rcases resolve_ok hr with ⟨hnil, rfl⟩ | ⟨found, -, hleads, rfl⟩
  · rw [hnil] at he
    cases he
  · rw [hwords] at hleads
    obtain ⟨u, lead, hu, hlead, rfl⟩ := List.getElem?_zipWith_eq_some.mp he
    rw [hjumps, List.getElem?_map] at hu
    obtain ⟨w, -, rfl⟩ := Option.map_eq_some_iff.mp hu
    cases lead with
    | none => exact Nat.zero_le _
    | some l => exact lt_of_leads ha hb hleads hk hlead

/-- No jump among the first `n` instructions leads past them. -/
def Confined (p : Program) (n : Nat) : Prop :=
  ∀ {i : Nat} {op : Opcode} {e : JumpEntry}, i < n → p.code[i]? = some op → op.isJump = true →
    p.jumps[(Place.index p.code i).jumps]? = some e → e.word ≠ .endIf → e.target.op < n

/-- The entries of the first `n` instructions lead to one another. -/
theorem confined_of_dest_le {p : Program} (ho : p.Ordered) {n : Nat}
    (h : ∀ k e, k < (Place.index p.code n).jumps → p.jumps[k]? = some e →
      e.dest ≤ (Place.index p.code n).jumps) : p.Confined n := by
  intro i op e hi hop hjump he hend
  have hbefore : (Place.index p.code i).jumps < (Place.index p.code n).jumps := by
    have hmono : (Place.index p.code (i + 1)).jumps ≤ (Place.index p.code n).jumps :=
      Place.jumps_index_mono hi
    rw [Place.index_succ hop, Place.past_jump hjump] at hmono
    exact hmono
  have hdest := h _ e hbefore he
  obtain ⟨⟨op', hop', hjump'⟩, hlands, -⟩ := ho.forward he hend
  rw [hlands, Place.index_succ hop', Place.past_jump hjump'] at hdest
  apply Decidable.byContradiction
  intro hlate
  have hmono : (Place.index p.code n).jumps ≤ (Place.index p.code e.target.op).jumps :=
    Place.jumps_index_mono (Nat.le_of_not_lt hlate)
  have hdest : (Place.index p.code e.target.op).jumps + 1 ≤ (Place.index p.code n).jumps := hdest
  omega

/-- Only the table of jumps is resolved. -/
theorem eq_of_resolve {p r : Program} (hr : p.resolve = .ok r) :
    r = { p with jumps := r.jumps } := by
  rcases resolve_ok hr with ⟨-, rfl⟩ | ⟨found, -, -, rfl⟩ <;> rfl

end Program

/-! ## The statements before the colon -/

/-- Where the colon is, no branch is open. -/
theorem Check.threads_colon {a b : List Lexeme} : ∀ {n : Nat} {seen : Bool},
    Check.Threads n seen (a ++ .operator .colon :: b) →
      Check.Threads n seen a ∧ Check.Threads 0 true b := by
  induction a with
  | nil =>
    rintro n seen ⟨n', seen', ⟨rfl, hn, -, rfl⟩, hb⟩
    exact ⟨hn, hb⟩
  | cons l a ih =>
    rintro n seen ⟨n', seen', hfollows, hrest⟩
    exact ⟨⟨n', seen', hfollows, (ih hrest).1⟩, (ih hrest).2⟩

/-- The program of the statements before the colon on their own. -/
def opening (text : String) (offset : Nat) (env : Environment) : Program :=
  compile ((Token.body text offset).takeWhile (·.kind != .operator .colon)) env

namespace Compile

theorem foldl_significant_inner {pre : List Token}
    (h : ∀ u ∈ pre, (u.kind == .close || u.isFault) = false) (env : Environment) :
    (significant pre).foldl Draft.token (.start env) =
      (Draft.start env).takeAll (pre.map Token.lexeme) := by
  have hinner : ∀ l ∈ (pre.map Token.lexeme).dropWhile (· == .operator .comma),
      (!l.isEnd) = true := by
    intro l hl
    obtain ⟨u, hu, rfl⟩ := List.mem_map.mp ((List.dropWhile_suffix _).subset hl)
    rw [isEnd_lexeme, h u hu]
    rfl
  have hall := List.takeWhile_eq_self_iff.mpr hinner
  rw [Draft.foldl_token, map_significant, hall]
  exact Draft.takeAll_dropWhile rfl _

/-- The lexemes of a body that has a colon, and what those before it are compiled to. -/
theorem exists_opening {text : String} {offset : Nat} {tally : Tally}
    (h : check text offset = .ok tally) (hcolon : Letter.HasColon (Letter.ofBody text offset)) :
    ∃ pre post, Lexeme.ofBody text offset = pre ++ .operator .colon :: post ∧
      ∀ env, ∃ formula, opening text offset env =
        ((Draft.start env).takeAll pre).finish formula := by
  obtain ⟨tokens, t, rest, hstream, ht, hinner, -⟩ := exists_of_check h
  obtain ⟨before, u, after, hsplit, hu, hbefore⟩ := Token.exists_colon hstream ht hinner hcolon
  have hbody : (Token.body text offset).takeWhile (·.kind != .operator .colon) = before := by
    rw [Token.body, hstream, untilFault_append fun v hv => (Bool.or_eq_false_iff.mp (hinner v hv)).2,
      hsplit, List.append_assoc,
      List.takeWhile_append_of_pos fun v hv => bne_iff_ne.mpr (hbefore v hv), List.cons_append,
      List.takeWhile_cons, hu]
    exact List.append_nil before
  refine ⟨before.map Token.lexeme, after.map Token.lexeme, ?_, fun env =>
    ⟨String.join ((significant before).map Token.text), ?_⟩⟩
  · have hlexeme : u.lexeme = .operator .colon := by rw [Token.lexeme, hu]
    rw [Lexeme.ofBody_of_stream hstream ht hinner, hsplit, List.map_append, List.map_cons, hlexeme]
  · have hinner' : ∀ v ∈ before, (v.kind == .close || v.isFault) = false :=
      fun v hv => hinner v (by rw [hsplit]; exact List.mem_append_left _ hv)
    rw [opening, hbody, compile, foldl_significant_inner hinner']

variable {pre post : List Lexeme} {t : Check.Stance}

/-- The colon keeps what is queued before it apart from what comes later. -/
theorem code_before_colon (h : Check.Stance.Steps {} pre t) (env : Environment)
    (formula formula' : String) :
    (((Draft.start env).takeAll pre).finish formula).code <+:
      (((Draft.start env).takeAll (pre ++ .operator .colon :: post)).finish formula').code := by
  obtain ⟨rest, hrest⟩ :=
    pending_past_separator (d := (Draft.start env).takeAll pre) post (.inr rfl)
  have hcapped := capped_takeAll (.start env) (fun _ hp => absurd hp List.not_mem_nil) h
  refine ⟨Pending.linearize (⟨none, level⟩ :: rest), ?_⟩
  show Pending.linearize _ ++ _ = Pending.linearize _
  rw [Draft.takeAll_append, Draft.takeAll_cons, hrest, Pending.linearize_append]
  intro p hp b hb
  obtain rfl := Option.some.inj hb
  exact hcapped p (List.mem_reverse.mp hp)

/-- So do the tables of operands, if every `=` has a variable to its left. -/
theorem tables_before_colon (hspelled : ∀ l ∈ pre ++ .operator .colon :: post, l.Spelled)
    (haimed : Lexeme.Aimed (pre ++ .operator .colon :: post)) (env : Environment)
    (formula formula' : String) :
    let q := ((Draft.start env).takeAll pre).finish formula
    let p := ((Draft.start env).takeAll (pre ++ .operator .colon :: post)).finish formula'
    q.slots <+: p.slots ∧ q.loads <+: p.loads ∧ q.stores <+: p.stores := by
  have haimed' : AimedAfter False post := by
    rintro a b rfl
    left
    rcases haimed (pre ++ .operator .colon :: a) b (by simp) with ⟨x, v, hx⟩ | hall
    · rcases List.eq_nil_or_concat a with rfl | ⟨a, l, rfl⟩
      · cases List.append_inj_right' hx rfl
      · have hx : (pre ++ .operator .colon :: a) ++ [l] = x ++ [.name v] := by simpa using hx
        obtain rfl := (List.cons.inj (List.append_inj_right' hx rfl)).1
        exact ⟨a, v, List.concat_eq_append⟩
    · exact absurd (hall (.operator .colon) (by simp)) (by simp)
  rw [List.append_cons] at hspelled ⊢
  have htables := (fills_behind env hspelled haimed').tables
  rw [← Draft.takeAll_append, Draft.takeAll_append _ pre] at htables
  exact htables

/-- As many jumps as words come before the end of what is compiled for the words. -/
theorem jumps_index_prefix (h : Check.Stance.Steps {} pre t) (hchain : pre.IsChain Lexeme.Admits)
    (env : Environment) (formula : String) {code : List Opcode}
    (hcode : (((Draft.start env).takeAll pre).finish formula).code <+: code) :
    (Place.index code (((Draft.start env).takeAll pre).finish formula).code.length).jumps =
      (pre.flatMap Lexeme.words).length := by
  obtain ⟨rest, rfl⟩ := hcode
  rw [Place.index_length]
  show 0 + _ = _
  rw [Nat.zero_add, List.countP_eq_length_filter, filter_isJump_code h hchain env formula,
    Jumps.length_expected]

end Compile

/-- The code of `p` begins with that of `q`, and what is executed there ends there. -/
structure Program.Opens (q p : Program) : Prop where
  code : q.code <+: p.code
  confined : p.Confined q.code.length
  ends : .endInit ∉ q.code
  hasInit : p.hasInit = true

theorem Program.Opens.not_endInit {q p : Program} (h : q.Opens p) {i : Nat}
    (hi : i < q.code.length) : p.code[i]? ≠ some .endInit := by
  intro hend
  obtain ⟨rest, hrest⟩ := h.code
  rw [← hrest, List.getElem?_append_left hi] at hend
  exact h.ends (List.mem_of_getElem? hend)

theorem opens_of_check {text : String} {offset : Nat} {tally : Tally} {env : Environment}
    {r : Program} (h : check text offset = .ok tally)
    (hcolon : Letter.HasColon (Letter.ofBody text offset))
    (hr : (compile (Token.body text offset) env).resolve = .ok r) :
    (opening text offset env).Opens r ∧ (Lexeme.Aimed (Lexeme.ofBody text offset) →
      (opening text offset env).slots <+: r.slots ∧ (opening text offset env).loads <+: r.loads ∧
        (opening text offset env).stores <+: r.stores) := by
  obtain ⟨pre, post, hbody, hopening⟩ := exists_opening h hcolon
  obtain ⟨haccepted, hcompile⟩ := body_of_check h
  obtain ⟨formula, hq⟩ := hopening env
  obtain ⟨formula', hp⟩ := hcompile env
  have ho := Program.ordered_of_resolve (checked_of_check h env) hr
  have hjumps := (resolve_of_check h env).1
  have hresolved := Program.eq_of_resolve hr
  rw [hbody] at hp hjumps haccepted
  obtain ⟨t, hsteps, -⟩ := haccepted.steps
  obtain ⟨u, hpre, -⟩ := hsteps.append
  obtain ⟨hbefore, hbehind⟩ := Check.threads_colon haccepted.threads
  have hcode : (opening text offset env).code <+: r.code := by
    rw [hq, hresolved, hp]
    exact code_before_colon hpre env formula formula'
  have hadjacent := (List.isChain_append.mp haccepted.adjacent).1
  have hchain := hadjacent.prefix (List.prefix_append pre _)
  have hcount : (Place.index r.code (opening text offset env).code.length).jumps =
      (pre.flatMap Lexeme.words).length := by
    rw [hq] at hcode ⊢
    exact jumps_index_prefix hpre hchain env formula hcode
  have hconfined : r.Confined (opening text offset env).code.length := by
    refine Program.confined_of_dest_le ho fun k e hk he => ?_
    rw [hcount] at hk ⊢
    rw [List.flatMap_append] at hjumps
    exact Program.dest_le_of_resolve (Check.balanced_of_threads hbefore)
      (Check.balanced_of_threads hbehind) hjumps hr hk he
  have hends : .endInit ∉ (opening text offset env).code := by
    have hone := haccepted.colons
    rw [List.count_append, List.count_cons_self] at hone
    have hnone := count_endInit_le env formula pre
    rw [← List.count_eq_zero, hq]
    omega
  have hinit : r.hasInit = true := by
    rw [hresolved, hp]
    show (Draft.takeAll _ _).hasInit = true
    rw [(adds_takeAll _ (.start env)).2.1]
    simp
  refine ⟨⟨hcode, hconfined, hends, hinit⟩, fun haimed => ?_⟩
  rw [hbody] at haimed
  rw [hq, hresolved, hp]
  exact tables_before_colon haccepted.spelled haimed env formula formula'

/-! ## Runs of the init section -/

namespace State

variable {N : Type} [Scalar N]

/-- The instruction is a jump that is taken over instruction `i`, to one of the first `n`. -/
def Skips (r : Routine N) (n i : Nat) (s : State N) : Prop :=
  ∃ op e, r.code[s.here.op]? = some op ∧ s.takes op = true ∧ r.jumps[s.here.jumps]? = some e ∧
    s.here.op < i ∧ i ≤ e.target.op ∧ e.target.op < n

variable {p q : Program} {r : Routine N}

/-- Nothing but a taken jump goes further than to the next instruction. -/
theorem skips_of_leap (ho : p.Ordered) (hr : r.Performs p) (hq : q.Opens p) {s : State N}
    (hs : s.here.LinesUp p.code) {op : Opcode} (hop : p.code[s.here.op]? = some op) {i : Nat}
    (hlate : s.here.op < i) (hover : i < (s.execute r op).advance.here.op) (hi : i < q.code.length) :
    s.Skips r q.code.length i := by
  have hcode : r.code[s.here.op]? = some op := by rw [hr.code, List.getElem?_toArray, hop]
  have htakes : s.takes op = true := by
    refine Bool.of_not_eq_false fun hno => ?_
    rw [here_of_not_takes r hno] at hover
    have hover : i < s.here.op + 1 := hover
    omega
  rw [here_of_takes r htakes] at hover
  cases he : r.jumps[s.here.jumps]? with
  | none =>
    rw [he] at hover
    have hover : i < s.here.op + 1 := hover
    omega
  | some e =>
    rw [he] at hover
    have hover : i < e.target.op + 1 := hover
    have hentry : p.jumps[(Place.index p.code s.here.op).jumps]? = some e := by
      rw [← he, hr.jumps, List.getElem?_toArray, ← hs]
    have hword : e.word ≠ .endIf := fun hend => by
      rw [ho.closed e (List.mem_of_getElem? hentry) hend] at hover
      have hover : i < 0 + 1 := hover
      omega
    exact ⟨op, e, hcode, htakes, he, hlate, by omega,
      hq.confined (by omega) hop (isJump_of_takes htakes) hentry hword⟩

/-- By induction on the budget, which is never used up: from a place that lines up, a run without an
overflow comes to each instruction that is ahead, or jumps over it. -/
theorem executed_or_skipped (hp : p.Linked) (ho : p.Ordered) (hr : r.Performs p) (hq : q.Opens p)
    (initOnly : Bool) : ∀ (budget : Nat) (s : State N), s.here.LinesUp p.code →
      p.code.length < s.here.op + budget → (s.run r initOnly budget).overflow = false →
      ∀ i, s.here.op ≤ i → i < q.code.length →
        ∃ t ∈ s.trace r initOnly budget, t.here.op = i ∨ t.Skips r q.code.length i := by
  have hlength := hq.code.length_le
  intro budget
  induction budget with
  | zero =>
    intro s _ hbudget _ i hle hi
    omega
  | succ budget ih =>
    intro s hs hbudget hover i hle hi
    have hlt : s.here.op < p.code.length := by omega
    obtain ⟨op, hop⟩ : ∃ op, p.code[s.here.op]? = some op := ⟨_, List.getElem?_eq_getElem hlt⟩
    have hcode : r.code[s.here.op]? = some op := by rw [hr.code, List.getElem?_toArray, hop]
    obtain ⟨hup, hforward⟩ := lines_up_execute hp hr hs hop
    rw [run, hcode] at hover
    rw [trace, hcode]
    dsimp only at hover ⊢
    by_cases hhere : s.here.op = i
    · exact ⟨s, List.mem_cons_self, .inl hhere⟩
    have hgo : ¬ ((s.execute r op).advance.overflow || (initOnly && op == .endInit)) = true := by
      intro hstop
      rw [if_pos hstop] at hover
      rw [hover, Bool.false_or] at hstop
      obtain rfl := eq_of_beq (Bool.and_eq_true_iff.mp hstop).2
      exact hq.not_endInit (by omega) hop
    rw [if_neg hgo] at hover ⊢
    by_cases hnext : (s.execute r op).advance.here.op ≤ i
    · obtain ⟨t, ht, hcase⟩ := ih _ hup (by omega) hover i hnext hi
      exact ⟨t, List.mem_cons_of_mem _ ht, hcase⟩
    · exact ⟨s, List.mem_cons_self, .inr (skips_of_leap ho hr hq hs hop (by omega) (by omega) hi)⟩

end State

/-! ## Calls -/

namespace Machine

variable {N : Type} [Scalar N]

/-- The call goes forward only, and of the first `n` instructions it leaves out none but those that a
taken jump leads over. -/
structure Covers (m : Machine N) (c : Call) (n : Nat) : Prop where
  increasing : (m.visits c).Pairwise fun here there => here.op < there.op
  complete : ∀ i < n, ∃ s ∈ m.trace m.routine.budget c, s.here.op = i ∨ s.Skips m.routine n i

/-- Iterations begin behind the first `n` instructions, if they begin at all. -/
def Beyond (m : Machine N) (n : Nat) : Prop :=
  m.state.overflow = true ∨ n ≤ m.state.entry.op

variable {p q : Program} {m : Machine N}

omit [Scalar N] in
theorem overflow_saveEntry (r : Routine N) (s : State N) :
    (⟨r, s.saveEntry⟩ : Machine N).state.overflow = s.overflow := rfl

omit [Scalar N] in
/-- What a run leaves that has come to the end of the init section or of the code. -/
theorem beyond_saveEntry (hq : q.Opens p) (r : Routine N) {s : State N}
    (h : s.overflow = true ∨ p.code.length ≤ s.here.op ∨
      ∃ n, p.code[n]? = some .endInit ∧ s.here = Place.index p.code (n + 1)) :
    Beyond ⟨r, s.saveEntry⟩ q.code.length := by
  rcases h with hover | hlong | ⟨n, hn, hlast⟩
  · exact .inl hover
  · exact .inr (Nat.le_trans hq.code.length_le hlong)
  · right
    show _ ≤ s.here.op
    rw [hlast, Place.index_op (List.getElem?_eq_some_iff.mp hn).1]
    exact Nat.le_succ_of_le (Nat.le_of_not_lt fun hlt => hq.not_endInit hlt hn)

theorem covers_pixel (hp : p.Linked) (ho : p.Ordered) (hr : m.routine.Performs p) (hq : q.Opens p)
    {x : Pixel} (hahead : m.Ahead p.code) (hover : (m.call (.pixel x)).state.overflow = false) :
    m.Covers (.pixel x) q.code.length := by
  refine ⟨?_, fun i hi => ?_⟩
  · have hno := not_misled_of_lines_up hp ho hr (lines_up_pixel hp hr x)
    rw [visits_eq_trace]
    exact List.pairwise_map.mpr (((advances_iff ho hr hahead _).mpr hno).increasing _)
  · have hpreset : ¬ (m.atPixel x).overflow = true := by
      intro hyes
      rw [call_pixel_of_overflow hyes] at hover
      exact Bool.noConfusion (hyes.symm.trans hover)
    have hinit : m.routine.hasInit = true := hr.hasInit.trans hq.hasInit
    have hstart : (m.atPixel x).here = .start := (State.still_preset _ _).here
    rw [call_pixel hpreset hinit, overflow_saveEntry] at hover
    rw [trace, if_neg (by simp [hpreset, hinit])]
    refine State.executed_or_skipped hp ho hr hq true _ _ ?_ (hr.budget _) hover i ?_ hi
    · rw [hstart]
      rfl
    · rw [hstart]
      exact Nat.zero_le i

theorem beyond_pixel (hp : p.Linked) (hr : m.routine.Performs p) (hq : q.Opens p) (x : Pixel) :
    (m.call (.pixel x)).Beyond q.code.length := by
  by_cases hover : (m.atPixel x).overflow = true
  · rw [call_pixel_of_overflow hover]
    exact .inl hover
  · have hstart : (m.atPixel x).here = .start := (State.still_preset _ _).here
    have hs : (m.atPixel x).here.LinesUp p.code := by
      rw [hstart]
      rfl
    have hlast := (State.lines_up_run hp hr true _ _ hs (hr.budget _)).2.2
    rw [call_pixel hover (hr.hasInit.trans hq.hasInit)]
    exact beyond_saveEntry hq m.routine
      (hlast.imp_right (Or.imp_right fun ⟨_, n, hn, hhere, _⟩ => ⟨n, hn, hhere⟩))

theorem beyond_iterate {n : Nat} (h : m.Beyond n) : (m.call .iterate).Beyond n := by
  by_cases hover : m.state.overflow = true
  · rw [call_iterate_of_overflow hover]
    exact h
  · have hentry := op_entry_run m.routine false m.routine.budget m.atEntry
    rw [m.still_atEntry.2] at hentry
    rw [call_iterate hover]
    exact .inr (hentry ▸ h.resolve_left hover)

theorem beyond_foldl (hp : p.Linked) (hq : q.Opens p) (calls : List Call) : ∀ {m : Machine N},
    m.routine.Performs p → m.Beyond q.code.length → (calls.foldl call m).Beyond q.code.length := by
  induction calls with
  | nil => exact fun _ h => h
  | cons c calls ih =>
    intro m hr h
    refine ih (by rwa [m.routine_call c]) ?_
    cases c with
    | pixel x => exact beyond_pixel hp hr hq x
    | iterate => exact beyond_iterate h

theorem beyond_of_pixel_mem (hp : p.Linked) (hq : q.Opens p) {calls : List Call} {x : Pixel}
    (h : .pixel x ∈ calls) (hr : m.routine.Performs p) :
    (calls.foldl call m).Beyond q.code.length := by
  obtain ⟨before, after, rfl⟩ := List.append_of_mem h
  have hr' : (before.foldl call m).routine.Performs p := by rwa [routine_foldl]
  rw [List.foldl_append, List.foldl_cons]
  exact beyond_foldl hp hq after (by rwa [routine_call]) (beyond_pixel hp hr' hq x)

theorem le_of_mem_visits (hp : p.Linked) (ho : p.Ordered) (hr : m.routine.Performs p)
    (hready : m.Ready p.code) {n : Nat} (h : m.Beyond n) :
    ∀ here ∈ m.visits .iterate, n ≤ here.op := by
  intro here hmem
  have hno := not_misled_of_lines_up hp ho hr (lines_up_iterate hp hr hready)
  rw [visits_eq_trace] at hmem
  obtain ⟨s, hs, rfl⟩ := List.mem_map.mp hmem
  by_cases hover : m.state.overflow = true
  · rw [trace, if_pos hover] at hs
    exact absurd hs List.not_mem_nil
  · have htrace : m.trace m.routine.budget .iterate =
        m.atEntry.trace m.routine false m.routine.budget := if_neg hover
    rw [htrace] at hs
    have hentry : n ≤ m.atEntry.here.op := by
      rw [m.still_atEntry.1]
      exact h.resolve_left hover
    refine Nat.le_trans hentry ?_
    rcases hready.resolve_left hover with hlong | hup
    · have hnone := (run_of_long hr hlong).1
      rw [State.visits_eq_trace, List.map_eq_nil_iff] at hnone
      rw [hnone] at hs
      exact absurd hs List.not_mem_nil
    · have hahead : m.atEntry.here.Ahead p.code := by
        rw [m.still_atEntry.1]
        exact hup.ahead
      refine ((State.trace_of_ahead ho hr false _ _ hahead fun t ht hmisled => hno ?_).2 s hs).2
      exact ⟨t, htrace ▸ ht, hmisled⟩

/-- An iteration begins at the first instruction unless a pixel has set its entry. -/
theorem exists_visits_iterate (hcode : 0 < m.routine.code.size) (hover : m.state.overflow = false)
    (hop : m.state.entry.op = 0) : ∃ here rest, m.visits .iterate = here :: rest ∧ here.op = 0 := by
  have hhere : m.atEntry.here.op = 0 := by rw [m.still_atEntry.1, hop]
  have hfirst : m.routine.code[m.atEntry.here.op]? = some m.routine.code[0] := by
    rw [hhere]
    exact Array.getElem?_eq_getElem hcode
  have hbudget : m.routine.budget = m.routine.code.size + 0xffffff + 1 := rfl
  rw [visits, if_neg (Bool.eq_false_iff.mp hover), hbudget, State.visits, hfirst]
  exact ⟨_, _, rfl, hhere⟩

end Machine

/-! ## Formulas -/

def Engine.Covers (e : Engine) (c : Call) (n : Nat) : Prop :=
  e.Satisfies fun _ _ m => m.Covers c n

namespace Formula

theorem code_ne_nil {text : String} {start : Nat} {s : Settings} {f : Formula}
    (h : (load text start s).result = .ok f) : f.program.code ≠ [] := by
  obtain ⟨tally, messages, -, hbuild⟩ := built_of_load h
  obtain ⟨-, hcode, hresolve, -⟩ := resolved_of_build hbuild
  rw [Program.eq_of_resolve hresolve]
  exact hcode

/-- A colon that has something else than separators behind it ends the init section.  The code of a
loaded formula begins with that of the tokens before the colon, which goes by the same tables if
every `=` has a variable to its left.  In every sequence of calls, a pixel without an overflow
executes each of these instructions once, but for those that its branches pass over, and no
iteration that comes later executes any of them.  Without a pixel, iterations begin at the first
instruction. -/
theorem init_section_once {text : String} {start : Nat} {s : Settings} {f : Formula}
    (h : (load text start s).result = .ok f)
    (hcolon : Letter.HasColon (Letter.ofBody text f.header.bodyStart)) :
    let q := opening text f.header.bodyStart s.environment
    q.Opens f.program ∧
      (Lexeme.Aimed (Lexeme.ofBody text f.header.bodyStart) →
        q.slots <+: f.program.slots ∧ q.loads <+: f.program.loads ∧
          q.stores <+: f.program.stores) ∧
      (∀ before : List Call, (∀ c ∈ before, c = .iterate) → (f.after before).overflow = false →
        ∃ here rest, (f.after before).visits .iterate = here :: rest ∧ here.op = 0) ∧
      ∀ (before : List Call) (x : Pixel),
        (((f.after before).call (.pixel x)).overflow = false →
          (f.after before).Covers (.pixel x) q.code.length) ∧
        (.pixel x ∈ before → ∀ here ∈ (f.after before).visits .iterate,
          q.code.length ≤ here.op) := by
  intro q
  obtain ⟨tally, hcheck, hresolve, random, hengine⟩ := resolved_of_load h
  have hchecked := checked_of_check hcheck s.environment
  have hp := Program.linked_of_resolve hchecked hresolve
  have ho := Program.ordered_of_resolve hchecked hresolve
  obtain ⟨hq, htables⟩ := opens_of_check hcheck hcolon hresolve
  obtain ⟨N, _, wrap, m, hwrap, he, hr, hentry⟩ := Engine.exists_machine hengine
  have hafter (before : List Call) : f.after before = wrap (before.foldl Machine.call m) := by
    rw [after, he, hwrap.foldl]
  have hperforms (before : List Call) :
      (before.foldl Machine.call m).routine.Performs f.program := by
    rwa [Machine.routine_foldl]
  refine ⟨hq, htables, fun before hno hover => ?_, fun before x => ?_⟩
  · rw [hafter, hwrap.overflow] at hover
    rw [hafter, hwrap.visits]
    have hzero := Machine.op_entry_foldl hno (.inr (congrArg Place.op hentry))
    refine Machine.exists_visits_iterate ?_ hover (hzero.resolve_left (Bool.eq_false_iff.mp hover))
    rw [(hperforms before).code]
    exact List.length_pos_iff.mpr (code_ne_nil h)
  have hr' := hperforms before
  rw [hafter, Engine.Covers, hwrap.satisfies, hwrap.call, hwrap.overflow, hwrap.visits]
  constructor
  · exact Machine.covers_pixel hp ho hr' hq (Machine.ahead_foldl hp hr (.inr hentry) before)
  · intro hx
    exact Machine.le_of_mem_visits hp ho hr' (Machine.settled_of_pixel_mem hp hx hr).ready
      (Machine.beyond_of_pixel_mem hp hq hx hr)

/-- An entry that counts its pixels. -/
def counting : String :=
  "t \x7b\nz=z+1:z\n\x7d"

/-- The same without a statement behind the colon. -/
def uncounted : String :=
  "t \x7b\nz=z+1:\n\x7d"

def origin : Pixel where
  coord := ⟨0, 0⟩

theorem exists_counting : ∃ f, (load counting 0 {}).result = .ok f ∧ f.header.bodyStart = 3 ∧
    f.engine.overflow = false ∧ (f.engine.call (.pixel origin)).overflow = false ∧
    (f.engine.visits .iterate).map Place.op = [0, 1, 2, 3, 4, 5] ∧
    (opening counting f.header.bodyStart ({} : Settings).environment).code =
      [.load, .load, .add, .store] := by
  have hbound : ({} : Settings).bindings.unbindable? = none := rfl
  have hheader : Header.read counting 0 = .ok ⟨"t", .none, none, 3⟩ := rfl
  have hstream : Token.stream (Cursor.seek counting 3) =
      Token.firstTokens 30 (Cursor.seek counting 3) :=
    Token.stream_eq_firstTokens (by decide +kernel)
  have hloaded : ∃ f, (load counting 0 {}).result = .ok f ∧
      (f.header.bodyStart, f.engine.overflow, (f.engine.call (.pixel origin)).overflow,
        (f.engine.visits .iterate).map Place.op) = (3, false, false, [0, 1, 2, 3, 4, 5]) := by
    refine exists_loaded ?_
    rw [load, hbound, hheader]
    dsimp only
    rw [check, build, Token.body, hstream]
    decide +kernel
  obtain ⟨f, hf, hshown⟩ := hloaded
  have hstart : f.header.bodyStart = 3 := congrArg Prod.fst hshown
  refine ⟨f, hf, hstart, congrArg (·.2.1) hshown, congrArg (·.2.2.1) hshown,
    congrArg (·.2.2.2) hshown, ?_⟩
  rw [hstart, opening, Token.body, hstream]
  decide +kernel

theorem init_section_once_counting : ∃ f, (load counting 0 {}).result = .ok f ∧
    Letter.HasColon (Letter.ofBody counting f.header.bodyStart) ∧
    let q := opening counting f.header.bodyStart ({} : Settings).environment
    q.code = [.load, .load, .add, .store] ∧ (f.after []).Covers (.pixel origin) q.code.length ∧
      (∀ here ∈ (f.after [.pixel origin]).visits .iterate, q.code.length ≤ here.op) ∧
      ∃ here rest, (f.after []).visits .iterate = here :: rest ∧ here.op = 0 := by
  obtain ⟨f, hf, hstart, hfresh, hover, -, hcode⟩ := exists_counting
  have hcolon : Letter.HasColon (Letter.ofBody counting f.header.bodyStart) := by
    rw [hstart]
    exact ⟨(Letter.ofBody counting 3).take 6, ⟨':', 9⟩, (Letter.ofBody counting 3).drop 7,
      by decide +kernel, rfl, ⟨'z', 10⟩, by decide +kernel, rfl⟩
  obtain ⟨-, -, hbegin, hcalls⟩ := init_section_once hf hcolon
  exact ⟨f, hf, hcolon, hcode, (hcalls [] origin).1 hover,
    (hcalls [.pixel origin] origin).2 List.mem_cons_self, hbegin [] (by simp) hfresh⟩

theorem exists_uncounted : ∃ f, (load uncounted 0 {}).result = .ok f ∧ f.header.bodyStart = 3 ∧
    (f.engine.call (.pixel origin)).overflow = false ∧ f.engine.visits (.pixel origin) = [] ∧
    ((f.after [.pixel origin]).visits .iterate).map Place.op = [0, 1, 2, 3] ∧
    (opening uncounted f.header.bodyStart ({} : Settings).environment).code =
      [.load, .load, .add, .store] := by
  have hbound : ({} : Settings).bindings.unbindable? = none := rfl
  have hheader : Header.read uncounted 0 = .ok ⟨"t", .none, none, 3⟩ := rfl
  have hstream : Token.stream (Cursor.seek uncounted 3) =
      Token.firstTokens 30 (Cursor.seek uncounted 3) :=
    Token.stream_eq_firstTokens (by decide +kernel)
  have hloaded : ∃ f, (load uncounted 0 {}).result = .ok f ∧
      (f.header.bodyStart, (f.engine.call (.pixel origin)).overflow,
        f.engine.visits (.pixel origin),
        ((f.after [.pixel origin]).visits .iterate).map Place.op) =
          (3, false, [], [0, 1, 2, 3]) := by
    refine exists_loaded ?_
    rw [load, hbound, hheader]
    dsimp only
    rw [check, build, Token.body, hstream]
    decide +kernel
  obtain ⟨f, hf, hshown⟩ := hloaded
  have hstart : f.header.bodyStart = 3 := congrArg Prod.fst hshown
  refine ⟨f, hf, hstart, congrArg (·.2.1) hshown, congrArg (·.2.2.1) hshown,
    congrArg (·.2.2.2) hshown, ?_⟩
  rw [hstart, opening, Token.body, hstream]
  decide +kernel

/-- A colon with nothing but separators behind it is dropped: no pixel executes what stands before
it, and every iteration does.  So does an iteration without a pixel, whatever stands behind the
colon. -/
theorem exists_init_iterated :
    (∃ f, (load uncounted 0 {}).result = .ok f ∧
      (∃ l ∈ Letter.ofBody uncounted f.header.bodyStart, l.char = ':') ∧
      (f.engine.call (.pixel origin)).overflow = false ∧ f.engine.visits (.pixel origin) = [] ∧
      ∃ here ∈ (f.after [.pixel origin]).visits .iterate,
        here.op < (opening uncounted f.header.bodyStart ({} : Settings).environment).code.length) ∧
    ∃ f, (load counting 0 {}).result = .ok f ∧
      (∃ l ∈ Letter.ofBody counting f.header.bodyStart, l.char = ':') ∧
      ∃ here ∈ f.engine.visits .iterate,
        here.op < (opening counting f.header.bodyStart ({} : Settings).environment).code.length := by
  constructor
  · obtain ⟨f, hf, hstart, hover, hnone, hvisits, hcode⟩ := exists_uncounted
    obtain ⟨here, hmem, hop⟩ : ∃ here ∈ (f.after [.pixel origin]).visits .iterate, here.op = 0 :=
      List.mem_map.mp (hvisits ▸ List.mem_cons_self)
    refine ⟨f, hf, ?_, hover, hnone, here, hmem, ?_⟩
    · rw [hstart]
      exact ⟨⟨':', 9⟩, by decide +kernel, rfl⟩
    · rw [hop, hcode]
      decide
  · obtain ⟨f, hf, hstart, -, -, hvisits, hcode⟩ := exists_counting
    obtain ⟨here, hmem, hop⟩ : ∃ here ∈ f.engine.visits .iterate, here.op = 0 :=
      List.mem_map.mp (hvisits ▸ List.mem_cons_self)
    refine ⟨f, hf, ?_, here, hmem, ?_⟩
    · rw [hstart]
      exact ⟨⟨':', 9⟩, by decide +kernel, rfl⟩
    · rw [hop, hcode]
      decide

end Formula
end FractalFormula
