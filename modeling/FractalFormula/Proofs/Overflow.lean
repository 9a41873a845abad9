/-
Overflow.

An instruction that overflows leaves all variables as they were (`State.vars_execute`).  The one in
doubt is `sqr`, which sets `lastsqr` before it forms the product of the parts: where both squares fit
the number format, so does the product (`SquaresSuffice`).  A call ends with the overflow, and nothing
is iterated before the next pixel (`Formula.overflow_stops`).
-/
import FractalFormula.Proofs.Advance
import FractalFormula.Proofs.Squares

namespace FractalFormula

/-! ## Products and squares -/

/-- A product fits the number format if the squares of its factors do. -/
class SquaresSuffice (N : Type) [Scalar N] : Prop where
  exists_mul {a b aa bb : N} : Scalar.mul? a a = some aa → Scalar.mul? b b = some bb →
    ∃ ab, Scalar.mul? a b = some ab

instance : SquaresSuffice Float :=
  ⟨fun _ _ => ⟨_, rfl⟩⟩

instance : SquaresSuffice Extended :=
  ⟨fun _ _ => ⟨_, rfl⟩⟩

namespace Fixed

variable {s : Scale}

theorem unit_pos (s : Scale) : (0 : Int) < s.unit := by
  rw [Scale.unit, Nat.one_shiftLeft]
  exact Int.natCast_pos.mpr (Nat.two_pow_pos _)

/-- The exact square of a number whose square fits the word. -/
theorem mul_self_lt {a aa : Fixed s} (h : Scalar.mul? a a = some aa) :
    a.raw.toInt * a.raw.toInt < (greatest + 1) * s.unit := by
  rw [mul?_self, Option.ite_none_right_eq_some] at h
  have hfits := Int.lt_add_one_of_le h.1
  rw [rawSquare, Int.fdiv_eq_ediv_of_nonneg _ (Int.le_of_lt (unit_pos s))] at hfits
  exact (Int.ediv_lt_iff_lt_mul (unit_pos s)).mp hfits

/-- The product of two numbers is at most the mean of their squares in size.  Rounding down takes a
negative one down to the least word at most. -/
theorem exists_mul {a b aa bb : Fixed s} (ha : Scalar.mul? a a = some aa)
    (hb : Scalar.mul? b b = some bb) : ∃ ab, Scalar.mul? a b = some ab := by
  have ha := mul_self_lt ha
  have hb := mul_self_lt hb
  have hunit := unit_pos s
  show ∃ ab, narrow? (Int.fdiv (a.raw.toInt * b.raw.toInt) s.unit) = some ab
  generalize a.raw.toInt = x at *
  generalize b.raw.toInt = y at *
  generalize (s.unit : Int) = u at *
  have hminus : 0 ≤ x * x - 2 * (x * y) + y * y := by
    have := Int.natAbs_mul_self (a := x - y)
    have hexpand : (x - y) * (x - y) = x * x - 2 * (x * y) + y * y := by
      rw [Int.sub_mul, Int.mul_sub, Int.mul_sub, Int.mul_comm y x]
      omega
    omega
  have hplus : 0 ≤ x * x + 2 * (x * y) + y * y := by
    have := Int.natAbs_mul_self (a := x + y)
    have hexpand : (x + y) * (x + y) = x * x + 2 * (x * y) + y * y := by
      rw [Int.add_mul, Int.mul_add, Int.mul_add, Int.mul_comm y x]
      omega
    omega
  have hbound : (greatest + 1) * u = 2147483648 * u := rfl
  have hhigh : x * y / u < 2147483648 := (Int.ediv_lt_iff_lt_mul hunit).mpr (by omega)
  have hlow : -2147483648 ≤ x * y / u := (Int.le_ediv_iff_mul_le hunit).mpr (by omega)
  rw [Int.fdiv_eq_ediv_of_nonneg _ (Int.le_of_lt hunit)]
  exact ⟨_, if_pos ⟨hlow, by omega⟩⟩

instance : SquaresSuffice (Fixed s) :=
  ⟨exists_mul⟩

end Fixed

/-! ## Instructions -/

namespace State

variable {N : Type}

theorem vars_jump (s : State N) (e : Option JumpEntry) : (s.jump e).vars = s.vars := by
  cases e <;> rfl

variable [Scalar N] {r : Routine N} {s t : State N}

theorem overflow_load (s : State N) (slot : Option Nat) : (s.load slot).overflow = s.overflow := by
  unfold load push
  dsimp only
  split <;> rfl

theorem overflow_store (s : State N) (slot : Option Nat) :
    (s.store slot).overflow = s.overflow := by
  cases slot <;> rfl

theorem vars_unary (s : State N) (f : Complex N → Option (Complex N)) :
    (s.unary f).vars = s.vars := by
  unfold unary
  split <;> rfl

theorem vars_binary (s : State N) (f : Complex N → Complex N → Option (Complex N)) :
    (s.binary f).vars = s.vars := by
  unfold binary
  dsimp only
  split <;> rfl

variable [SquaresSuffice N]

/-- A square that overflows does so before `lastsqr` is set. -/
theorem vars_square (hs : s.overflow = false) (h : s.square.overflow = true) :
    s.square.vars = s.vars := by
  unfold square at h ⊢
  dsimp only at h ⊢
  split at h
  · rename_i xx yy hx hy
    obtain ⟨xy, hxy⟩ := SquaresSuffice.exists_mul hx hy
    have hvalue : (s.setVar Builtin.lastSqr.slot (.real (Scalar.add xx yy))).value = s.value := rfl
    rw [unary, hvalue, hxy] at h
    exact Bool.noConfusion (hs.symm.trans h)
  · rfl

theorem vars_call (hs : s.overflow = false) {f : Func} (h : (s.call f).overflow = true) :
    (s.call f).vars = s.vars := by
  unfold call at h ⊢
  split at h
  · exact vars_square hs h
  · exact Bool.noConfusion (hs.symm.trans h)
  · split
    · exact vars_unary s _
    · split
      · exact vars_unary s _
      · rfl

/-- An instruction that overflows leaves all variables as they were. -/
theorem vars_execute {op : Opcode} (hs : s.overflow = false)
    (h : (s.execute r op).overflow = true) : (s.execute r op).vars = s.vars := by
  cases op with
  | load => exact Bool.noConfusion (hs.symm.trans ((overflow_load s _).symm.trans h))
  | store => exact Bool.noConfusion (hs.symm.trans ((overflow_store s _).symm.trans h))
  | clear | endInit | label | unassigned => rfl
  | jump => exact vars_jump s _
  | jumpOnFalse | jumpOnTrue =>
    rw [execute]
    split
    · first | exact vars_jump s _ | rfl
    · first | exact vars_jump s _ | rfl
  | call f => exact vars_call hs h
  | neg | mod => exact vars_unary s _
  | _ => exact vars_binary s _

/-! ## Runs -/

omit [SquaresSuffice N] in
theorem overflow_of_mem_trace {initOnly : Bool} {budget : Nat} (hs : s.overflow = false)
    (ht : t ∈ s.trace r initOnly budget) : t.overflow = false := by
  induction budget generalizing s with
  | zero => exact absurd ht List.not_mem_nil
  | succ budget ih =>
    rw [trace] at ht
    split at ht
    · exact absurd ht List.not_mem_nil
    · dsimp only at ht
      rcases List.mem_cons.mp ht with rfl | ht
      · exact hs
      · split at ht
        · exact absurd ht List.not_mem_nil
        · rename_i hgo
          exact ih (Bool.eq_false_iff.mpr fun hover => hgo (by rw [hover]; rfl)) ht

omit [SquaresSuffice N] in
/-- By induction on the budget: nothing is executed after an instruction that overflows, and the run
ends with what that instruction leaves. -/
theorem run_of_overflow {initOnly : Bool} {budget : Nat} {before after : List (State N)} {op : Opcode}
    (htrace : s.trace r initOnly budget = before ++ t :: after) (hop : r.code[t.here.op]? = some op)
    (hover : (t.execute r op).overflow = true) :
    after = [] ∧ s.run r initOnly budget = (t.execute r op).advance := by
  induction budget generalizing s before with
  | zero => cases before <;> cases htrace
  | succ budget ih =>
    rw [trace] at htrace
    rw [run]
    cases hcode : r.code[s.here.op]? with
    | none =>
      rw [hcode] at htrace
      cases before <;> cases htrace
    | some op' =>
      rw [hcode] at htrace
      dsimp only at htrace ⊢
      cases before with
      | nil =>
        obtain ⟨rfl, hafter⟩ := List.cons.inj htrace
        obtain rfl := Option.some.inj (hcode.symm.trans hop)
        have hstop : ((s.execute r op').advance.overflow || (initOnly && op' == .endInit)) = true := by
          rw [show (s.execute r op').advance.overflow = true from hover]
          rfl
        rw [if_pos hstop] at hafter ⊢
        exact ⟨hafter.symm, rfl⟩
      | cons u before =>
        have htail := (List.cons.inj htrace).2
        split at htail
        · cases before <;> cases htail
        · rename_i hgo
          rw [if_neg hgo]
          exact ih htail

end State

/-! ## Calls -/

namespace Machine

variable {N : Type} [Scalar N]

/-- What a call answers. -/
def answer (m : Machine N) : Call → Outcome
  | .pixel x => (m.perPixel x).1
  | .iterate => m.iterate.1

/-- An instruction of the call that overflows leaves the variables as they were, and the call ends
with it: no other instruction is executed and the call answers with the overflow. -/
def Stops (m : Machine N) (c : Call) : Prop :=
  ∀ before s after op, m.trace m.routine.budget c = before ++ s :: after →
    m.routine.code[s.here.op]? = some op → (s.execute m.routine op).overflow = true →
      s.overflow = false ∧ (s.execute m.routine op).vars = s.vars ∧ after = [] ∧
        m.answer c = .overflow ∧ (m.call c).state.vars = s.vars

theorem stops [SquaresSuffice N] (m : Machine N) (c : Call) : m.Stops c := by
  intro before s after op htrace hop hover
  have hmem : s ∈ m.trace m.routine.budget c := by
    rw [htrace]
    exact List.mem_append_right _ List.mem_cons_self
  cases c with
  | pixel x =>
    rw [trace] at htrace hmem
    by_cases hnone : ((m.atPixel x).overflow || !m.routine.hasInit) = true
    · rw [if_pos hnone] at hmem
      exact absurd hmem List.not_mem_nil
    rw [if_neg hnone] at htrace hmem
    obtain ⟨hstart, hinit⟩ := not_or.mp (fun h => hnone (Bool.or_eq_true_iff.mpr h))
    have hinit : m.routine.hasInit = true := by simpa using hinit
    have hs := State.overflow_of_mem_trace (Bool.eq_false_iff.mpr hstart) hmem
    have hvars := State.vars_execute hs hover
    obtain ⟨hafter, hrun⟩ := State.run_of_overflow htrace hop hover
    refine ⟨hs, hvars, hafter, ?_, ?_⟩
    · rw [answer, perPixel]
      dsimp only
      rw [if_neg hstart, if_pos hinit, hrun]
      exact if_pos hover
    · rw [call_pixel hstart hinit, hrun]
      exact hvars
  | iterate =>
    rw [trace] at htrace hmem
    by_cases hstop : m.state.overflow = true
    · rw [if_pos hstop] at hmem
      exact absurd hmem List.not_mem_nil
    rw [if_neg hstop] at htrace hmem
    have hstart : m.atEntry.overflow = false := by
      rw [← Bool.eq_false_iff.mpr hstop]
      unfold atEntry
      dsimp only
      split <;> rfl
    have hs := State.overflow_of_mem_trace hstart hmem
    have hvars := State.vars_execute hs hover
    obtain ⟨hafter, hrun⟩ := State.run_of_overflow htrace hop hover
    refine ⟨hs, hvars, hafter, ?_, ?_⟩
    · rw [answer, iterate, if_neg hstop]
      dsimp only
      rw [hrun]
      exact if_pos hover
    · rw [call_iterate hstop, hrun]
      exact hvars

/-- A call that answers with an overflow leaves the machine stopped. -/
theorem overflow_of_answer {m : Machine N} {c : Call} (h : m.answer c = .overflow) :
    (m.call c).state.overflow = true := by
  cases c with
  | pixel x =>
    rw [answer, perPixel] at h
    rw [call, perPixel]
    dsimp only at h ⊢
    split
    · assumption
    · rename_i hstart
      rw [if_neg hstart] at h
      generalize (if m.routine.hasInit then _ else _ : State N).saveEntry = s at h ⊢
      exact Decidable.byContradiction fun hno => by
        rw [if_neg hno] at h
        cases h
  | iterate =>
    rw [answer, iterate] at h
    rw [call, iterate]
    split
    · assumption
    · rename_i hstart
      rw [if_neg hstart] at h
      dsimp only at h ⊢
      split at h
      · assumption
      · split at h <;> cases h

end Machine

/-! ## Formulas -/

namespace Engine

def answer (e : Engine) : Call → Outcome
  | .pixel x => (e.perPixel x).1
  | .iterate => e.iterate.1

def Stops (e : Engine) (c : Call) : Prop :=
  e.Satisfies fun _ _ m => m.Stops c

theorem stops (e : Engine) (c : Call) : e.Stops c := by
  cases e with
  | float m | fixed scale m | extended m => exact m.stops c

theorem overflow_of_answer {e : Engine} {c : Call} (h : e.answer c = .overflow) :
    (e.call c).overflow = true := by
  cases e with
  | float m | fixed scale m | extended m =>
    have hover : (m.call c).state.overflow = true :=
      Machine.overflow_of_answer (by cases c <;> exact h)
    cases c <;> exact hover

theorem iterate_of_overflow {e : Engine} (h : e.overflow = true) : e.iterate = (.overflow, e) := by
  cases e with
  | float m | fixed scale m | extended m =>
    have hm : m.iterate = (.overflow, m) := if_pos h
    rw [iterate, hm]
    rfl

/-- After an overflow an engine stays as it is, however often it is iterated. -/
theorem foldl_iterate_of_overflow {e : Engine} (h : e.overflow = true) (n : Nat) :
    (List.replicate n Call.iterate).foldl call e = e := by
  induction n with
  | zero => rfl
  | succ n ih =>
    rw [List.replicate_succ, List.foldl_cons, call, iterate_of_overflow h]
    exact ih

end Engine

namespace Formula

/-- In whatever number format and after whatever calls: an instruction that overflows leaves all
variables as they were and ends its call.  From a call that answers with an overflow to the next
pixel every iteration answers with it too and leaves the machine as it is. -/
theorem overflow_stops (f : Formula) (before : List Call) (c : Call) :
    (f.after before).Stops c ∧
      ((f.after before).answer c = .overflow → ∀ n,
        let e := f.after (before ++ c :: List.replicate n .iterate)
        e = f.after (before ++ [c]) ∧ e.iterate = (.overflow, e)) := by
  refine ⟨Engine.stops _ c, fun h n => ?_⟩
  have hover := Engine.overflow_of_answer h
  have hlast : f.after (before ++ [c]) = (f.after before).call c := List.foldl_append
  have hall : f.after (before ++ c :: List.replicate n .iterate) = (f.after before).call c :=
    List.foldl_append.trans (Engine.foldl_iterate_of_overflow hover n)
  rw [hall, hlast]
  exact ⟨rfl, Engine.iterate_of_overflow hover⟩

end Formula
end FractalFormula
