/-
Places in code.

A place is counted off from the code before it (`Place.index`), and places add up along with pieces
of code (`past_append`).  The landings of the jump table and the lines of the listing are counted in
the same way.
-/
import FractalFormula.Machine.State
import FractalFormula.Program.Basic
import FractalFormula.Program.Jumps

namespace FractalFormula
namespace Place

/-- Where a piece of code ends that begins at `here`. -/
def past (here : Place) (ops : List Opcode) : Place :=
  ⟨here.op + ops.length, here.loads + ops.count .load, here.stores + ops.count .store,
    here.jumps + ops.countP Opcode.isJump⟩

@[simp] theorem past_nil (here : Place) : here.past [] = here := rfl

theorem past_append (here : Place) (xs ys : List Opcode) :
    here.past (xs ++ ys) = (here.past xs).past ys := by
  simp only [past, List.length_append, List.count_append, List.countP_append, Nat.add_assoc]

theorem past_cons (here : Place) (op : Opcode) (ops : List Opcode) :
    here.past (op :: ops) = (here.past [op]).past ops :=
  here.past_append [op] ops

theorem past_jump {op : Opcode} (h : op.isJump = true) (here : Place) :
    here.past [op] = { here with op := here.op + 1, jumps := here.jumps + 1 } := by
  cases op with
  | jump | jumpOnFalse | jumpOnTrue | label => rfl
  | _ => cases h

/-- The place of instruction `n`. -/
def index (code : List Opcode) (n : Nat) : Place :=
  start.past (code.take n)

theorem index_op {code : List Opcode} {n : Nat} (h : n ≤ code.length) : (index code n).op = n := by
  show 0 + (code.take n).length = n
  rw [List.length_take]
  omega

theorem index_length (pre post : List Opcode) : index (pre ++ post) pre.length = start.past pre := by
  rw [index, List.take_left]

theorem index_succ {code : List Opcode} {n : Nat} {op : Opcode} (h : code[n]? = some op) :
    index code (n + 1) = (index code n).past [op] := by
  obtain ⟨hn, rfl⟩ := List.getElem?_eq_some_iff.mp h
  rw [index, index, ← past_append, List.take_append_getElem hn]

/-- Code cut at one of its instructions. -/
theorem exists_split {code : List Opcode} {n : Nat} {op : Opcode} (h : code[n]? = some op) :
    ∃ pre post, code = pre ++ op :: post ∧ pre.length = n ∧ index code n = start.past pre := by
  obtain ⟨hn, rfl⟩ := List.getElem?_eq_some_iff.mp h
  refine ⟨code.take n, code.drop (n + 1), ?_, List.length_take_of_le (Nat.le_of_lt hn), rfl⟩
  rw [← List.drop_eq_getElem_cons hn, List.take_append_drop]

/-! ## Landings -/

def landing (p : Place) : Landing := ⟨p.op, p.loads, p.stores⟩

end Place

namespace Jumps

theorem landings_cons (here : Place) (op : Opcode) (ops : List Opcode) :
    landings here.landing (op :: ops) =
      (if op.isJump then [(op, here.landing)] else []) ++ landings (here.past [op]).landing ops := by
  have hnext : (⟨here.op + 1, here.loads + if op = .load then 1 else 0,
      here.stores + if op = .store then 1 else 0⟩ : Landing) = (here.past [op]).landing := by
    simp only [Place.past, Place.landing, List.length_singleton, List.count_singleton, beq_iff_eq]
  rw [landings]
  simp only [Place.landing] at hnext ⊢
  rw [hnext]
  split <;> rfl

theorem landings_append (xs ys : List Opcode) : ∀ here : Place,
    landings here.landing (xs ++ ys) =
      landings here.landing xs ++ landings (here.past xs).landing ys := by
  induction xs with
  | nil => exact fun _ => rfl
  | cons op xs ih =>
    intro here
    rw [List.cons_append, landings_cons, ih, landings_cons, List.append_assoc, ← Place.past_cons]

theorem map_fst_landings (ops : List Opcode) : ∀ here : Place,
    (landings here.landing ops).map Prod.fst = ops.filter Opcode.isJump := by
  induction ops with
  | nil => exact fun _ => rfl
  | cons op ops ih =>
    intro here
    rw [landings_cons, List.map_append, ih, List.filter_cons]
    split <;> rfl

theorem length_landings (here : Place) (ops : List Opcode) :
    (landings here.landing ops).length = ops.countP Opcode.isJump := by
  rw [← List.length_map (f := Prod.fst), map_fst_landings, List.countP_eq_length_filter]

/-- A jump instruction has the landing whose number is how many stand before it. -/
theorem getElem?_landings {pre post : List Opcode} {op : Opcode} (h : op.isJump = true) :
    (landings .zero (pre ++ op :: post))[(Place.start.past pre).jumps]? =
      some (op, (Place.start.past pre).landing) := by
  have hlen := length_landings .start pre
  have hjumps : (Place.start.past pre).jumps = pre.countP Opcode.isJump := Nat.zero_add _
  show (landings Place.start.landing (pre ++ op :: post))[_]? = _
  rw [landings_append, hjumps, List.getElem?_append_right (Nat.le_of_eq hlen), hlen, Nat.sub_self,
    landings_cons, if_pos h]
  rfl

/-- Every landing is that of a jump instruction. -/
theorem exists_of_getElem?_landings {code : List Opcode} {k : Nat} {x : Opcode × Landing}
    (h : (landings .zero code)[k]? = some x) :
    ∃ n, code[n]? = some x.1 ∧ x.1.isJump = true ∧ (Place.index code n).jumps = k ∧
      (Place.index code n).landing = x.2 := by
  suffices hgen : ∀ (ops pre : List Opcode),
      (landings (Place.start.past pre).landing ops)[k]? = some x →
      ∃ mid op post, ops = mid ++ op :: post ∧ op = x.1 ∧ op.isJump = true ∧
        (Place.start.past (pre ++ mid)).landing = x.2 ∧ mid.countP Opcode.isJump = k by
    obtain ⟨mid, op, post, rfl, rfl, hjump, hland, hk⟩ := hgen code [] h
    refine ⟨mid.length, by simp, hjump, ?_, ?_⟩
    · rw [Place.index_length]
      exact (Nat.zero_add _).trans hk
    · rwa [Place.index_length]
  clear h
  intro ops
  induction ops generalizing k with
  | nil => intro pre h; simp [landings] at h
  | cons op ops ih =>
    intro pre h
    rw [landings_cons, ← Place.past_append] at h
    by_cases hjump : op.isJump = true
    · rw [if_pos hjump] at h
      cases k with
      | zero =>
        obtain rfl := Option.some.inj h
        exact ⟨[], op, ops, rfl, rfl, hjump, by rw [List.append_nil], rfl⟩
      | succ k =>
        obtain ⟨mid, op', post, hops, hop, hjump', hland, hk⟩ := ih _ h
        refine ⟨op :: mid, op', post, by rw [hops]; rfl, hop, hjump', ?_, ?_⟩
        · rwa [List.append_assoc] at hland
        · rw [List.countP_cons_of_pos hjump, hk]
    · rw [if_neg hjump] at h
      obtain ⟨mid, op', post, hops, hop, hjump', hland, hk⟩ := ih _ h
      refine ⟨op :: mid, op', post, by rw [hops]; rfl, hop, hjump', ?_, ?_⟩
      · rwa [List.append_assoc] at hland
      · rw [List.countP_cons_of_neg hjump, hk]

end Jumps

/-! ## Listings -/

namespace Program

/-- The listing prints an instruction with the entries that the code before it leaves for it. -/
theorem getElem?_listingFrom (p : Program) (ops : List Opcode) : ∀ (here : Place) (n : Nat),
    (p.listingFrom here.op here.loads here.stores here.jumps ops)[n]? =
      ops[n]?.map fun op =>
        let there := here.past (ops.take n)
        p.line there.op there.loads there.stores there.jumps op := by
  induction ops with
  | nil => intro here n; rfl
  | cons op ops ih =>
    intro here n
    cases n with
    | zero => rfl
    | succ n =>
      have hnext := ih (here.past [op]) n
      simp only [Place.past, List.length_singleton, List.count_singleton, beq_iff_eq,
        List.countP_singleton] at hnext
      rw [listingFrom, List.getElem?_cons_succ, hnext, List.getElem?_cons_succ, List.take_succ_cons,
        Place.past_cons]
      simp only [Place.past, List.length_singleton, List.count_singleton, beq_iff_eq,
        List.countP_singleton]

end Program
end FractalFormula
