/-
The order of emission, place by place.

An operator is emitted behind all that follow it at once and bind tighter, and before everything
else that follows it (`linearize_around`).  With the places of the operators in their stead this
says which of two places comes first (`emission_order`).  The same order comes from a recursion that
emits an operator after whatever binds tighter behind it, and that goes on wherever this has come to
(`descend_eq_linearize`).
-/
import FractalFormula.Program.Opcode
import FractalFormula.Proofs.Postfix
import Mathlib.Data.List.TakeWhile

namespace FractalFormula
namespace Pending

variable {α β : Type}

/-! ## What binds tighter and follows at once -/

theorem eq_false_of_mem_head?_dropWhile {f : Pending α → Bool} {ops : List (Pending α)}
    {b : Pending α} (h : b ∈ (ops.dropWhile f).head?) : f b = false := by
  have hstop := List.head?_dropWhile_not f ops
  rw [Option.mem_def.mp h] at hstop
  simpa using hstop

/-- The operators at the front that bind tighter than `p`. -/
def run (p : Pending α) (ops : List (Pending α)) : List (Pending α) :=
  ops.takeWhile (·.prec < p.prec)

/-- The operators from the first on that does not bind tighter than `p`. -/
def beyond (p : Pending α) (ops : List (Pending α)) : List (Pending α) :=
  ops.dropWhile (·.prec < p.prec)

theorem run_append_beyond (p : Pending α) (ops : List (Pending α)) :
    p.run ops ++ p.beyond ops = ops :=
  List.takeWhile_append_dropWhile

theorem prec_lt_of_mem_run {p x : Pending α} {ops : List (Pending α)} (h : x ∈ p.run ops) :
    x.prec < p.prec := by
  simpa using List.mem_takeWhile_imp h

theorem within_beyond (p : Pending α) (ops : List (Pending α)) :
    Within (p :: p.run ops) (p.beyond ops) := by
  intro x hx b hb
  have hle : p.prec ≤ b.prec := by simpa using eq_false_of_mem_head?_dropWhile hb
  rcases List.mem_cons.mp hx with rfl | hx
  · exact hle
  · exact Int.le_trans (Int.le_of_lt (prec_lt_of_mem_run hx)) hle

/-- An operator is emitted right behind its run, and what lies beyond comes later. -/
theorem linearize_around (xs : List (Pending α)) (p : Pending α) (ops : List (Pending α)) :
    ∃ before after, linearize (xs ++ p :: ops) =
      before ++ linearize (p.run ops) ++ outputs [p] ++ after ∧
        outputs (p.beyond ops) ⊆ after := by
  obtain ⟨out, waiting, hout, -, -⟩ := emit_append xs (p :: ops) [] [] (Below.nil xs)
  let released := waiting.takeWhile (·.prec ≤ p.prec)
  let kept := waiting.dropWhile (·.prec ≤ p.prec)
  have hreleased : Within released (p :: ops) := by
    intro x hx b hb
    obtain rfl : p = b := by simpa using hb
    simpa using List.mem_takeWhile_imp hx
  have hkept : Below (p :: p.run ops) kept := by
    intro x hx b hb
    have hlt : p.prec < b.prec := by simpa using eq_false_of_mem_head?_dropWhile hb
    rcases List.mem_cons.mp hx with rfl | hx
    · exact hlt
    · exact Int.lt_trans (prec_lt_of_mem_run hx) hlt
  refine ⟨out ++ outputs released, emit kept (p.beyond ops), ?_, ?_⟩
  · calc linearize (xs ++ p :: ops)
        = out ++ emit (released ++ kept) (p :: ops) := by
          rw [List.takeWhile_append_dropWhile, ← List.append_nil waiting]
          exact hout
      _ = out ++ (outputs released ++ emit kept ((p :: p.run ops) ++ p.beyond ops)) := by
          rw [emit_release kept hreleased, List.cons_append, run_append_beyond]
      _ = out ++ (outputs released ++ (linearize (p.run ops) ++ outputs [p] ++
            emit kept (p.beyond ops))) := by
          rw [emit_piece hkept (within_beyond p ops), linearize_cons fun x => prec_lt_of_mem_run]
      _ = _ := by simp only [List.append_assoc]
  · intro a ha
    rw [(emit_perm (p.beyond ops) kept).mem_iff, outputs_append]
    exact List.mem_append_right _ ha

/-! ## Emission by recursion -/

/-- What is emitted from the front of some operators, and what is left of them. -/
structure Emission (ops : List (Pending α)) where
  code : List α
  left : List (Pending α)
  length_le : left.length ≤ ops.length

/-- Emits the operators at the front that bind tighter than `p`, each behind those that bind tighter
than itself, and goes on from there. -/
def inside (p : Pending α) : (ops : List (Pending α)) → Emission ops
  | [] => ⟨[], [], Nat.le_refl 0⟩
  | q :: ops =>
    if q.prec < p.prec then
      let first := q.inside ops
      let next := p.inside first.left
      ⟨first.code ++ outputs [q] ++ next.code, next.left,
        Nat.le_succ_of_le (Nat.le_trans next.length_le first.length_le)⟩
    else ⟨[], q :: ops, Nat.le_refl _⟩
termination_by ops => ops.length
decreasing_by
  · exact Nat.lt_succ_self _
  · exact Nat.lt_succ_of_le first.length_le

/-- Emits operators in the order of the list, each behind those that follow it and bind tighter. -/
def descend : List (Pending α) → List α
  | [] => []
  | p :: ops =>
    if p.op.isSome then
      let rest := p.inside ops
      rest.code ++ outputs [p] ++ descend rest.left
    else descend ops
termination_by ops => ops.length
decreasing_by
  · exact Nat.lt_succ_of_le rest.length_le
  · exact Nat.lt_succ_self _

/-- The run of `p` goes on behind the run of an operator that begins it. -/
theorem run_cons {p q : Pending α} (h : q.prec < p.prec) (ops : List (Pending α)) :
    p.run (q :: ops) = (q :: q.run ops) ++ p.run (q.beyond ops) ∧
      p.beyond (q :: ops) = p.beyond (q.beyond ops) := by
  have hfirst : ∀ x ∈ q :: q.run ops, decide (x.prec < p.prec) = true := fun x hx => by
    rcases List.mem_cons.mp hx with rfl | hx
    · simpa using h
    · simpa using Int.lt_trans (prec_lt_of_mem_run hx) h
  have hsplit : q :: ops = (q :: q.run ops) ++ q.beyond ops := by
    rw [List.cons_append, run_append_beyond]
  constructor
  · rw [run, hsplit, List.takeWhile_append_of_pos hfirst]
    rfl
  · rw [beyond, hsplit, List.dropWhile_append_of_pos hfirst]
    rfl

theorem within_run {xs ys : List (Pending α)} (h : Within xs ys) (p : Pending α) :
    Within xs (p.run ys) := by
  intro x hx b hb
  refine h x hx b ?_
  rw [← run_append_beyond p ys, List.head?_append, Option.mem_def.mp hb]
  rfl

/-- By recursion on what is left: the first of the run takes its own run along. -/
theorem inside_eq (p : Pending α) (ops : List (Pending α)) :
    (p.inside ops).code = linearize (p.run ops) ∧ (p.inside ops).left = p.beyond ops := by
  fun_induction inside p ops with
  | case1 p => exact ⟨rfl, rfl⟩
  | case2 p q ops h first next ihfirst ihnext =>
    obtain ⟨hcode, hleft⟩ : first.code = linearize (q.run ops) ∧ first.left = q.beyond ops :=
      ihfirst
    have hcode' : next.code = linearize (p.run (q.beyond ops)) :=
      ihnext.1.trans (congrArg (fun left => linearize (p.run left)) hleft)
    have hleft' : next.left = p.beyond (q.beyond ops) := ihnext.2.trans (congrArg p.beyond hleft)
    obtain ⟨hrun, hbeyond⟩ := run_cons h ops
    refine ⟨?_, hleft'.trans hbeyond.symm⟩
    show first.code ++ outputs [q] ++ next.code = _
    calc first.code ++ outputs [q] ++ next.code
        = linearize (q :: q.run ops) ++ linearize (p.run (q.beyond ops)) := by
          rw [hcode, hcode', linearize_cons fun x => prec_lt_of_mem_run]
      _ = linearize (p.run (q :: ops)) := by
          rw [hrun, linearize_append (within_run (within_beyond q ops) p)]
  | case3 p q ops h =>
    have hrun : p.run (q :: ops) = [] := List.takeWhile_cons_of_neg (by simpa using h)
    have hbeyond : p.beyond (q :: ops) = q :: ops := List.dropWhile_cons_of_neg (by simpa using h)
    rw [hrun, hbeyond]
    exact ⟨rfl, rfl⟩

theorem descend_eq_linearize (ops : List (Pending α)) : descend ops = linearize ops := by
  fun_induction descend ops with
  | case1 => rfl
  | case2 p ops h rest ih =>
    obtain ⟨hcode, hleft⟩ := p.inside_eq ops
    rw [hleft] at ih
    calc rest.code ++ outputs [p] ++ descend rest.left
        = linearize (p :: p.run ops) ++ linearize (p.beyond ops) := by
          rw [hcode, hleft, ih, linearize_cons fun x => prec_lt_of_mem_run]
      _ = linearize (p :: ops) := by
          rw [← linearize_append (within_beyond p ops), List.cons_append, run_append_beyond]
  | case3 p ops h ih =>
    obtain ⟨op, prec⟩ := p
    obtain rfl : op = none := by simpa using h
    rw [ih, linearize_none_cons]

/-- An entry at the end that emits nothing changes nothing. -/
theorem linearize_concat_none (ops : List (Pending α)) (prec : Int) :
    linearize (ops ++ [⟨none, prec⟩]) = linearize ops := by
  let last : Pending α := ⟨none, prec⟩
  obtain ⟨out, waiting, hout, hall, -⟩ := emit_append ops [last] [] [] (Below.nil ops)
  have hlast : emit (waiting ++ []) [last] = outputs waiting := by
    rw [List.append_nil, emit, emit, List.filterMap_cons_none rfl, ← List.filterMap_append,
      List.takeWhile_append_dropWhile]
    rfl
  calc linearize (ops ++ [last])
      = out ++ emit (waiting ++ []) [last] := hout
    _ = linearize ops := by rw [hlast, linearize, hall]

/-! ## Places -/

/-- The operator at a place, if there is one. -/
def operatorAt (ops : List (Pending α)) (i : Nat) : Option α :=
  ops[i]?.bind op

/-- The operators with their places in their stead. -/
def numbered (ops : List (Pending α)) : List (Pending Nat) :=
  ops.mapIdx fun i p => ⟨p.op.map fun _ => i, p.prec⟩

/-- The places of the operators in the order in which these are emitted. -/
def places (ops : List (Pending α)) : List Nat :=
  linearize (numbered ops)

/-- Each operator gives way to what `f` makes of it. -/
def bindOp (f : α → Option β) (p : Pending α) : Pending β :=
  ⟨p.op.bind f, p.prec⟩

/-- What operators are plays no part in their order. -/
theorem linearize_map_bindOp (f : α → Option β) (ops : List (Pending α)) :
    linearize (ops.map (bindOp f)) = (linearize ops).filterMap f := by
  suffices hgen : ∀ waiting, emit (waiting.map (bindOp f)) (ops.map (bindOp f)) =
      (emit waiting ops).filterMap f from hgen []
  have outputs_map (ops : List (Pending α)) :
      (ops.map (bindOp f)).filterMap op = (ops.filterMap op).filterMap f := by
    rw [List.filterMap_map, List.filterMap_filterMap]
    rfl
  induction ops with
  | nil => exact outputs_map
  | cons p ops ih =>
    intro waiting
    have hprec : (fun q : Pending β => decide (q.prec ≤ p.prec)) ∘ bindOp f =
        fun q => decide (q.prec ≤ p.prec) := rfl
    have hrest := ih (p :: waiting.dropWhile (·.prec ≤ p.prec))
    rw [List.map_cons, emit, emit, List.filterMap_append, ← hrest]
    show ((waiting.map (bindOp f)).takeWhile (·.prec ≤ p.prec)).filterMap op ++
      emit (bindOp f p :: (waiting.map (bindOp f)).dropWhile (·.prec ≤ p.prec)) _ = _
    rw [List.takeWhile_map, List.dropWhile_map, hprec, outputs_map, List.map_cons]

theorem map_numbered (ops : List (Pending α)) :
    (numbered ops).map (bindOp (operatorAt ops)) = ops := by
  refine List.ext_getElem? fun i => ?_
  rw [List.getElem?_map, numbered, List.getElem?_mapIdx, Option.map_map]
  cases hp : ops[i]? with
  | none => rfl
  | some p =>
    obtain ⟨op, prec⟩ := p
    have hop : operatorAt ops i = op := by rw [operatorAt, hp]; rfl
    cases op with
    | none => rfl
    | some a => exact congrArg some (congrArg (Pending.mk · prec) hop)

theorem linearize_eq_filterMap_places (ops : List (Pending α)) :
    linearize ops = (places ops).filterMap (operatorAt ops) := by
  rw [places, ← linearize_map_bindOp, map_numbered]

theorem mem_outputs_numbered {ops : List (Pending α)} {i : Nat} :
    i ∈ outputs (numbered ops) ↔ (operatorAt ops i).isSome = true := by
  rw [outputs, List.mem_filterMap]
  constructor
  · rintro ⟨q, hq, hi⟩
    obtain ⟨j, hj, rfl⟩ := List.mem_mapIdx.mp hq
    obtain ⟨a, ha, rfl⟩ := Option.map_eq_some_iff.mp hi
    rw [operatorAt, List.getElem?_eq_getElem hj, Option.bind_some, ha]
    rfl
  · intro h
    obtain ⟨a, ha⟩ := Option.isSome_iff_exists.mp h
    obtain ⟨p, hp, hop⟩ := Option.bind_eq_some_iff.mp ha
    obtain ⟨hi, rfl⟩ := List.getElem?_eq_some_iff.mp hp
    exact ⟨_, List.mem_mapIdx.mpr ⟨i, hi, rfl⟩, by rw [hop]; rfl⟩

theorem nodup_outputs_numbered (ops : List (Pending α)) : (outputs (numbered ops)).Nodup := by
  refine List.pairwise_filterMap.mpr (List.pairwise_iff_getElem.mpr ?_)
  intro i j hi hj hlt a ha b hb
  simp only [numbered, List.getElem_mapIdx, Option.map_eq_some_iff] at ha hb
  obtain ⟨-, -, rfl⟩ := ha
  obtain ⟨-, -, rfl⟩ := hb
  exact Nat.ne_of_lt hlt

theorem nodup_places (ops : List (Pending α)) : (places ops).Nodup :=
  (linearize_perm _).nodup_iff.mpr (nodup_outputs_numbered ops)

theorem mem_places {ops : List (Pending α)} {i : Nat} :
    i ∈ places ops ↔ (operatorAt ops i).isSome = true :=
  (linearize_perm _).mem_iff.trans mem_outputs_numbered

/-! ## Which of two places comes first -/

theorem suffix_beyond {p x : Pending α} (h : p.prec ≤ x.prec) (xs ys : List (Pending α)) :
    x :: ys <:+ p.beyond (xs ++ x :: ys) := by
  induction xs with
  | nil =>
    have hbeyond : p.beyond (x :: ys) = x :: ys :=
      List.dropWhile_cons_of_neg (by simpa using h)
    exact ⟨[], hbeyond.symm⟩
  | cons y xs ih =>
    by_cases hy : y.prec < p.prec
    · have hbeyond : p.beyond (y :: (xs ++ x :: ys)) = p.beyond (xs ++ x :: ys) :=
        List.dropWhile_cons_of_pos (by simpa using hy)
      rwa [List.cons_append, hbeyond]
    · have hbeyond : p.beyond (y :: (xs ++ x :: ys)) = y :: xs ++ x :: ys :=
        List.dropWhile_cons_of_neg (by simpa using hy)
      rw [List.cons_append, hbeyond]
      exact List.suffix_append _ _

section

variable {xs ys zs : List (Pending α)} {p q : Pending α} {a b : α}

/-- An operator comes before one that it binds tighter than, if all between them do so too. -/
theorem sublist_of_tighter (hp : p.op = some a) (hq : q.op = some b)
    (h : ∀ x ∈ ys ++ [q], x.prec < p.prec) :
    [b, a].Sublist (linearize (xs ++ p :: (ys ++ q :: zs))) := by
  obtain ⟨before, after, hcode, -⟩ := linearize_around xs p (ys ++ q :: zs)
  have hrun : q ∈ p.run (ys ++ q :: zs) := by
    rw [run, List.append_cons, List.takeWhile_append_of_pos fun x hx => by simpa using h x hx]
    exact List.mem_append_left _ (List.mem_append_right _ List.mem_cons_self)
  have hb : b ∈ before ++ linearize (p.run (ys ++ q :: zs)) :=
    List.mem_append_right _
      ((linearize_perm _).mem_iff.mpr (List.mem_filterMap.mpr ⟨q, hrun, hq⟩))
  have ha : a ∈ outputs [p] := List.mem_filterMap.mpr ⟨p, List.mem_cons_self, hp⟩
  rw [hcode]
  exact ((List.singleton_sublist.mpr hb).append (List.singleton_sublist.mpr ha)).trans
    (List.sublist_append_left _ after)

/-- Otherwise it comes after. -/
theorem sublist_of_not_tighter (hp : p.op = some a) (hq : q.op = some b)
    (h : ∃ x ∈ ys ++ [q], p.prec ≤ x.prec) :
    [a, b].Sublist (linearize (xs ++ p :: (ys ++ q :: zs))) := by
  obtain ⟨before, after, hcode, hafter⟩ := linearize_around xs p (ys ++ q :: zs)
  have hbeyond : q ∈ p.beyond (ys ++ q :: zs) := by
    obtain ⟨x, hx, hle⟩ := h
    rcases List.mem_append.mp hx with hx | hx
    · obtain ⟨u, v, rfl⟩ := List.append_of_mem hx
      have hsuffix := suffix_beyond hle u (v ++ q :: zs)
      rw [← List.cons_append, ← List.append_assoc] at hsuffix
      exact hsuffix.subset (by simp)
    · obtain rfl := List.mem_singleton.mp hx
      exact (suffix_beyond hle ys zs).subset List.mem_cons_self
  have ha : a ∈ before ++ linearize (p.run (ys ++ q :: zs)) ++ outputs [p] :=
    List.mem_append_right _ (List.mem_filterMap.mpr ⟨p, List.mem_cons_self, hp⟩)
  have hb : b ∈ after := hafter (List.mem_filterMap.mpr ⟨q, hbeyond, hq⟩)
  rw [hcode]
  exact (List.singleton_sublist.mpr ha).append (List.singleton_sublist.mpr hb)

end

/-- Of a list without repetitions no two members stand in either order. -/
theorem not_sublist_swap {l : List Nat} {i j : Nat} (h : l.Nodup) (hij : [i, j].Sublist l) :
    ¬ [j, i].Sublist l := by
  induction l with
  | nil => cases hij
  | cons a l ih =>
    obtain ⟨hfresh, hl⟩ := List.nodup_cons.mp h
    intro hji
    cases hij with
    | cons _ hij =>
      cases hji with
      | cons _ hji => exact ih hl hij hji
      | cons_cons _ _ => exact hfresh (hij.subset (by simp))
    | cons_cons _ hj =>
      cases hji with
      | cons _ hji => exact hfresh (hji.subset (by simp))
      | cons_cons _ _ => exact hfresh (hj.subset (by simp))

/-- Everything between the places `i` and `j` and what stands at `j` bind tighter than what stands
at `i`. -/
def Tighter (ops : List (Pending α)) (i j : Nat) : Prop :=
  ∀ p ∈ ops[i]?, ∀ k, i < k → k ≤ j → ∀ q ∈ ops[k]?, q.prec < p.prec

theorem tighter_numbered (ops : List (Pending α)) (i j : Nat) :
    Tighter (numbered ops) i j ↔ Tighter ops i j := by
  have hmap (k : Nat) (P : Int → Prop) :
      (∀ q ∈ (numbered ops)[k]?, P q.prec) ↔ ∀ q ∈ ops[k]?, P q.prec := by
    rw [numbered, List.getElem?_mapIdx]
    cases ops[k]? <;> simp
  unfold Tighter
  rw [hmap i fun prec => ∀ k, i < k → k ≤ j → ∀ q ∈ (numbered ops)[k]?, q.prec < prec]
  exact forall₂_congr fun p _ => forall₃_congr fun k _ _ => hmap k (· < p.prec)

/-- A list cut at two of its places. -/
theorem exists_cut {ops : List (Pending α)} {i j : Nat} {p q : Pending α} (hij : i < j)
    (hi : ops[i]? = some p) (hj : ops[j]? = some q) :
    ∃ xs ys zs, ops = xs ++ p :: (ys ++ q :: zs) ∧ xs.length = i ∧
      xs.length + 1 + ys.length = j := by
  have cut {l : List (Pending α)} {n : Nat} {r : Pending α} (h : l[n]? = some r) :
      l = l.take n ++ r :: l.drop (n + 1) ∧ (l.take n).length = n := by
    obtain ⟨hn, rfl⟩ := List.getElem?_eq_some_iff.mp h
    exact ⟨by rw [← List.drop_eq_getElem_cons hn, List.take_append_drop],
      List.length_take_of_le (Nat.le_of_lt hn)⟩
  obtain ⟨hops, hlen⟩ := cut hi
  have hdrop : (ops.drop (i + 1))[j - (i + 1)]? = some q := by
    rw [List.getElem?_drop, Nat.add_sub_cancel' hij, hj]
  obtain ⟨hrest, hlen'⟩ := cut hdrop
  refine ⟨_, _, _, by rwa [hrest] at hops, hlen, ?_⟩
  rw [hlen, hlen', Nat.add_sub_cancel' hij]

theorem tighter_iff {xs ys zs : List (Pending α)} {p q : Pending α} :
    Tighter (xs ++ p :: (ys ++ q :: zs)) xs.length (xs.length + 1 + ys.length) ↔
      ∀ x ∈ ys ++ [q], x.prec < p.prec := by
  have hfirst : (xs ++ p :: (ys ++ q :: zs))[xs.length]? = some p := by simp
  have hbehind {m : Nat} (hm : m < (ys ++ [q]).length) :
      (xs ++ p :: (ys ++ q :: zs))[xs.length + 1 + m]? = (ys ++ [q])[m]? := by
    rw [Nat.add_assoc, List.getElem?_append_right (Nat.le_add_right _ _), Nat.add_sub_cancel_left,
      Nat.add_comm 1, List.getElem?_cons_succ, List.append_cons, List.getElem?_append_left hm]
  constructor
  · intro h x hx
    obtain ⟨m, hm⟩ := List.mem_iff_getElem?.mp hx
    have hlt := (List.getElem?_eq_some_iff.mp hm).1
    rw [List.length_append, List.length_singleton] at hlt
    have hx := (hbehind (List.getElem?_eq_some_iff.mp hm).1).trans hm
    exact h p hfirst (xs.length + 1 + m) (by omega) (by omega) x hx
  · intro h p' hp' k hik hkj x hx
    obtain rfl : p = p' := Option.some.inj (hfirst.symm.trans hp')
    obtain ⟨m, rfl⟩ := Nat.exists_eq_add_of_lt hik
    rw [Nat.add_right_comm] at hx hkj
    have hlt : m < (ys ++ [q]).length := by
      rw [List.length_append, List.length_singleton]
      omega
    rw [hbehind hlt] at hx
    exact h x (List.mem_of_getElem? hx)

theorem places_sublist {ops : List (Pending α)} {i j : Nat} (hij : i < j)
    (hi : (operatorAt ops i).isSome = true) (hj : (operatorAt ops j).isSome = true) :
    (Tighter ops i j → [j, i].Sublist (places ops)) ∧
      (¬ Tighter ops i j → [i, j].Sublist (places ops)) := by
  have number {k : Nat} (h : (operatorAt ops k).isSome = true) :
      ∃ prec, (numbered ops)[k]? = some ⟨some k, prec⟩ := by
    obtain ⟨a, ha⟩ := Option.isSome_iff_exists.mp h
    obtain ⟨p, hp, hop⟩ := Option.bind_eq_some_iff.mp ha
    exact ⟨p.prec, by rw [numbered, List.getElem?_mapIdx, hp, Option.map_some, hop]; rfl⟩
  obtain ⟨_, hpi⟩ := number hi
  obtain ⟨_, hpj⟩ := number hj
  rw [← tighter_numbered, places]
  obtain ⟨xs, ys, zs, hops, rfl, rfl⟩ := exists_cut hij hpi hpj
  rw [hops, tighter_iff]
  refine ⟨sublist_of_tighter rfl rfl, fun h => sublist_of_not_tighter rfl rfl ?_⟩
  simpa only [not_forall, Int.not_lt, exists_prop] using h

/-- With any precedences, and with entries that emit nothing anywhere among them, the recursion
comes to an end and gives the same code; every operator is emitted once; and of two of them the
later comes first exactly if it and all entries between them bind tighter than the earlier. -/
theorem emission_order (ops : List (Pending α)) :
    descend (ops ++ [⟨none, 16⟩]) = linearize ops ∧
      linearize ops = (places ops).filterMap (operatorAt ops) ∧ (places ops).Nodup ∧
      (∀ i, i ∈ places ops ↔ (operatorAt ops i).isSome = true) ∧
      ∀ i j, i < j → (operatorAt ops i).isSome = true → (operatorAt ops j).isSome = true →
        ([j, i].Sublist (places ops) ↔ Tighter ops i j) ∧
          ([i, j].Sublist (places ops) ↔ ¬ Tighter ops i j) := by
  refine ⟨?_, linearize_eq_filterMap_places ops, nodup_places ops, fun _ => mem_places, ?_⟩
  · rw [descend_eq_linearize, linearize_concat_none]
  · intro i j hij hi hj
    obtain ⟨hbefore, hafter⟩ := places_sublist hij hi hj
    have hnot := not_sublist_swap (nodup_places ops) (i := i) (j := j)
    refine ⟨⟨fun hsub => ?_, hbefore⟩, ⟨fun hsub htighter => hnot hsub (hbefore htighter), hafter⟩⟩
    by_contra htighter
    exact hnot (hafter htighter) hsub

/-- In a difference of products, with an entry that emits nothing before the separator: a product
comes before the difference that it is taken from, and the separator after it. -/
theorem emission_order_difference :
    let ops : List (Pending Opcode) := [⟨some .load, 1⟩, ⟨some .sub, 4⟩, ⟨some .load, 1⟩,
      ⟨some .mul, 3⟩, ⟨some .load, 1⟩, ⟨none, 15⟩, ⟨some .clear, -30000⟩]
    ((operatorAt ops 1).isSome = true ∧ (operatorAt ops 3).isSome = true ∧
      (operatorAt ops 6).isSome = true) ∧
      ([3, 1].Sublist (places ops) ↔ Tighter ops 1 3) ∧
      ([1, 6].Sublist (places ops) ↔ ¬ Tighter ops 1 6) ∧ places ops = [0, 2, 4, 3, 1, 6] := by
  intro ops
  have hops : (operatorAt ops 1).isSome = true ∧ (operatorAt ops 3).isSome = true ∧
      (operatorAt ops 6).isSome = true := by decide
  obtain ⟨-, -, -, -, horder⟩ := emission_order ops
  exact ⟨hops, (horder 1 3 (by decide) hops.1 hops.2.1).1,
    (horder 1 6 (by decide) hops.1 hops.2.2).2, by decide⟩

end Pending
end FractalFormula
