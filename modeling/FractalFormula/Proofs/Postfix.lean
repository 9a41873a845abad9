/-
The order of emission, piece by piece.

`linearize_append` cuts a list of operators in two wherever the second part starts with an operator
that binds no tighter than any of the first, and `linearize_cons` puts an operator behind a list of
operators that all bind tighter.  The postfix form of an expression needs nothing else.
-/
import FractalFormula.Program.Compile

namespace FractalFormula
namespace Pending

variable {α : Type}

/-- What operators emit when they wait no longer. -/
def outputs (ops : List (Pending α)) : List α :=
  ops.filterMap op

theorem outputs_append (u v : List (Pending α)) : outputs (u ++ v) = outputs u ++ outputs v :=
  List.filterMap_append

/-- `u` is bounded by the first operator of `w`, if there is one. -/
def Below (u w : List (Pending α)) : Prop :=
  ∀ x ∈ u, ∀ b ∈ w.head?, x.prec < b.prec

/-- The first operator of `w`, if there is one, binds no tighter than any of `u`. -/
def Within (u w : List (Pending α)) : Prop :=
  ∀ x ∈ u, ∀ b ∈ w.head?, x.prec ≤ b.prec

theorem Below.nil (u : List (Pending α)) : Below u [] := by
  intro x _ b hb
  simp at hb

theorem Within.nil (u : List (Pending α)) : Within u [] := by
  intro x _ b hb
  simp at hb

/-- An operator that binds tighter than the first of `w` releases none of `w`. -/
theorem release_append {p : Pending α} {w : List (Pending α)} (u : List (Pending α))
    (h : ∀ b ∈ w.head?, p.prec < b.prec) :
    (u ++ w).takeWhile (·.prec ≤ p.prec) = u.takeWhile (·.prec ≤ p.prec) ∧
      (u ++ w).dropWhile (·.prec ≤ p.prec) = u.dropWhile (·.prec ≤ p.prec) ++ w := by
  induction u with
  | nil =>
    cases w with
    | nil => exact ⟨rfl, rfl⟩
    | cons b w =>
      have hb : ¬ b.prec ≤ p.prec := Int.not_le.mpr (h b rfl)
      simp [List.takeWhile, List.dropWhile, hb]
  | cons q u ih =>
    by_cases hq : q.prec ≤ p.prec
    · simp only [List.cons_append, List.takeWhile_cons, List.dropWhile_cons, hq, decide_true,
        if_true, ih, and_self]
    · simp [hq]

/-- Operators that bind tighter than all that waits leave it waiting, whatever comes next. -/
theorem emit_append (xs ys : List (Pending α)) :
    ∀ (u w : List (Pending α)), Below xs w →
      ∃ out rest, emit (u ++ w) (xs ++ ys) = out ++ emit (rest ++ w) ys ∧
        emit u xs = out ++ outputs rest ∧ ∀ q ∈ rest, q ∈ u ∨ q ∈ xs := by
  induction xs with
  | nil =>
    intro u w _
    exact ⟨[], u, rfl, rfl, fun q hq => Or.inl hq⟩
  | cons p xs ih =>
    intro u w h
    obtain ⟨htake, hdrop⟩ := release_append u (h p List.mem_cons_self)
    obtain ⟨out, rest, hout, hrest, hmem⟩ := ih (p :: u.dropWhile (·.prec ≤ p.prec)) w
      (fun x hx => h x (List.mem_cons_of_mem p hx))
    refine ⟨outputs (u.takeWhile (·.prec ≤ p.prec)) ++ out, rest, ?_, ?_, ?_⟩
    · rw [List.cons_append, emit, htake, hdrop, ← List.cons_append, hout, List.append_assoc]
      rfl
    · rw [emit, hrest, List.append_assoc]
      rfl
    · intro q hq
      rcases hmem q hq with hq | hq
      · rcases List.mem_cons.mp hq with rfl | hq
        · exact Or.inr List.mem_cons_self
        · exact Or.inl ((List.dropWhile_suffix _).subset hq)
      · exact Or.inr (List.mem_cons_of_mem p hq)

/-- A newcomer that binds no tighter than `u` releases all of it. -/
theorem emit_release {u ys : List (Pending α)} (w : List (Pending α)) (h : Within u ys) :
    emit (u ++ w) ys = outputs u ++ emit w ys := by
  cases ys with
  | nil => exact outputs_append u w
  | cons y ys =>
    have hall : ∀ x ∈ u, decide (x.prec ≤ y.prec) = true := fun x hx => by
      simpa using h x hx y rfl
    have htake : (u ++ w).takeWhile (·.prec ≤ y.prec) = u ++ w.takeWhile (·.prec ≤ y.prec) :=
      List.takeWhile_append_of_pos hall
    have hdrop : (u ++ w).dropWhile (·.prec ≤ y.prec) = w.dropWhile (·.prec ≤ y.prec) :=
      List.dropWhile_append_of_pos hall
    rw [emit, emit, htake, hdrop, ← List.append_assoc]
    exact congrArg (· ++ _) (outputs_append _ _)

/-- A piece of the input that binds tighter than what waits, and no looser than what comes next,
is emitted on its own. -/
theorem emit_piece {xs ys w : List (Pending α)} (hw : Below xs w) (hy : Within xs ys) :
    emit w (xs ++ ys) = linearize xs ++ emit w ys := by
  obtain ⟨out, rest, hout, hrest, hmem⟩ := emit_append xs ys [] w hw
  have hwithin : Within rest ys := fun q hq => by
    rcases hmem q hq with hq | hq
    · simp at hq
    · exact hy q hq
  calc emit w (xs ++ ys)
      = out ++ emit (rest ++ w) ys := hout
    _ = out ++ (outputs rest ++ emit w ys) := by rw [emit_release w hwithin]
    _ = linearize xs ++ emit w ys := by rw [linearize, hrest, List.append_assoc]

theorem linearize_append {xs ys : List (Pending α)} (h : Within xs ys) :
    linearize (xs ++ ys) = linearize xs ++ linearize ys :=
  emit_piece (Below.nil xs) h

/-- An operator is emitted after all that bind tighter and follow it at once. -/
theorem linearize_cons {p : Pending α} {xs : List (Pending α)} (h : ∀ x ∈ xs, x.prec < p.prec) :
    linearize (p :: xs) = linearize xs ++ outputs [p] := by
  have hbelow : Below xs [p] := fun x hx b hb => by
    obtain rfl : p = b := by simpa using hb
    exact h x hx
  have := emit_piece hbelow (Within.nil xs)
  rwa [List.append_nil] at this

/-- What emits nothing can be left out in front: it only ends the wait of what came before it. -/
theorem linearize_none_cons (c : Int) (zs : List (Pending α)) :
    linearize (⟨none, c⟩ :: zs) = linearize zs := by
  let run := zs.takeWhile (·.prec < c)
  let rest := zs.dropWhile (·.prec < c)
  have hrun : ∀ x ∈ run, x.prec < c := fun x hx => by
    have := List.all_eq_true.mp (List.all_takeWhile (p := (·.prec < c)) (l := zs)) x hx
    simpa using this
  have hrest : ∀ b ∈ rest.head?, c ≤ b.prec := fun b hb => by
    have := List.head?_dropWhile_not (·.prec < c) zs
    rw [show zs.dropWhile (·.prec < c) = rest from rfl, Option.mem_def.mp hb] at this
    simpa using this
  have hsplit : zs = run ++ rest := List.takeWhile_append_dropWhile.symm
  have hone : Within (⟨none, c⟩ :: run) rest := fun x hx b hb => by
    rcases List.mem_cons.mp hx with rfl | hx
    · exact hrest b hb
    · exact Int.le_trans (Int.le_of_lt (hrun x hx)) (hrest b hb)
  calc linearize (⟨none, c⟩ :: zs)
      = linearize ((⟨none, c⟩ :: run) ++ rest) := by rw [hsplit, List.cons_append]
    _ = linearize (⟨none, c⟩ :: run) ++ linearize rest := linearize_append hone
    _ = linearize run ++ linearize rest := by rw [linearize_cons hrun]; simp [outputs]
    _ = linearize (run ++ rest) :=
        (linearize_append fun x hx => hone x (List.mem_cons_of_mem _ hx)).symm
    _ = linearize zs := by rw [← hsplit]

/-! ## Nothing is lost -/

theorem emit_perm (xs : List (Pending α)) :
    ∀ w : List (Pending α), (emit w xs).Perm (outputs (w ++ xs)) := by
  induction xs with
  | nil =>
    intro w
    rw [List.append_nil]
    exact List.Perm.refl _
  | cons p xs ih =>
    intro w
    have hw : outputs w =
        outputs (w.takeWhile (·.prec ≤ p.prec)) ++ outputs (w.dropWhile (·.prec ≤ p.prec)) := by
      rw [← outputs_append, List.takeWhile_append_dropWhile]
    rw [outputs_append, hw, List.append_assoc]
    refine ((ih _).append_left _).trans (List.Perm.append_left _ ?_)
    rw [← outputs_append]
    exact List.Perm.filterMap op List.perm_middle.symm

theorem linearize_perm (ops : List (Pending α)) : (linearize ops).Perm (outputs ops) :=
  emit_perm ops []

end Pending
end FractalFormula
