/-
The form of a written number, and its value.

A number is digits, perhaps with a point before, among or behind them, and perhaps an exponent
(`Token.Numeral.IsNumeral`).  An exponent may end with its sign: then the number stands for what is
left without it (`Token.Numeral.settled`), and the value of the longest beginning that can be read is
the value of that (`Token.Numeral.read?_settled`).
-/
import FractalFormula.Proofs.Trailing
import FractalFormula.Token.Numeral

namespace FractalFormula
namespace Token
namespace Numeral

/-! ## The form of a number -/

def isSign (k : Char) : Bool :=
  k == '+' || k == '-'

def AllDigits (cs : List Char) : Prop :=
  ∀ k ∈ cs, k.isDigit = true

/-- One digit or more. -/
def Digits (cs : List Char) : Prop :=
  cs ≠ [] ∧ AllDigits cs

/-- Digits with a point behind or among them, or digits behind a point. -/
inductive IsPointed : List Char → Prop
  | within {ds fs : List Char} : Digits ds → AllDigits fs → IsPointed (ds ++ '.' :: fs)
  | before {fs : List Char} : Digits fs → IsPointed ('.' :: fs)

def IsBase (cs : List Char) : Prop :=
  Digits cs ∨ IsPointed cs

/-- Nothing, or the marker of an exponent with digits or a sign behind it.  The digits behind a sign
may be missing. -/
inductive IsExponent : List Char → Prop
  | none : IsExponent []
  | unsigned {ds : List Char} : Digits ds → IsExponent ('e' :: ds)
  | signed {s : Char} {ds : List Char} : isSign s = true → AllDigits ds → IsExponent ('e' :: s :: ds)

def IsNumeral (cs : List Char) : Prop :=
  ∃ base exponent, cs = base ++ exponent ∧ IsBase base ∧ IsExponent exponent

/-- The longest beginning that is a number. -/
structure Longest (w cs : List Char) : Prop where
  numeral : IsNumeral w
  isPrefix : w <+: cs
  length_le : ∀ v, IsNumeral v → v <+: cs → v.length ≤ w.length

/-- The longest beginning that is a number is not too long, and what follows it is neither a point
nor a letter of a name. -/
structure Complete (w cs : List Char) : Prop where
  longest : Longest w cs
  length_le : w.length ≤ lengthLimit
  ends : ∃ k rest, cs = w ++ k :: rest ∧ k ≠ '.' ∧ k.isAlpha = false ∧ k ≠ '_'

variable {k : Char} {ks cs w : List Char}

theorem AllDigits.nil : AllDigits [] :=
  nofun

theorem AllDigits.append (h : AllDigits cs) (hk : k.isDigit = true) : AllDigits (cs ++ [k]) := by
  intro c hc
  rcases List.mem_append.mp hc with hc | hc
  · exact h c hc
  · rw [List.mem_singleton.mp hc, hk]

theorem Digits.append (h : AllDigits cs) (hk : k.isDigit = true) : Digits (cs ++ [k]) :=
  ⟨by simp, h.append hk⟩

theorem IsPointed.append (h : IsPointed cs) (hk : k.isDigit = true) : IsPointed (cs ++ [k]) := by
  cases h with
  | within hds hfs =>
    rw [List.append_assoc]
    exact .within hds (hfs.append hk)
  | before hfs => exact .before (.append hfs.2 hk)

/-! ## Values -/

/-- A number without an exponent that has a sign and no digits. -/
def settled (w : List Char) : List Char :=
  if w.getLast?.any isSign then w.dropLast.dropLast else w

/-- What can follow the digits of a number. -/
def IsTail (cs : List Char) : Prop :=
  cs = [] ∨ ∃ rest, cs = 'e' :: rest

open Decimal

/-- Digits end where the exponent begins. -/
theorem digits_split {ds e : List Char} (hds : AllDigits ds) (he : IsTail e) :
    (ds ++ e).takeWhile Char.isDigit = ds ∧ (ds ++ e).dropWhile Char.isDigit = e := by
  have hstop : e.takeWhile Char.isDigit = [] ∧ e.dropWhile Char.isDigit = e := by
    rcases he with rfl | ⟨rest, rfl⟩ <;> exact ⟨rfl, rfl⟩
  rw [List.takeWhile_append_of_pos hds, List.dropWhile_append_of_pos hds, hstop.1, hstop.2,
    List.append_nil]
  exact ⟨rfl, rfl⟩

theorem literal?_whole {ds e : List Char} (hds : Digits ds) (he : IsTail e) :
    literal? (ds ++ e) = (power? e).map (Literal.mk ds []) := by
  obtain ⟨htake, hdrop⟩ := digits_split hds.2 he
  have hne : ds.isEmpty = false := by simpa using hds.1
  rw [literal?, htake, hdrop]
  rcases he with rfl | ⟨rest, rfl⟩ <;> (rw [hne]; rfl)

theorem literal?_pointed {ds fs e : List Char} (hds : AllDigits ds) (hfs : AllDigits fs)
    (hne : ds ≠ [] ∨ fs ≠ []) (he : IsTail e) :
    literal? (ds ++ '.' :: fs ++ e) = (power? e).map (Literal.mk ds fs) := by
  obtain ⟨htake, hdrop⟩ := digits_split hfs he
  have hsome : (ds.isEmpty && fs.isEmpty) = false := by
    rcases hne with hne | hne <;> simp [hne]
  have hwhole : (ds ++ '.' :: (fs ++ e)).takeWhile Char.isDigit = ds := by
    rw [List.takeWhile_append_of_pos hds]
    exact List.append_nil ds
  have hrest : (ds ++ '.' :: (fs ++ e)).dropWhile Char.isDigit = '.' :: (fs ++ e) := by
    rw [List.dropWhile_append_of_pos hds]
    rfl
  rw [List.append_assoc, List.cons_append, literal?, hwhole, hrest]
  show (if (ds.isEmpty && ((fs ++ e).takeWhile Char.isDigit).isEmpty) = true then none
    else (power? ((fs ++ e).dropWhile Char.isDigit)).map
      (Literal.mk ds ((fs ++ e).takeWhile Char.isDigit))) = _
  rw [htake, hdrop, hsome]
  rfl

/-- What begins with a digit or a point is no word and has no sign. -/
theorem read?_eq {k : Char} (hk : k.isDigit = true ∨ k = '.') (cs : List Char) :
    read? (k :: cs) = (literal? (k :: cs)).map Literal.toFloat := by
  have hne {c : Char} (hc : c.isDigit = false ∧ c ≠ '.') : k ≠ c := by
    rintro rfl
    rcases hk with hk | hk
    · rw [hc.1] at hk
      cases hk
    · exact hc.2 hk
  have hlower : k.toLower = k := by
    rcases hk with hk | rfl
    · unfold Char.toLower
      split
      · rename_i hupper
        simp only [Char.isDigit, Bool.and_eq_true, decide_eq_true_eq, ge_iff_le,
          UInt32.le_iff_toNat_le] at hk hupper
        simp at hk hupper
        omega
      · rfl
    · rfl
  have hword {word : String} {c : Char} {rest : List Char} (hword : word.toList = c :: rest)
      (hc : c.isDigit = false ∧ c ≠ '.') : String.ofList ((k :: cs).map Char.toLower) ≠ word := by
    intro h
    have h := congrArg String.toList h
    rw [String.toList_ofList, hword, List.map_cons, hlower] at h
    exact hne hc (List.cons.inj h).1
  have hmagnitude : magnitude? (k :: cs) = (literal? (k :: cs)).map Literal.toFloat := by
    rw [magnitude?, if_neg, if_neg (hword (show "nan".toList = 'n' :: _ from rfl) (by decide))]
    rintro (h | h)
    · exact hword (show "inf".toList = 'i' :: _ from rfl) (by decide) h
    · exact hword (show "infinity".toList = 'i' :: _ from rfl) (by decide) h
  rw [← hmagnitude]
  unfold read?
  split
  · rename_i h
    exact absurd (List.cons.inj h).1 (hne (by decide))
  · rename_i h
    exact absurd (List.cons.inj h).1 (hne (by decide))
  · rfl

/-- A point in front gets a zero before it. -/
def opened (cs : List Char) : List Char :=
  if cs.head? = some '.' then '0' :: cs else cs

theorem opened_append {base : List Char} (h : base ≠ []) (e : List Char) :
    opened (base ++ e) = opened base ++ e := by
  rw [opened, opened, List.head?_append_of_ne_nil _ h]
  split <;> rfl

/-- The value of a base is a matter of its exponent, however it is written. -/
theorem exists_read?_base {base : List Char} (h : IsBase base) :
    ∃ f : ℤ → Float, (∀ e, IsTail e → read? (base ++ e) = (power? e).map f ∧
      read? (opened base ++ e) = (power? e).map f) ∧
      (base.getLast? = some '.' → read? (opened base ++ ['0']) = some (f 0)) := by
  have hnot {ds : List Char} (hds : AllDigits ds) : ds.getLast? ≠ some '.' := fun hlast =>
    absurd (hds '.' (List.mem_of_getLast? hlast)) (by decide)
  have hzero : AllDigits ['0'] := fun k hk => List.mem_singleton.mp hk ▸ rfl
  have heq {k : Char} {cs e : List Char} {whole fraction : List Char}
      (hk : k.isDigit = true ∨ k = '.')
      (hcs : literal? (k :: cs) = (power? e).map (Literal.mk whole fraction)) :
      read? (k :: cs) = (power? e).map fun p => Literal.toFloat ⟨whole, fraction, p⟩ := by
    rw [read?_eq hk, hcs, Option.map_map]
    rfl
  rcases h with hds | hpointed
  · obtain ⟨k, ds, rfl⟩ := List.exists_cons_of_ne_nil hds.1
    have hk := hds.2 k List.mem_cons_self
    have hopened : opened (k :: ds) = k :: ds := by
      rw [opened, if_neg]
      rintro ⟨⟩
      cases hk
    rw [hopened]
    refine ⟨fun p => Literal.toFloat ⟨k :: ds, [], p⟩, fun e he => ?_,
      fun hlast => absurd hlast (hnot hds.2)⟩
    exact and_self_iff.mpr (heq (.inl hk) (literal?_whole hds he))
  · cases hpointed with
    | @within ds fs hds hfs =>
      obtain ⟨k, ds, rfl⟩ := List.exists_cons_of_ne_nil hds.1
      have hk := hds.2 k List.mem_cons_self
      have hopened : opened (k :: ds ++ '.' :: fs) = k :: ds ++ '.' :: fs := by
        rw [opened, if_neg]
        rintro ⟨⟩
        cases hk
      rw [hopened]
      refine ⟨fun p => Literal.toFloat ⟨k :: ds, fs, p⟩, fun e he => ?_, fun hlast => ?_⟩
      · exact and_self_iff.mpr (heq (.inl hk) (literal?_pointed hds.2 hfs (.inl hds.1) he))
      · obtain rfl : fs = [] := by
          by_contra hne
          rw [List.getLast?_append_of_ne_nil _ (List.cons_ne_nil _ _),
            List.getLast?_cons_of_ne_nil hne] at hlast
          exact hnot hfs hlast
        have hliteral := literal?_pointed hds.2 hzero (.inl hds.1) (.inl rfl)
        rw [List.append_nil] at hliteral
        rw [List.append_assoc]
        exact (heq (e := []) (.inl hk) hliteral).trans (congrArg some (Literal.toFloat_zero _))
    | @before fs hfs =>
      refine ⟨fun p => Literal.toFloat ⟨[], fs, p⟩, fun e he => ⟨?_, ?_⟩, fun hlast => ?_⟩
      · exact heq (.inr rfl) (literal?_pointed .nil hfs.2 (.inr hfs.1) he)
      · have hopened := heq (k := '0') (.inl rfl)
          (literal?_pointed hzero hfs.2 (.inr hfs.1) he)
        exact hopened.trans (congrArg (Option.map · _) (funext (Literal.toFloat_cons_zero fs)))
      · rw [List.getLast?_cons_of_ne_nil hfs.1] at hlast
        exact absurd hlast (hnot hfs.2)

/-! ## Reading the longest beginning that can be read -/

theorem readReversed_append (ks : List Char) (k : Char) :
    readReversed (ks ++ [k]).reverse =
      (read? (if k = '.' then ks ++ ['.', '0'] else ks ++ [k])).getD (readReversed ks.reverse) := by
  have htext : (if k = '.' then '0' :: k :: ks.reverse else k :: ks.reverse).reverse =
      if k = '.' then ks ++ ['.', '0'] else ks ++ [k] := by
    split
    · rename_i hk
      rw [hk]
      simp
    · simp
  rw [List.reverse_append, List.reverse_singleton, List.singleton_append, readReversed, htext]
  split <;> (rename_i h; rw [h]; rfl)

/-- What can be read is the longest beginning that can be read. -/
theorem leading_of_read? {base e : List Char} {k : Char} {x : Float} (hbase : base ≠ [])
    (hk : k ≠ '.') (h : read? (opened base ++ (e ++ [k])) = some x) :
    leading (base ++ (e ++ [k])) = x := by
  show readReversed (opened (base ++ (e ++ [k]))).reverse = x
  rw [opened_append hbase, ← List.append_assoc, readReversed_append, if_neg hk, List.append_assoc, h]
  rfl

theorem leading_of_read?_eq_none {base e : List Char} {k : Char} (hbase : base ≠ [])
    (hk : k ≠ '.') (h : read? (opened base ++ (e ++ [k])) = none) :
    leading (base ++ (e ++ [k])) = leading (base ++ e) := by
  show readReversed (opened (base ++ (e ++ [k]))).reverse = readReversed (opened (base ++ e)).reverse
  rw [opened_append hbase, opened_append hbase, ← List.append_assoc, readReversed_append, if_neg hk,
    List.append_assoc, h]
  rfl

theorem exponent?_of_digits {ds : List Char} (h : Digits ds) : ∃ p, exponent? ds = some p := by
  have hsome : (ds.isEmpty || !ds.all Char.isDigit) = false := by
    rw [List.all_eq_true.mpr h.2]
    simpa using h.1
  unfold exponent?
  split
  · exact absurd (h.2 '-' List.mem_cons_self) (by decide)
  · exact absurd (h.2 '+' List.mem_cons_self) (by decide)
  · exact ⟨_, if_neg (by rw [hsome]; decide)⟩

theorem exponent?_of_signed {s : Char} {ds : List Char} (hs : isSign s = true) (h : Digits ds) :
    ∃ p, exponent? (s :: ds) = some p := by
  have hsome : (ds.isEmpty || !ds.all Char.isDigit) = false := by
    rw [List.all_eq_true.mpr h.2]
    simpa using h.1
  rcases Bool.or_eq_true_iff.mp hs with hs | hs
  · rw [eq_of_beq hs]
    exact ⟨_, if_neg (by rw [hsome]; decide)⟩
  · rw [eq_of_beq hs]
    exact ⟨_, if_neg (by rw [hsome]; decide)⟩

theorem settled_of_getLast? {w : List Char} {k : Char} (hlast : w.getLast? = some k)
    (hk : isSign k = false) : settled w = w := by
  rw [settled, hlast, Option.any_some, hk, if_neg Bool.false_ne_true]

theorem not_isSign {k : Char} (h : k.isDigit = true ∨ k = '.') : isSign k = false := by
  rcases h with h | rfl
  · rw [isSign, Bool.or_eq_false_iff, beq_eq_false_iff_ne, beq_eq_false_iff_ne]
    constructor <;> (rintro rfl; cases h)
  · rfl

theorem IsBase.mem {base : List Char} (h : IsBase base) :
    ∀ k ∈ base, k.isDigit = true ∨ k = '.' := by
  intro k hk
  rcases h with h | h
  · exact .inl (h.2 k hk)
  · cases h with
    | within hds hfs =>
      rcases List.mem_append.mp hk with hk | hk
      · exact .inl (hds.2 k hk)
      · rcases List.mem_cons.mp hk with rfl | hk
        · exact .inr rfl
        · exact .inl (hfs k hk)
    | before hfs =>
      rcases List.mem_cons.mp hk with rfl | hk
      · exact .inr rfl
      · exact .inl (hfs.2 k hk)

theorem IsBase.ne_nil {base : List Char} (h : IsBase base) : base ≠ [] := by
  rcases h with h | h
  · exact h.1
  · cases h <;> simp

theorem getLast?_opened {base : List Char} (h : base ≠ []) :
    (opened base).getLast? = base.getLast? := by
  rw [opened]
  split
  · exact List.getLast?_cons_of_ne_nil h
  · rfl

theorem settled_dangling (base : List Char) {s : Char} (hs : isSign s = true) :
    settled (base ++ ['e', s]) = base := by
  have hdrop : (base ++ ['e', s]).dropLast.dropLast = base := by
    rw [List.append_cons, List.dropLast_concat, List.dropLast_concat]
  rw [settled, List.getLast?_append_of_ne_nil _ (List.cons_ne_nil _ _), hdrop]
  exact if_pos hs

theorem exists_value {base : List Char} (h : IsBase base) :
    ∃ f : ℤ → Float, (∀ e, IsTail e → read? (base ++ e) = (power? e).map f ∧
      read? (opened base ++ e) = (power? e).map f) ∧
      read? base = some (f 0) ∧ leading base = f 0 := by
  obtain ⟨f, hf, hpoint⟩ := exists_read?_base h
  obtain ⟨hplain, hopened⟩ := hf [] (.inl rfl)
  rw [List.append_nil] at hplain hopened
  refine ⟨f, hf, hplain, ?_⟩
  show readReversed (opened base).reverse = f 0
  rw [← getLast?_opened h.ne_nil] at hpoint
  obtain hnil | ⟨ks, k, hlast⟩ := List.eq_nil_or_concat' (opened base)
  · rw [hnil] at hopened
    cases hopened
  · rw [hlast] at hopened hpoint ⊢
    rw [readReversed_append]
    by_cases hk : k = '.'
    · rw [hk, List.append_assoc, List.getLast?_concat] at hpoint
      rw [if_pos hk, ← List.singleton_append, hpoint rfl]
      rfl
    · rw [if_neg hk, hopened]
      rfl

/-- A number has the value of its text, but for an exponent that is a sign only. -/
theorem read?_settled {w : List Char} (h : IsNumeral w) :
    read? (settled w) = some (leading w) := by
  obtain ⟨base, e, rfl, hbase, he⟩ := h
  obtain ⟨f, hf, hread, hleading⟩ := exists_value hbase
  have hne := hbase.ne_nil
  -- Behind its last digit an exponent is whole.
  have hwhole (tail : List Char) {k : Char} {p : ℤ} (htail : IsTail (tail ++ [k]))
      (hp : power? (tail ++ [k]) = some p) (hk : k.isDigit = true) :
      read? (settled (base ++ (tail ++ [k]))) = some (leading (base ++ (tail ++ [k]))) := by
    obtain ⟨hplain, hopened⟩ := hf _ htail
    rw [hp] at hplain hopened
    have hpoint : k ≠ '.' := by
      rintro rfl
      cases hk
    have hlast : (base ++ (tail ++ [k])).getLast? = some k := by
      rw [← List.append_assoc, List.getLast?_concat]
    rw [settled_of_getLast? hlast (not_isSign (.inl hk)), hplain,
      leading_of_read? hne hpoint hopened]
    rfl
  cases he with
  | none =>
    have hlast := List.getLast?_eq_some_getLast hne
    have hsettled := settled_of_getLast? hlast (not_isSign (hbase.mem _ (List.getLast_mem hne)))
    rw [List.append_nil, hsettled, hread, hleading]
  | @unsigned ds hds =>
    obtain ⟨p, hp⟩ := exponent?_of_digits hds
    obtain hnil | ⟨ds, k, rfl⟩ := List.eq_nil_or_concat' ds
    · exact absurd hnil hds.1
    · exact hwhole ('e' :: ds) (.inr ⟨_, rfl⟩) hp (hds.2 k (by simp))
  | @signed s ds hs hds =>
    obtain rfl | ⟨ds, k, rfl⟩ := List.eq_nil_or_concat' ds
    · have hnone : power? ['e', s] = none := by
        rcases Bool.or_eq_true_iff.mp hs with hs | hs <;> (rw [eq_of_beq hs]; rfl)
      have hpoint : s ≠ '.' := by
        rintro rfl
        cases hs
      have hsign := (hf ['e', s] (.inr ⟨_, rfl⟩)).2
      rw [hnone] at hsign
      have hless : leading (base ++ ['e', s]) = leading (base ++ ['e']) :=
        leading_of_read?_eq_none (e := ['e']) hne hpoint hsign
      have hleast : leading (base ++ ['e']) = leading (base ++ []) :=
        leading_of_read?_eq_none (e := []) hne (by decide) (hf ['e'] (.inr ⟨_, rfl⟩)).2
      rw [settled_dangling base hs, hread, hless, hleast, List.append_nil, hleading]
    · obtain ⟨p, hp⟩ := exponent?_of_signed hs ⟨by simp, hds⟩
      exact hwhole ('e' :: s :: ds) (.inr ⟨_, rfl⟩) hp (hds k (by simp))

end Numeral
end Token
end FractalFormula
