/-
Numbers are recognized exactly.

What is read for a number is the longest beginning of its form, if that is not too long and a letter
follows that can belong to no number (`Token.Numeral.Complete`).  How far a reader has come is one of
six stages.  They accept the form and nothing else (`Stage.isNumeral_of_run`,
`Stage.run_of_isNumeral`), and a draft shows its stage (`Stage.Shown`), so it grows by the letters
that the stage goes on with.
-/
import FractalFormula.Proofs.Numerals
import FractalFormula.Proofs.Written

namespace FractalFormula
namespace Token
namespace Numeral

variable {k : Char} {ks cs w : List Char}

/-! ## Stages -/

/-- How far the reading of a number has come. -/
inductive Stage where
  | start | lone | whole | fractional | marker | power
  deriving DecidableEq

namespace Stage

/-- The stage after one more letter, if that letter belongs to the number. -/
def next? : Stage → Char → Option Stage
  | .start, k => if k.isDigit then some .whole else if k = '.' then some .lone else none
  | .lone, k => if k.isDigit then some .fractional else none
  | .whole, k =>
    if k.isDigit then some .whole
    else if k = '.' then some .fractional
    else if k = 'e' then some .marker
    else none
  | .fractional, k =>
    if k.isDigit then some .fractional else if k = 'e' then some .marker else none
  | .marker, k => if k.isDigit || isSign k then some .power else none
  | .power, k => if k.isDigit then some .power else none

/-- A number may end here. -/
def accepts : Stage → Bool
  | .whole | .fractional | .power => true
  | _ => false

def run (s : Stage) (w : List Char) : Option Stage :=
  w.foldlM next? s

/-- What has been read when a stage is reached. -/
def Means : Stage → List Char → Prop
  | .start, w => w = []
  | .lone, w => w = ['.']
  | .whole, w => Digits w
  | .fractional, w => IsPointed w
  | .marker, w => ∃ base, w = base ++ ['e'] ∧ IsBase base
  | .power, w => ∃ base rest, w = base ++ 'e' :: rest ∧ IsBase base ∧ IsExponent ('e' :: rest)

variable {s t : Stage}

theorem run_cons (s : Stage) (k : Char) (w : List Char) :
    s.run (k :: w) = (s.next? k).bind (run · w) := by
  rw [run, List.foldlM_cons]
  rfl

theorem run_append (s : Stage) (v w : List Char) : s.run (v ++ w) = (s.run v).bind (run · w) := by
  rw [run, List.foldlM_append]
  rfl

theorem means_next (h : s.Means w) (hnext : s.next? k = some t) : t.Means (w ++ [k]) := by
  cases s with
  | start =>
    obtain rfl : w = [] := h
    rw [next?] at hnext
    split at hnext
    · cases hnext
      exact Digits.append .nil ‹_›
    · split at hnext
      · cases hnext
        rw [‹k = '.'›]
        rfl
      · cases hnext
  | lone =>
    obtain rfl : w = ['.'] := h
    rw [next?] at hnext
    split at hnext
    · cases hnext
      exact .before (.append .nil ‹_›)
    · cases hnext
  | whole =>
    have h : Digits w := h
    rw [next?] at hnext
    split at hnext
    · cases hnext
      exact .append h.2 ‹_›
    · split at hnext
      · cases hnext
        rw [‹k = '.'›]
        exact .within h nofun
      · split at hnext
        · cases hnext
          exact ⟨w, by rw [‹k = 'e'›], .inl h⟩
        · cases hnext
  | fractional =>
    have h : IsPointed w := h
    rw [next?] at hnext
    split at hnext
    · cases hnext
      exact h.append ‹_›
    · split at hnext
      · cases hnext
        exact ⟨w, by rw [‹k = 'e'›], .inr h⟩
      · cases hnext
  | marker =>
    obtain ⟨base, rfl, hbase⟩ := h
    rw [next?] at hnext
    split at hnext
    case isTrue hk =>
      cases hnext
      refine ⟨base, [k], by rw [List.append_assoc]; rfl, hbase, ?_⟩
      rcases Bool.or_eq_true_iff.mp hk with hk | hk
      · exact .unsigned (.append .nil hk)
      · exact .signed hk nofun
    case isFalse => cases hnext
  | power =>
    obtain ⟨base, rest, rfl, hbase, hexponent⟩ := h
    rw [next?] at hnext
    split at hnext
    case isTrue hk =>
      cases hnext
      refine ⟨base, rest ++ [k], by rw [List.append_assoc]; rfl, hbase, ?_⟩
      cases hexponent with
      | unsigned hds => exact .unsigned (.append hds.2 hk)
      | signed hs hds => exact .signed hs (hds.append hk)
    case isFalse => cases hnext

theorem means_run {v : List Char} (h : s.Means v) (hrun : s.run w = some t) : t.Means (v ++ w) := by
  induction w generalizing s v with
  | nil =>
    cases hrun
    rw [List.append_nil]
    exact h
  | cons k w ih =>
    rw [run_cons] at hrun
    obtain ⟨u, hnext, hrest⟩ := Option.bind_eq_some_iff.mp hrun
    rw [List.append_cons]
    exact ih (means_next h hnext) hrest

/-- What is accepted is a number. -/
theorem isNumeral_of_run (hrun : run .start w = some t) (ht : t.accepts = true) : IsNumeral w := by
  have h : t.Means w := means_run (s := .start) (v := []) rfl hrun
  cases t with
  | start | lone | marker => cases ht
  | whole => exact ⟨w, [], (List.append_nil w).symm, .inl h, .none⟩
  | fractional => exact ⟨w, [], (List.append_nil w).symm, .inr h, .none⟩
  | power =>
    obtain ⟨base, rest, rfl, hbase, hexponent⟩ := h
    exact ⟨base, _, rfl, hbase, hexponent⟩

theorem run_digits (hs : ∀ k, k.isDigit = true → s.next? k = some s) (h : AllDigits w) :
    s.run w = some s := by
  induction w with
  | nil => rfl
  | cons k w ih =>
    obtain ⟨hk, hw⟩ := List.forall_mem_cons.mp h
    rw [run_cons, hs k hk]
    exact ih hw

theorem run_of_digits (hs : ∀ k, k.isDigit = true → s.next? k = some t)
    (ht : ∀ k, k.isDigit = true → t.next? k = some t) (h : Digits w) : s.run w = some t := by
  obtain ⟨k, w, rfl⟩ := List.exists_cons_of_ne_nil h.1
  obtain ⟨hk, hw⟩ := List.forall_mem_cons.mp h.2
  rw [run_cons, hs k hk]
  exact run_digits ht hw

theorem run_base (h : IsBase w) : run .start w = some .whole ∨ run .start w = some .fractional := by
  have hwhole {ds : List Char} (hds : Digits ds) : run .start ds = some .whole :=
    run_of_digits (fun _ hk => if_pos hk) (fun _ hk => if_pos hk) hds
  have hfractional {fs : List Char} (hfs : AllDigits fs) : run .fractional fs = some .fractional :=
    run_digits (fun _ hk => if_pos hk) hfs
  rcases h with h | h
  · exact .inl (hwhole h)
  · right
    cases h with
    | within hds hfs =>
      rw [run_append, hwhole hds, Option.bind_some, run_cons]
      exact hfractional hfs
    | before hfs =>
      rw [run_cons]
      exact run_of_digits (s := .lone) (fun _ hk => if_pos hk) (fun _ hk => if_pos hk) hfs

theorem run_exponent (hs : s = .whole ∨ s = .fractional) (h : IsExponent w) :
    ∃ t, s.run w = some t ∧ t.accepts = true := by
  have hmarker : s.next? 'e' = some .marker := by rcases hs with rfl | rfl <;> rfl
  have hpower {ds : List Char} (hds : AllDigits ds) : run .power ds = some .power :=
    run_digits (fun _ hk => if_pos hk) hds
  cases h with
  | none => exact ⟨s, rfl, by rcases hs with rfl | rfl <;> rfl⟩
  | unsigned hds =>
    refine ⟨.power, ?_, rfl⟩
    rw [run_cons, hmarker]
    exact run_of_digits (s := .marker) (fun k hk => if_pos (by rw [hk]; rfl))
      (fun _ hk => if_pos hk) hds
  | @signed sign ds hsign hds =>
    refine ⟨.power, ?_, rfl⟩
    have hnext : next? .marker sign = some .power := if_pos (by rw [hsign, Bool.or_true])
    rw [run_cons, hmarker, Option.bind_some, run_cons, hnext]
    exact hpower hds

/-- A number is accepted. -/
theorem run_of_isNumeral (h : IsNumeral w) : ∃ t, run .start w = some t ∧ t.accepts = true := by
  obtain ⟨base, exponent, rfl, hbase, hexponent⟩ := h
  rcases run_base hbase with hrun | hrun
  · rw [run_append, hrun]
    exact run_exponent (.inl rfl) hexponent
  · rw [run_append, hrun]
    exact run_exponent (.inr rfl) hexponent

end Stage

/-! ## The longest beginning -/

/-- A letter that belongs neither to a number nor to a name. -/
def stops (k : Char) : Bool :=
  !(isNameChar k || k == '.')

theorem stops_eq_true : stops k = true ↔ k.isDigit = false ∧ k ≠ '.' ∧ k.isAlpha = false ∧ k ≠ '_' := by
  rw [stops, isNameChar, Char.isAlphanum]
  cases k.isAlpha <;> cases k.isDigit <;> simp [and_comm]

theorem Stage.next?_of_isDigit {s : Stage} (hs : s.accepts = true) (hk : k.isDigit = true) :
    s.next? k = some s := by
  cases s with
  | start | lone | marker => cases hs
  | whole | fractional | power => exact if_pos hk

theorem Stage.next?_of_stops {s : Stage} (hs : s.accepts = true) (hk : stops k = true) :
    s.next? k = none := by
  obtain ⟨hdigit, hpoint, halpha, -⟩ := stops_eq_true.mp hk
  have hmarker : k ≠ 'e' := by
    rintro rfl
    cases halpha
  cases s with
  | start | lone | marker => cases hs
  | whole => rw [next?, if_neg (by rw [hdigit]; decide), if_neg hpoint, if_neg hmarker]
  | fractional => rw [next?, if_neg (by rw [hdigit]; decide), if_neg hmarker]
  | power => rw [next?, if_neg (by rw [hdigit]; decide)]

/-- What is accepted before a letter that stops is the longest beginning. -/
theorem longest_of_run {t : Stage} {rest : List Char} (hrun : Stage.run .start w = some t)
    (ht : t.accepts = true) (hk : stops k = true) : Longest w (w ++ k :: rest) := by
  refine ⟨Stage.isNumeral_of_run hrun ht, List.prefix_append _ _, fun v hv hprefix => ?_⟩
  by_contra hlong
  have hfirst : w ++ [k] <+: w ++ k :: rest :=
    (List.prefix_append_right_inj w).mpr ⟨rest, rfl⟩
  obtain ⟨more, rfl⟩ := List.prefix_of_prefix_length_le hfirst hprefix (by simp; omega)
  obtain ⟨u, hu, -⟩ := Stage.run_of_isNumeral hv
  rw [List.append_assoc, Stage.run_append, hrun, Option.bind_some, List.singleton_append,
    Stage.run_cons, Stage.next?_of_stops ht hk] at hu
  cases hu

theorem Complete.exists_run (h : Complete w cs) :
    ∃ t k rest, Stage.run .start w = some t ∧ t.accepts = true ∧ cs = w ++ k :: rest ∧
      stops k = true := by
  obtain ⟨k, rest, rfl, hpoint, halpha, hunderscore⟩ := h.ends
  obtain ⟨t, hrun, ht⟩ := Stage.run_of_isNumeral h.longest.numeral
  refine ⟨t, k, rest, hrun, ht, rfl, stops_eq_true.mpr ⟨?_, hpoint, halpha, hunderscore⟩⟩
  rw [Bool.eq_false_iff]
  intro hdigit
  -- With one digit more it would be a number still.
  have hmore : Stage.run .start (w ++ [k]) = some t := by
    rw [Stage.run_append, hrun, Option.bind_some, Stage.run_cons, Stage.next?_of_isDigit ht hdigit]
    rfl
  have hle := h.longest.length_le _ (Stage.isNumeral_of_run hmore ht)
    ((List.prefix_append_right_inj w).mpr ⟨rest, rfl⟩)
  rw [List.length_append, List.length_singleton] at hle
  omega

theorem complete_of_run {t : Stage} {rest : List Char} (hrun : Stage.run .start w = some t)
    (ht : t.accepts = true) (hk : stops k = true) (hlength : w.length ≤ lengthLimit) :
    Complete w (w ++ k :: rest) := by
  obtain ⟨-, hends⟩ := stops_eq_true.mp hk
  exact ⟨longest_of_run hrun ht hk, hlength, k, rest, rfl, hends⟩

/-! ## Drafts -/

namespace Draft

variable {d d' : Draft} {ahead rest : List Letter}

/-- What a draft takes in. -/
theorem turn_eq_grow (h : d.turn k rest = .grow d') :
    d.sign = true ∧ d' = { d.add k with sign := false } ∨
      d.sign = false ∧ (k.isDigit = true ∧ d' = d.add k ∨
        k = '.' ∧ d.point = false ∧ d.base = true ∧ d' = { d.add k with point := true } ∨
        k = 'e' ∧ d.takesExponent = true ∧ d' = ⟨'e' :: d.text, false, false, signAhead rest⟩) := by
  unfold turn at h
  cases hsign : d.sign with
  | true =>
    rw [if_pos hsign] at h
    cases h
    exact .inl ⟨rfl, rfl⟩
  | false =>
    refine .inr ⟨rfl, ?_⟩
    rw [if_neg (by rw [hsign]; decide)] at h
    by_cases hdigit : k.isDigit = true
    · rw [if_pos hdigit] at h
      cases h
      exact .inl ⟨hdigit, rfl⟩
    rw [if_neg hdigit] at h
    by_cases hpoint : k = '.'
    · rw [if_pos hpoint] at h
      split at h
      · cases h
      · cases h
        refine .inr (.inl ⟨hpoint, ?_⟩)
        cases hp : d.point <;> cases hb : d.base <;> simp_all
    rw [if_neg hpoint] at h
    split at h
    · rename_i hmarker
      cases h
      obtain ⟨hk, htakes⟩ := Bool.and_eq_true_iff.mp hmarker
      have hk := of_decide_eq_true hk
      exact .inr (.inr ⟨hk, htakes, by rw [hk]⟩)
    · split at h <;> cases h

theorem exists_turn_of_isDigit (hk : k.isDigit = true) : ∃ d', d.turn k rest = .grow d' := by
  cases hsign : d.sign with
  | true => exact ⟨_, if_pos hsign⟩
  | false => exact ⟨_, (if_neg (by rw [hsign]; decide)).trans (if_pos hk)⟩

end Draft

/-- The draft shows the stage that its text has reached. -/
def Stage.Shown : Stage → Draft → List Letter → Prop
  | .start, _, _ => False
  | .lone, d, _ => d = ⟨['.'], true, true, false⟩
  | .whole, d, _ => ∃ k before, d = ⟨k :: before, false, true, false⟩ ∧ k.isDigit = true
  | .fractional, d, _ => ∃ k before, d = ⟨k :: before, true, true, false⟩ ∧
      (k.isDigit = true ∨ k = '.' ∧ before ≠ [])
  | .marker, d, ahead => ∃ before, d = ⟨'e' :: before, false, false, signAhead ahead⟩
  | .power, d, _ => ∃ k before, d = ⟨k :: before, false, false, false⟩ ∧
      (k.isDigit = true ∨ isSign k = true)

namespace Stage

variable {s t : Stage} {d d' : Draft} {l : Letter} {ahead rest : List Letter}

/-- The stage goes on with the letter to one that the draft `d'` shows. -/
def Follows (s : Stage) (l : Letter) (d' : Draft) (rest : List Letter) : Prop :=
  ∃ t, s.next? l.char = some t ∧ t.Shown d' rest

/-- The sign of an exponent. -/
theorem Shown.sign (h : s.Shown d (l :: rest)) (hsign : d.sign = true) :
    s.Follows l { d.add l.char with sign := false } rest := by
  cases s with
  | start => exact h.elim
  | lone =>
    subst h
    cases hsign
  | whole | fractional | power =>
    obtain ⟨k, before, rfl, -⟩ := h
    cases hsign
  | marker =>
    obtain ⟨before, rfl⟩ := h
    have hsign : isSign l.char = true := hsign
    exact ⟨.power, if_pos (by rw [hsign, Bool.or_true]), l.char, _, rfl, .inr hsign⟩

theorem Shown.digit (h : s.Shown d (l :: rest)) (hsign : d.sign = false)
    (hdigit : l.char.isDigit = true) : s.Follows l (d.add l.char) rest := by
  cases s with
  | start => exact h.elim
  | lone =>
    subst h
    exact ⟨.fractional, if_pos hdigit, l.char, _, rfl, .inl hdigit⟩
  | whole =>
    obtain ⟨k, before, rfl, -⟩ := h
    exact ⟨.whole, if_pos hdigit, l.char, _, rfl, hdigit⟩
  | fractional =>
    obtain ⟨k, before, rfl, -⟩ := h
    exact ⟨.fractional, if_pos hdigit, l.char, _, rfl, .inl hdigit⟩
  | marker =>
    obtain ⟨before, rfl⟩ := h
    have hsign : signAhead (l :: rest) = false := hsign
    refine ⟨.power, if_pos (by rw [hdigit]; rfl), l.char, 'e' :: before, ?_, .inl hdigit⟩
    rw [Draft.add, hsign]
  | power =>
    obtain ⟨k, before, rfl, -⟩ := h
    exact ⟨.power, if_pos hdigit, l.char, _, rfl, .inl hdigit⟩

theorem Shown.point (h : s.Shown d (l :: rest)) (hpoint : l.char = '.') (hfirst : d.point = false)
    (hbase : d.base = true) : s.Follows l { d.add l.char with point := true } rest := by
  cases s with
  | start => exact h.elim
  | lone =>
    subst h
    cases hfirst
  | whole =>
    obtain ⟨k, before, rfl, -⟩ := h
    exact ⟨.fractional, by rw [hpoint]; rfl, l.char, _, rfl, .inr ⟨hpoint, List.cons_ne_nil _ _⟩⟩
  | fractional =>
    obtain ⟨k, before, rfl, -⟩ := h
    cases hfirst
  | marker =>
    obtain ⟨before, rfl⟩ := h
    cases hbase
  | power =>
    obtain ⟨k, before, rfl, -⟩ := h
    cases hbase

theorem Shown.marker (h : s.Shown d (l :: rest)) (hmarker : l.char = 'e')
    (htakes : d.takesExponent = true) :
    s.Follows l ⟨'e' :: d.text, false, false, signAhead rest⟩ rest := by
  rw [Follows, hmarker]
  cases s with
  | start => exact h.elim
  | lone =>
    subst h
    cases htakes
  | whole | fractional =>
    obtain ⟨k, before, rfl, -⟩ := h
    exact ⟨.marker, rfl, _, rfl⟩
  | marker =>
    obtain ⟨before, rfl⟩ := h
    cases htakes
  | power =>
    obtain ⟨k, before, rfl, -⟩ := h
    cases htakes

/-- A draft takes in only what the stage goes on with, and shows the next stage then. -/
theorem Shown.next (h : s.Shown d (l :: rest)) (hturn : d.turn l.char rest = .grow d') :
    s.Follows l d' rest ∧ d'.text = l.char :: d.text := by
  rcases Draft.turn_eq_grow hturn with ⟨hsign, rfl⟩ | ⟨hsign, ⟨hdigit, rfl⟩ |
    ⟨hpoint, hfirst, hbase, rfl⟩ | ⟨hmarker, htakes, rfl⟩⟩
  · exact ⟨h.sign hsign, rfl⟩
  · exact ⟨h.digit hsign hdigit, rfl⟩
  · exact ⟨h.point hpoint hfirst hbase, rfl⟩
  · exact ⟨h.marker hmarker htakes, by rw [hmarker]⟩

/-- A draft takes in all that the stage goes on with. -/
theorem Shown.exists_turn (h : s.Shown d (l :: rest)) (hnext : s.next? l.char = some t) :
    ∃ d', d.turn l.char rest = .grow d' := by
  have htakes (k : Char) (before : List Char) (point : Bool)
      (hk : k.isDigit = true ∨ k = '.' ∧ before ≠ []) :
      Draft.takesExponent ⟨k :: before, point, true, false⟩ = true := by
    rcases hk with hk | ⟨rfl, hbefore⟩
    · simp [Draft.takesExponent, hk]
    · simp [Draft.takesExponent, hbefore]
  by_cases hdigit : l.char.isDigit = true
  · exact Draft.exists_turn_of_isDigit hdigit
  cases s with
  | start => exact h.elim
  | lone =>
    rw [next?, if_neg hdigit] at hnext
    cases hnext
  | whole =>
    obtain ⟨k, before, rfl, hk⟩ := h
    rw [next?, if_neg hdigit] at hnext
    split at hnext
    case isTrue hpoint =>
      rw [hpoint]
      exact ⟨_, rfl⟩
    case isFalse =>
      split at hnext
      case isTrue hmarker =>
        rw [hmarker]
        exact ⟨_, if_pos (htakes k before false (.inl hk))⟩
      case isFalse => cases hnext
  | fractional =>
    obtain ⟨k, before, rfl, hk⟩ := h
    rw [next?, if_neg hdigit] at hnext
    split at hnext
    case isTrue hmarker =>
      rw [hmarker]
      exact ⟨_, if_pos (htakes k before true hk)⟩
    case isFalse => cases hnext
  | marker =>
    obtain ⟨before, rfl⟩ := h
    rw [next?] at hnext
    split at hnext
    case isTrue hk =>
      have hsign : isSign l.char = true := (Bool.or_eq_true_iff.mp hk).resolve_left hdigit
      exact ⟨_, if_pos hsign⟩
    case isFalse => cases hnext
  | power =>
    rw [next?, if_neg hdigit] at hnext
    cases hnext

/-- A draft can be a number where the stage accepts. -/
theorem Shown.accepts_iff (h : s.Shown d ahead) :
    s.accepts = true ↔ d.sign = false ∧ d.incomplete = false := by
  have hincomplete (k : Char) (before : List Char) (point base : Bool)
      (hk : k ≠ 'e') (hpoint : k = '.' → before ≠ []) :
      Draft.incomplete ⟨k :: before, point, base, false⟩ = false := by
    rw [Draft.incomplete]
    split
    · rename_i htext
      obtain ⟨rfl, rfl⟩ := List.cons.inj htext
      exact absurd rfl (hpoint rfl)
    · rename_i htext
      exact absurd (List.cons.inj htext).1 hk
    · rfl
  have hdigit {k : Char} (hk : k.isDigit = true) : k ≠ 'e' ∧ k ≠ '.' := by
    constructor <;> (rintro rfl; cases hk)
  cases s with
  | start => exact h.elim
  | lone =>
    subst h
    decide
  | whole =>
    obtain ⟨k, before, rfl, hk⟩ := h
    have hk := hdigit hk
    exact ⟨fun _ => ⟨rfl, hincomplete _ _ _ _ hk.1 fun h => absurd h hk.2⟩, fun _ => rfl⟩
  | fractional =>
    obtain ⟨k, before, rfl, hk⟩ := h
    refine ⟨fun _ => ⟨rfl, hincomplete _ _ _ _ ?_ fun h => ?_⟩, fun _ => rfl⟩
    · rcases hk with hk | ⟨rfl, -⟩
      · exact (hdigit hk).1
      · decide
    · rcases hk with hk | ⟨-, hbefore⟩
      · exact absurd h (hdigit hk).2
      · exact hbefore
  | marker =>
    obtain ⟨before, rfl⟩ := h
    exact iff_of_false Bool.false_ne_true fun hd => Bool.false_ne_true hd.2.symm
  | power =>
    obtain ⟨k, before, rfl, hk⟩ := h
    have hk : k ≠ 'e' ∧ k ≠ '.' := by
      rcases hk with hk | hk
      · exact hdigit hk
      · constructor <;> (rintro rfl; cases hk)
    exact ⟨fun _ => ⟨rfl, hincomplete _ _ _ _ hk.1 fun h => absurd h hk.2⟩, fun _ => rfl⟩

/-- The draft of one letter. -/
theorem shown_first {first : Char} (h : Lexeme.startsNumber first = true) (ahead : List Letter) :
    ∃ s, next? .start first = some s ∧ s.Shown ⟨[first], first == '.', true, false⟩ ahead := by
  by_cases hdigit : first.isDigit = true
  · have hpoint : (first == '.') = false := by
      rw [beq_eq_false_iff_ne]
      rintro rfl
      cases hdigit
    exact ⟨.whole, if_pos hdigit, first, [], by rw [hpoint], hdigit⟩
  · have hpoint : first = '.' := by
      rw [Lexeme.startsNumber] at h
      simpa [hdigit] using h
    rw [hpoint]
    exact ⟨.lone, rfl, rfl⟩

end Stage

/-! ## Reading -/

variable {s t : Stage} {d : Draft} {place c : Cursor} {ahead used rest : List Letter} {l : Letter}

/-- A number is read over the letters of an accepted run, up to one that stops. -/
theorem readFrom_of_run (h : s.Shown d (used ++ l :: rest))
    (hrun : s.run (used.map Letter.char) = some t) (ht : t.accepts = true)
    (hl : stops l.char = true) (hlength : d.text.length + used.length ≤ lengthLimit) :
    readFrom d place (used ++ l :: rest) =
      ⟨d.text.reverse ++ used.map Letter.char,
        .ok (Decimal.leading (d.text.reverse ++ used.map Letter.char)),
        pastAll place used (l :: rest)⟩ := by
  induction used generalizing s d place with
  | nil =>
    obtain rfl : s = t := Option.some.inj hrun
    obtain ⟨hsign, hincomplete⟩ := h.accepts_iff.mp ht
    have hturn : d.turn l.char rest = .complete :=
      turn_eq_complete.mpr ⟨hsign, hincomplete, by simpa [stops] using hl⟩
    rw [List.nil_append, readFrom, hturn, List.map_nil, List.append_nil]
    rfl
  | cons k used ih =>
    rw [List.cons_append] at h
    rw [List.map_cons, Stage.run_cons] at hrun
    obtain ⟨u, hnext, hrest⟩ := Option.bind_eq_some_iff.mp hrun
    obtain ⟨d', hturn⟩ := h.exists_turn hnext
    obtain ⟨⟨u', hnext', hshown⟩, htext⟩ := h.next hturn
    obtain rfl : u = u' := Option.some.inj (hnext.symm.trans hnext')
    have hlength : d'.text.length + used.length ≤ lengthLimit := by
      rw [htext, List.length_cons]
      rw [List.length_cons] at hlength
      omega
    have hshort : d'.tooLong = false := decide_eq_false (by omega)
    have hplace : pastAll (place.past k (used ++ l :: rest)) used (l :: rest) =
        pastAll place (k :: used) (l :: rest) := by
      cases used <;> rfl
    rw [List.cons_append, readFrom, hturn]
    dsimp only
    rw [hshort, Bool.false_and, if_neg Bool.false_ne_true, ih hshown hrest hlength, hplace, htext,
      List.reverse_cons, List.append_assoc]
    rfl

/-- Where a number is read there is an accepted run up to a letter that stops. -/
theorem exists_run_of_readFrom {x : Float} (h : s.Shown d ahead)
    (hlength : d.sign = false → d.text.length ≤ lengthLimit)
    (hx : (readFrom d place ahead).value = .ok x) :
    ∃ used l rest t, ahead = used ++ l :: rest ∧ s.run (used.map Letter.char) = some t ∧
      t.accepts = true ∧ stops l.char = true ∧ d.text.length + used.length ≤ lengthLimit := by
  induction ahead generalizing s d place with
  | nil => cases hx
  | cons l ahead ih =>
    rw [readFrom] at hx
    cases hturn : d.turn l.char ahead with
    | spoil d' =>
      rw [hturn] at hx
      cases hx
    | complete =>
      obtain ⟨hsign, hincomplete, hstop⟩ := turn_eq_complete.mp hturn
      refine ⟨[], l, ahead, s, rfl, rfl, h.accepts_iff.mpr ⟨hsign, hincomplete⟩, ?_, hlength hsign⟩
      rw [stops, hstop]
      rfl
    | grow d' =>
      obtain ⟨⟨u, hnext, hshown⟩, htext⟩ := h.next hturn
      rw [hturn] at hx
      dsimp only at hx
      split at hx
      case isTrue => cases hx
      case isFalse hshort =>
        have hlength : d'.sign = false → d'.text.length ≤ lengthLimit := by
          intro hsign
          rw [hsign, Bool.not_false, Bool.and_true, Draft.tooLong, decide_eq_true_eq] at hshort
          exact not_lt.mp hshort
        obtain ⟨used, k, rest, t, rfl, hrun, ht, hk, hlength⟩ := ih hshown hlength hx
        refine ⟨l :: used, k, rest, t, rfl, ?_, ht, hk, ?_⟩
        · rw [List.map_cons, Stage.run_cons, hnext]
          exact hrun
        · rw [htext, List.length_cons] at hlength
          rw [List.length_cons]
          omega

/-- A number is recognized just where its text is the longest beginning of the form, not too long and
with a letter behind it that can belong to no number.  The text is that beginning, the reader stands
behind its last letter, and the value is that of the text without an exponent that has no digits. -/
theorem recognizes_numbers {first : Char} (c : Cursor) (h : Lexeme.startsNumber first = true) :
    ((∃ x, (read first c).value = .ok x) ↔ ∃ w, Complete w (first :: c.chars)) ∧
      ∀ w, Complete w (first :: c.chars) → ∃ used left x,
        w = first :: used.map Letter.char ∧ c.ahead = used ++ left ∧
          Decimal.read? (settled w) = some x ∧ read first c = ⟨w, .ok x, pastAll c used left⟩ := by
  obtain ⟨s, hfirst, hshown⟩ := Stage.shown_first h c.ahead
  have hrun (w : List Char) : Stage.run .start (first :: w) = s.run w := by
    rw [Stage.run_cons, hfirst, Option.bind_some]
  have hrecognized (w : List Char) (hw : Complete w (first :: c.chars)) : ∃ used left x,
      w = first :: used.map Letter.char ∧ c.ahead = used ++ left ∧
        Decimal.read? (settled w) = some x ∧ read first c = ⟨w, .ok x, pastAll c used left⟩ := by
    obtain ⟨t, k, rest, haccepted, ht, hsplit, hk⟩ := hw.exists_run
    cases w with
    | nil =>
      cases haccepted
      cases ht
    | cons k' w =>
      obtain ⟨rfl, hchars⟩ := List.cons.inj hsplit
      obtain ⟨used, tail, hahead, rfl, htail⟩ := List.map_eq_append_iff.mp hchars
      obtain ⟨l, left, rfl, rfl, -⟩ := List.map_eq_cons_iff.mp htail
      refine ⟨used, l :: left, _, rfl, hahead, read?_settled hw.longest.numeral, ?_⟩
      have hlength := hw.length_le
      rw [List.length_cons, List.length_map, add_comm] at hlength
      rw [hahead] at hshown
      rw [read, hahead]
      exact readFrom_of_run hshown ((hrun _).symm.trans haccepted) ht hk hlength
  refine ⟨⟨fun ⟨x, hx⟩ => ?_, fun ⟨w, hw⟩ => ?_⟩, hrecognized⟩
  · have hshort : [first].length ≤ lengthLimit := by
      rw [List.length_singleton]
      decide
    obtain ⟨used, l, rest, t, hahead, haccepted, ht, hl, hlength⟩ :=
      exists_run_of_readFrom hshown (fun _ => hshort) hx
    refine ⟨first :: used.map Letter.char, ?_⟩
    rw [Cursor.chars, hahead, List.map_append, List.map_cons, ← List.cons_append]
    refine complete_of_run ((hrun _).trans haccepted) ht hl ?_
    rw [List.length_cons, List.length_map, add_comm]
    exact hlength
  · obtain ⟨used, left, x, -, -, -, hread⟩ := hrecognized w hw
    exact ⟨x, by rw [hread]⟩

/-- An exponent may end with its sign. -/
theorem recognizes_numbers_dangling :
    Lexeme.startsNumber '3' = true ∧
      ∃ w, Complete w ('3' :: (Cursor.mk 0 [⟨'e', 0⟩, ⟨'+', 2⟩, ⟨'}', 3⟩] 4).chars) :=
  have h : Lexeme.startsNumber '3' = true := rfl
  ⟨h, (recognizes_numbers ⟨0, [⟨'e', 0⟩, ⟨'+', 2⟩, ⟨'}', 3⟩], 4⟩ h).1.mp
    ⟨Decimal.leading ['3', 'e', '+'], rfl⟩⟩

end Numeral
end Token
end FractalFormula
