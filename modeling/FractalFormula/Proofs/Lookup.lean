/-
Lines and columns.

A line starts at the beginning of a text and just past every newline.  The starts ascend, so those
that are not past an offset come first among them (`getElem_le_iff`), and how many they are is the
number of the line, 1 more than the newlines before the offset (`lineOf_ofText`).  The last of them
is where the line starts (`lastStart_startOf`).  Halving the list of starts finds the same line
(`lineOf_eq_searched`).
-/
import FractalFormula.Text.Lines

namespace FractalFormula

theorem Text.length_bytes (text : String) : (bytes text).length = size text := by
  have hbytes : text.toList.utf8Encode = text.toByteArray := String.utf8Encode_toList
  rw [size, String.utf8ByteSize, ← hbytes, List.utf8Encode, List.size_toByteArray, bytes]

namespace Lines

/-! ## Ascending numbers -/

/-- Of ascending numbers those up to `x` come first. -/
theorem getElem_le_iff {l : List Nat} (h : l.Pairwise (· < ·)) {x i : Nat} (hi : i < l.length) :
    l[i] ≤ x ↔ i < l.countP (· ≤ x) := by
  induction l generalizing i with
  | nil => exact absurd hi (Nat.not_lt_zero i)
  | cons a l ih =>
    obtain ⟨hall, hl⟩ := List.pairwise_cons.mp h
    by_cases ha : a ≤ x
    · rw [List.countP_cons_of_pos (by simpa using ha)]
      cases i with
      | zero => exact iff_of_true ha (Nat.succ_pos _)
      | succ i => exact (ih hl (Nat.lt_of_succ_lt_succ hi)).trans Nat.succ_lt_succ_iff.symm
    · have hnone : (a :: l).countP (· ≤ x) = 0 := by
        refine List.countP_eq_zero.mpr fun b hb hle => ?_
        have hle : b ≤ x := by simpa using hle
        rcases List.mem_cons.mp hb with rfl | hb
        · exact ha hle
        · exact ha (Nat.le_trans (Nat.le_of_lt (hall b hb)) hle)
      rw [hnone]
      refine iff_of_false (fun hle => ?_) (Nat.not_lt_zero i)
      have hpos : 0 < (a :: l).countP (· ≤ x) :=
        List.countP_pos_iff.mpr ⟨_, List.getElem_mem hi, by simpa using hle⟩
      exact absurd hnone (Nat.ne_of_gt hpos)

theorem getElem_le_of_le {l : List Nat} (h : l.Pairwise (· < ·)) {i j : Nat} (hij : i ≤ j)
    (hj : j < l.length) : l[i] ≤ l[j] := by
  rcases Nat.lt_or_eq_of_le hij with hlt | rfl
  · exact Nat.le_of_lt (List.pairwise_iff_getElem.mp h i j _ hj hlt)
  · exact Nat.le_refl _

theorem getD_le_iff {l : List Nat} (h : l.Pairwise (· < ·)) {x i : Nat} (hi : i < l.length) :
    l.getD i 0 ≤ x ↔ i < l.countP (· ≤ x) := by
  rw [List.getD_eq_getElem?_getD, List.getElem?_eq_getElem hi]
  exact getElem_le_iff h hi

/-! ## Search by halving -/

/-- Drops the half of the `size` places from `base` on in which `x` cannot be, until one place is
left. -/
def narrow (l : List Nat) (x base size : Nat) : Nat :=
  if size ≤ 1 then base
  else
    let middle := base + size / 2
    if x < l.getD middle 0 then narrow l x base (size - size / 2)
    else narrow l x middle (size - size / 2)
termination_by size

/-- The place of `x` among ascending numbers; if it is not one of them, the place that it would
have. -/
def search (l : List Nat) (x : Nat) : Except Nat Nat :=
  let place := narrow l x 0 l.length
  match l[place]? with
  | none => .error place
  | some a => if a = x then .ok place else .error (if a < x then place + 1 else place)

/-- The numbers up to `x` end among the `size` places from `base` on, or before the first place. -/
structure Between (l : List Nat) (x base size : Nat) : Prop where
  pos : 0 < size
  room : base + size ≤ l.length
  lower : base = 0 ∨ base < l.countP (· ≤ x)
  upper : l.countP (· ≤ x) ≤ base + size

theorem Between.narrow {l : List Nat} {x base size : Nat} (hl : l.Pairwise (· < ·))
    (h : Between l x base size) : Between l x (narrow l x base size) 1 := by
  fun_induction Lines.narrow l x base size with
  | case1 base size hsize =>
    obtain rfl : size = 1 := Nat.le_antisymm hsize h.pos
    exact h
  | case2 base size hsize middle hx ih =>
    obtain ⟨-, hroom, hlower, hupper⟩ := h
    have hiff := getD_le_iff hl (x := x) (show middle < l.length by omega)
    have hleft : ¬ middle < l.countP (· ≤ x) := fun hlt => Nat.not_le.mpr hx (hiff.mpr hlt)
    exact ih ⟨by omega, by omega, hlower, by omega⟩
  | case3 base size hsize middle hx ih =>
    obtain ⟨-, hroom, hlower, hupper⟩ := h
    have hiff := getD_le_iff hl (x := x) (show middle < l.length by omega)
    have hright : middle < l.countP (· ≤ x) := hiff.mp (Nat.not_lt.mp hx)
    exact ih ⟨by omega, by omega, .inr hright, by omega⟩

/-- A number is found where it is; one that is missing belongs behind the smaller ones. -/
theorem search_eq {l : List Nat} (hl : l.Pairwise (· < ·)) (hne : l ≠ []) (x : Nat) :
    (x ∈ l → ∃ i, search l x = .ok i ∧ l[i]? = some x ∧ l.countP (· ≤ x) = i + 1) ∧
      (x ∉ l → search l x = .error (l.countP (· ≤ x))) := by
  have hstart : Between l x 0 l.length :=
    ⟨List.length_pos_iff.mpr hne, Nat.le_of_eq (Nat.zero_add _), .inl rfl,
      (Nat.zero_add l.length).symm ▸ List.countP_le_length⟩
  obtain ⟨-, hplace, hlower, hupper⟩ := hstart.narrow hl
  unfold search
  generalize Lines.narrow l x 0 l.length = place at hplace hlower hupper
  have hplace : place < l.length := hplace
  have hget : l[place]? = some l[place] := List.getElem?_eq_getElem hplace
  have hiff := getElem_le_iff hl (x := x) hplace
  simp only [hget]
  constructor
  · intro hx
    obtain ⟨j, hj, rfl⟩ := List.getElem_of_mem hx
    have hjlt := (getElem_le_iff hl hj).mp (Nat.le_refl l[j])
    have hle : l[place] ≤ l[j] := hiff.mpr (by omega)
    have hge : l[j] ≤ l[place] := getElem_le_of_le hl (by omega) hplace
    have heq := Nat.le_antisymm hle hge
    exact ⟨place, if_pos heq, heq ▸ hget, by omega⟩
  · intro hx
    have hne : l[place] ≠ x := fun heq => hx (heq ▸ List.getElem_mem hplace)
    rw [if_neg hne]
    by_cases hlt : l[place] < x
    · have := hiff.mp (Nat.le_of_lt hlt)
      rw [if_pos hlt]
      exact congrArg _ (by omega)
    · have hnot : ¬ place < l.countP (· ≤ x) := fun h => by
        have := hiff.mpr h
        omega
      rw [if_neg hlt]
      exact congrArg _ (by omega)

/-! ## Starts of lines -/

theorem mem_startsAfter {bytes : List UInt8} : ∀ {offset s : Nat},
    s ∈ startsAfter offset bytes ↔ ∃ i, bytes[i]? = some 10 ∧ s = offset + i + 1 := by
  induction bytes with
  | nil => simp [startsAfter]
  | cons b rest ih =>
    intro offset s
    have hsplit : (∃ i, (b :: rest)[i]? = some 10 ∧ s = offset + i + 1) ↔
        b = 10 ∧ s = offset + 1 ∨ ∃ i, rest[i]? = some 10 ∧ s = offset + 1 + i + 1 := by
      constructor
      · rintro ⟨i, hi, rfl⟩
        cases i with
        | zero => exact .inl ⟨Option.some.inj hi, rfl⟩
        | succ i => exact .inr ⟨i, hi, by omega⟩
      · rintro (⟨rfl, rfl⟩ | ⟨i, hi, rfl⟩)
        · exact ⟨0, rfl, rfl⟩
        · exact ⟨i + 1, hi, by omega⟩
    rw [hsplit, startsAfter]
    split
    · rename_i hb
      rw [List.mem_cons, ih]
      exact or_congr_left (by simp [hb])
    · rename_i hb
      rw [ih]
      exact (or_iff_right fun h => hb h.1).symm

theorem pairwise_startsAfter (bytes : List UInt8) : ∀ offset,
    (startsAfter offset bytes).Pairwise (· < ·) := by
  induction bytes with
  | nil => exact fun _ => List.Pairwise.nil
  | cons b rest ih =>
    intro offset
    rw [startsAfter]
    split
    · refine List.pairwise_cons.mpr ⟨fun s hs => ?_, ih _⟩
      obtain ⟨i, -, rfl⟩ := mem_startsAfter.mp hs
      omega
    · exact ih _

/-- Up to an offset there are as many starts behind newlines as there are newlines before it. -/
theorem countP_startsAfter (bytes : List UInt8) : ∀ offset n,
    (startsAfter offset bytes).countP (· ≤ offset + n) = (bytes.take n).count 10 := by
  induction bytes with
  | nil => simp [startsAfter]
  | cons b rest ih =>
    intro offset n
    cases n with
    | zero =>
      refine List.countP_eq_zero.mpr fun s hs hle => ?_
      obtain ⟨i, -, rfl⟩ := mem_startsAfter.mp hs
      have hle : offset + i + 1 ≤ offset + 0 := of_decide_eq_true hle
      omega
    | succ n =>
      have hrest := ih (offset + 1) n
      rw [Nat.add_right_comm, Nat.add_assoc] at hrest
      rw [List.take_succ_cons, startsAfter]
      by_cases hb : b = 10
      · rw [if_pos hb, hb, List.count_cons_self, ← hrest]
        exact List.countP_cons_of_pos (by simp)
      · rw [if_neg hb, List.count_cons_of_ne (by simpa using hb), ← hrest]

variable (text : String)

theorem ascending_ofText : (ofText text).starts.Pairwise (· < ·) := by
  refine List.pairwise_cons.mpr ⟨fun s hs => ?_, pairwise_startsAfter _ 0⟩
  obtain ⟨i, -, rfl⟩ := mem_startsAfter.mp hs
  exact Nat.succ_pos _

/-- The number of a line is 1 more than the newlines before it. -/
theorem lineOf_ofText (offset : Nat) :
    (ofText text).lineOf offset = 1 + ((Text.bytes text).take offset).count 10 := by
  have hrest := countP_startsAfter (Text.bytes text) 0 offset
  rw [Nat.zero_add] at hrest
  rw [lineOf, ofText, List.countP_cons_of_pos (by simp), hrest, Nat.add_comm]

/-- Where the line of an offset starts. -/
def startOf (l : Lines) (offset : Nat) : Nat :=
  l.starts.getD (l.lineOf offset - 1) 0

/-- `start` is just past the last newline of some bytes, or 0 if there is none. -/
structure LastStart (before : List UInt8) (start : Nat) : Prop where
  le : start ≤ before.length
  begins : start = 0 ∨ before[start - 1]? = some 10
  rest : 10 ∉ before.drop start

theorem lineOf_pos (offset : Nat) : 0 < (ofText text).lineOf offset := by
  rw [lineOf_ofText]
  omega

/-- The line that is told is one of the text. -/
theorem lineOf_le_count (offset : Nat) : (ofText text).lineOf offset ≤ (ofText text).count :=
  List.countP_le_length

/-- An offset is at or behind the start of its line and before all later starts. -/
theorem startOf_spec (offset : Nat) :
    (ofText text).startOf offset ∈ (ofText text).starts ∧ (ofText text).startOf offset ≤ offset ∧
      ∀ s ∈ (ofText text).starts, s ≤ offset → s ≤ (ofText text).startOf offset := by
  have hsorted := ascending_ofText text
  have hpos := lineOf_pos text offset
  have hline : (ofText text).lineOf offset - 1 < (ofText text).starts.length := by
    have := lineOf_le_count text offset
    have hcount : (ofText text).count = (ofText text).starts.length := rfl
    omega
  have hstart : (ofText text).startOf offset =
      (ofText text).starts[(ofText text).lineOf offset - 1] := by
    rw [startOf, List.getD_eq_getElem?_getD, List.getElem?_eq_getElem hline, Option.getD_some]
  rw [hstart]
  refine ⟨List.getElem_mem hline, ?_, fun s hs hle => ?_⟩
  · exact (getElem_le_iff hsorted hline).mpr (Nat.sub_lt hpos Nat.one_pos)
  · obtain ⟨j, hj, rfl⟩ := List.getElem_of_mem hs
    have hlt : j < (ofText text).lineOf offset := (getElem_le_iff hsorted hj).mp hle
    exact getElem_le_of_le hsorted (Nat.le_sub_one_of_lt hlt) hline

theorem lastStart_startOf {offset : Nat} (h : offset ≤ (Text.bytes text).length) :
    LastStart ((Text.bytes text).take offset) ((ofText text).startOf offset) := by
  obtain ⟨hmem, hle, hlast⟩ := startOf_spec text offset
  generalize (ofText text).startOf offset = start at hmem hle hlast
  refine ⟨by rwa [List.length_take_of_le h], ?_, fun hnewline => ?_⟩
  · rcases List.mem_cons.mp hmem with rfl | hmem
    · exact .inl rfl
    · obtain ⟨i, hi, rfl⟩ := mem_startsAfter.mp hmem
      right
      rw [List.getElem?_take_of_lt (by omega), ← hi]
      congr 1
      omega
  · obtain ⟨k, hk⟩ := List.mem_iff_getElem?.mp hnewline
    rw [List.getElem?_drop] at hk
    have hlt : start + k < offset := by
      have := (List.getElem?_eq_some_iff.mp hk).1
      rwa [List.length_take_of_le h] at this
    rw [List.getElem?_take_of_lt hlt] at hk
    have hlater := hlast (start + k + 1)
      (List.mem_cons_of_mem _ (mem_startsAfter.mpr ⟨start + k, hk, by omega⟩)) hlt
    omega

/-! ## Lines, columns and numbers of lines -/

/-- The line of an offset as the search tells it: that of the start found, or that before the place
where the offset would be. -/
def searched (l : Lines) (offset : Nat) : Nat :=
  match search l.starts offset with
  | .ok i => i + 1
  | .error i => i - 1 + 1

theorem lineOf_eq_searched (offset : Nat) :
    (ofText text).lineOf offset = (ofText text).searched offset := by
  have hpos : 0 < (ofText text).starts.countP (· ≤ offset) := lineOf_pos text offset
  obtain ⟨hhit, hmiss⟩ := search_eq (ascending_ofText text) (List.cons_ne_nil _ _) offset
  by_cases hmem : offset ∈ (ofText text).starts
  · obtain ⟨i, hi, -, hcount⟩ := hhit hmem
    rw [lineOf, searched, hi, hcount]
  · rw [lineOf, searched, hmiss hmem]
    exact (Nat.sub_add_cancel hpos).symm

/-- The line and the column tell the offset. -/
theorem eq_of_locate_eq {offset offset' : Nat}
    (h : (ofText text).locate offset = (ofText text).locate offset') : offset = offset' := by
  obtain ⟨hline, hcolumn⟩ := Prod.mk.inj h
  have hstart : (ofText text).startOf offset = (ofText text).startOf offset' :=
    congrArg (fun line => (ofText text).starts.getD (line - 1) 0) hline
  have hle := (startOf_spec text offset).2.1
  have hle' := (startOf_spec text offset').2.1
  have hcolumn : offset - (ofText text).startOf offset + 1 =
      offset' - (ofText text).startOf offset' + 1 := hcolumn
  omega

theorem between_eq {first last : Nat} (h : first ≤ last) :
    (ofText text).between first last =
      1 + (((Text.bytes text).drop first).take (last - first)).count 10 := by
  have hlast : (Text.bytes text).take last = (Text.bytes text).take first ++
      ((Text.bytes text).drop first).take (last - first) := by
    rw [← List.take_add, Nat.add_sub_cancel' h]
  rw [between, Nat.max_eq_right h, lineOf_ofText, lineOf_ofText, hlast, List.count_append]
  omega

/-- The line of an offset is 1 more than the newlines before it, and its column 1 more than its
distance from just past the last of them, or from 0.  Together they tell the offset, and from one
offset to a later one there is one line more than there are newlines between them.  Halving the
starts of lines leads to the same line. -/
theorem locate_exact :
    (∀ offset ≤ Text.size text,
      (∃ start, LastStart ((Text.bytes text).take offset) start ∧
        (ofText text).locate offset =
          (1 + ((Text.bytes text).take offset).count 10, 1 + (offset - start))) ∧
      ((ofText text).locate offset).1 = (ofText text).searched offset ∧
      (ofText text).searched offset ≤ (ofText text).count) ∧
    (∀ offset ≤ Text.size text, ∀ offset' ≤ Text.size text,
      (ofText text).locate offset = (ofText text).locate offset' → offset = offset') ∧
    ∀ first last, first ≤ last → last ≤ Text.size text →
      (ofText text).between first last =
        1 + (((Text.bytes text).drop first).take (last - first)).count 10 := by
  refine ⟨fun offset hoffset => ⟨?_, lineOf_eq_searched text offset, ?_⟩, ?_, ?_⟩
  · rw [← Text.length_bytes] at hoffset
    refine ⟨(ofText text).startOf offset, lastStart_startOf text hoffset, ?_⟩
    rw [← lineOf_ofText, Nat.add_comm 1]
    rfl
  · rw [← lineOf_eq_searched]
    exact lineOf_le_count text offset
  · exact fun _ _ _ _ => eq_of_locate_eq text
  · exact fun _ _ hle _ => between_eq text hle

/-- The end of an empty line, the letter behind it, and the lines from the first to that letter. -/
theorem locate_exact_blank_line :
    let text := "z=1\n\nb"
    let lines := ofText text
    4 ≤ Text.size text ∧ 5 ≤ Text.size text ∧
      (∃ start, LastStart ((Text.bytes text).take 4) start ∧
        lines.locate 4 = (2, 1 + (4 - start))) ∧
      (∃ start, LastStart ((Text.bytes text).take 5) start ∧
        lines.locate 5 = (3, 1 + (5 - start))) ∧
      (lines.locate 4 = lines.locate 5 → 4 = 5) ∧ lines.between 2 5 = 3 := by
  intro text lines
  have h₄ : 4 ≤ Text.size text := by decide
  have h₅ : 5 ≤ Text.size text := by decide
  have hcount : ((Text.bytes text).take 4).count 10 = 1 ∧
      ((Text.bytes text).take 5).count 10 = 2 ∧
      (((Text.bytes text).drop 2).take 3).count 10 = 2 := by decide +kernel
  obtain ⟨hlocate, hsame, hbetween⟩ := locate_exact text
  have hlocate₄ := (hlocate 4 h₄).1
  have hlocate₅ := (hlocate 5 h₅).1
  have hbetween := hbetween 2 5 (by decide) h₅
  rw [hcount.1] at hlocate₄
  rw [hcount.2.1] at hlocate₅
  rw [hcount.2.2] at hbetween
  exact ⟨h₄, h₅, hlocate₄, hlocate₅, hsame 4 h₄ 5 h₅, hbetween⟩

end Lines
end FractalFormula
