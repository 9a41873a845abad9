/-
The entries of a library, read off as they are written.

An entry is written as a heading, which is a name, anything that belongs to it and a brace
(`Entry.Margin`), and a body.  The scan finds an entry where it comes to such a heading outside bodies
(`Scan.entries_heading`) and nowhere else (`exists_heading`).  So it recovers the entries of a library
in which headings, bodies, blank lines and comments are put one behind the other
(`Library.entries_recovered`).
-/
import FractalFormula.Proofs.Extent

namespace FractalFormula

namespace Text

/-- The size of a piece of text. -/
def width (cs : List Char) : Nat :=
  size (String.ofList cs)

@[simp] theorem width_nil : width [] = 0 := rfl

@[simp] theorem width_cons (c : Char) (cs : List Char) :
    width (c :: cs) = c.utf8Size + width cs := by
  simp [width, size, String.ofList_cons]

@[simp] theorem width_append (cs ds : List Char) : width (cs ++ ds) = width cs + width ds := by
  simp [width, size]

end Text

namespace Entry

open Text

/-- The characters of a name. -/
def IsLetter (c : Char) : Prop :=
  isBlank c = false ∧ c ∉ ['\n', ';', '{', '}', '(', ')']

instance (c : Char) : Decidable (IsLetter c) :=
  inferInstanceAs (Decidable (_ ∧ _))

/-- What holds of all characters of a text is decided on that text, not on every character there is. -/
instance {p : Char → Prop} [DecidablePred p] (cs : List Char) : Decidable (∀ c ∈ cs, p c) :=
  List.decidableBAll p cs

/-- A name, or what stands for a symmetry. -/
structure Word where
  chars : List Char
  nonempty : chars ≠ []
  plain : ∀ c ∈ chars, IsLetter c

def Word.text (w : Word) : String :=
  String.ofList w.chars

/-- A letter can stand anywhere on the line of a heading. -/
theorem IsLetter.line {c : Char} (h : IsLetter c) : c ∉ ['\n', ';', '{'] :=
  fun hmem => h.2 (by
    revert hmem
    simp
    tauto)

/-- What stands between a name and the brace behind it. -/
structure Margin (mid : List Char) : Prop where
  line : ∀ c ∈ mid, c ∉ ['\n', ';', '{']
  head : ∀ c ∈ mid.head?, ¬ IsLetter c

theorem Margin.append_singleton {mid : List Char} {c : Char} (h : Margin mid) (hne : mid ≠ [])
    (hc : c ∉ ['\n', ';', '{']) : Margin (mid ++ [c]) := by
  refine ⟨fun d hd => ?_, fun d hd => h.head d ?_⟩
  · rcases List.mem_append.mp hd with hd | hd
    · exact h.line d hd
    · rwa [List.mem_singleton.mp hd]
  · rwa [List.head?_append_of_ne_nil _ hne] at hd

namespace Scan

variable {c : Char} {r : Reading} {o : Nat}

/-! ## Headings -/

theorem quiet {s : Scan} (h : s.opened? c = none) (rest : List Char) :
    s.entries (c :: rest) = (s.step c).entries rest := by
  rw [entries_cons, h]
  rfl

theorem opened_of_ne {s : Scan} (h : c ≠ '{') : s.opened? c = none :=
  if_neg fun hopen => h hopen.2.2

theorem step_letter (hr : r ≠ .body) (hc : IsLetter c) :
    step ⟨false, r, o⟩ c = ⟨false, r.extend o c, o + c.utf8Size⟩ := by
  obtain ⟨hblank, hmark⟩ := hc
  simp only [List.mem_cons, List.not_mem_nil, or_false, not_or] at hmark
  simp [step, hr, hblank, hmark]

/-- A character that is no letter ends a word. -/
theorem step_pause (hr : r ≠ .body) (hc : ¬ IsLetter c) (hline : c ∉ ['\n', ';', '{']) :
    step ⟨false, r, o⟩ c = ⟨false, r.pause, o + c.utf8Size⟩ := by
  simp only [List.mem_cons, List.not_mem_nil, or_false, not_or] at hline
  have hpause : isBlank c = true ∨ c = '(' ∨ c = ')' ∨ c = '}' := by
    simp only [IsLetter, hline, List.mem_cons, List.not_mem_nil, or_false, false_or, not_and,
      Bool.eq_false_iff] at hc
    tauto
  simp only [step, hr, hline, if_false, Bool.false_eq_true]
  rw [if_pos (by simpa [or_assoc] using hpause)]

/-- Letters make a word longer, and behind a name they are passed over. -/
theorem entries_word {start : Nat} {w : List Char} (hw : ∀ c ∈ w, IsLetter c) (cs rest : List Char) :
    entries ⟨false, .word start cs, o⟩ (w ++ rest) =
      entries ⟨false, .word start (w.reverse ++ cs), o + width w⟩ rest := by
  induction w generalizing cs o with
  | nil => rfl
  | cons c w ih =>
    obtain ⟨hc, hw⟩ := List.forall_mem_cons.mp hw
    have hne : c ≠ '{' := fun h => hc.2 (by simp [h])
    rw [List.cons_append, quiet (opened_of_ne hne), step_letter (r := .word _ _) nofun hc,
      Reading.extend, ih hw,
      List.reverse_cons, List.append_assoc, width_cons, ← Nat.add_assoc]
    rfl

theorem entries_named {start : Nat} {name : String} {mid : List Char}
    (hmid : ∀ c ∈ mid, c ∉ ['\n', ';', '{']) (rest : List Char) :
    entries ⟨false, .named start name, o⟩ (mid ++ rest) =
      entries ⟨false, .named start name, o + width mid⟩ rest := by
  induction mid generalizing o with
  | nil => rfl
  | cons c mid ih =>
    obtain ⟨hc, hmid⟩ := List.forall_mem_cons.mp hmid
    have hne : c ≠ '{' := fun h => hc (by simp [h])
    have hstep : step ⟨false, .named start name, o⟩ c =
        ⟨false, .named start name, o + c.utf8Size⟩ := by
      by_cases hletter : IsLetter c
      · exact step_letter nofun hletter
      · exact step_pause nofun hletter hc
    rw [List.cons_append, quiet (opened_of_ne hne), hstep, ih hmid, width_cons, ← Nat.add_assoc]

/-- A brace opens the entry whose name has been read on its line. -/
theorem entries_brace {start : Nat} {name : String} (hr : r.pause = .named start name)
    (rest : List Char) : entries ⟨false, r, o⟩ ('{' :: rest) =
      ⟨name, start, o + 1⟩ :: entries ⟨false, .body, o + 1⟩ rest := by
  have hbody : r ≠ .body := by
    rintro rfl
    cases hr
  have hopened : opened? ⟨false, r, o⟩ '{' = some ⟨name, start, o + 1⟩ := by
    rw [opened?, if_pos ⟨rfl, hbody, rfl⟩, Reading.entry?, hr]
    rfl
  have hstep : step ⟨false, r, o⟩ '{' = ⟨false, .body, o + 1⟩ := by
    simp [step, hbody]
    rfl
  rw [entries_cons, hopened, hstep]
  rfl

/-- Outside bodies a heading opens an entry. -/
theorem entries_heading (w : Word) {mid : List Char} (hmid : Margin mid) (rest : List Char) :
    let stop := o + width (w.chars ++ mid ++ ['{'])
    entries ⟨false, .blank, o⟩ (w.chars ++ mid ++ '{' :: rest) =
      ⟨w.text, o, stop⟩ :: entries ⟨false, .body, stop⟩ rest := by
  intro stop
  have hword (rest : List Char) : entries ⟨false, .blank, o⟩ (w.chars ++ rest) =
      entries ⟨false, .word o w.chars.reverse, o + width w.chars⟩ rest := by
    obtain ⟨chars, hne, hplain⟩ := w
    cases chars with
    | nil => exact absurd rfl hne
    | cons c chars =>
      obtain ⟨hc, hchars⟩ := List.forall_mem_cons.mp hplain
      have hbrace : c ≠ '{' := fun h => hc.2 (by simp [h])
      rw [List.cons_append, quiet (opened_of_ne hbrace), step_letter (r := .blank) nofun hc,
        Reading.extend, entries_word hchars, List.reverse_cons, width_cons, ← Nat.add_assoc]
  have hpause : Reading.pause (.word o w.chars.reverse) = .named o w.text := by
    rw [Reading.pause, List.reverse_reverse, Word.text]
  have hstop : stop = o + width w.chars + width mid + 1 := by
    simp only [stop, width_append, ← Nat.add_assoc]
    rfl
  rw [List.append_assoc, hword, hstop]
  cases mid with
  | nil => exact entries_brace hpause rest
  | cons c mid =>
    obtain ⟨hc, hline⟩ := List.forall_mem_cons.mp hmid.line
    have hne : c ≠ '{' := fun h => hc (by simp [h])
    rw [List.cons_append, quiet (opened_of_ne hne),
      step_pause (by simp) (hmid.head c rfl) hc, hpause, entries_named hline,
      entries_brace rfl, width_cons, ← Nat.add_assoc]

/-- What the reading of a scan tells of the characters before it. -/
def Recalls (past : List Char) : Reading → Prop
  | .word start cs => ∃ (front : List Char) (w : Word), past = front ++ w.chars ∧ start = width front ∧
      w.chars = cs.reverse
  | .named start name => ∃ (front : List Char) (w : Word) (mid : List Char), past = front ++ w.chars ++ mid ∧
      start = width front ∧ name = w.text ∧ Margin mid ∧ mid ≠ []
  | .blank | .body => True

theorem recalls_letter {past : List Char} (h : Recalls past r) (hc : IsLetter c) :
    Recalls (past ++ [c]) (r.extend (width past) c) := by
  cases r with
  | blank => exact ⟨past, ⟨[c], nofun, by simpa using hc⟩, rfl, rfl, rfl⟩
  | word start cs =>
    obtain ⟨front, w, rfl, rfl, hw⟩ := h
    refine ⟨front, ⟨w.chars ++ [c], by simp, ?_⟩, by simp, rfl, by simp [hw]⟩
    exact fun d hd => (List.mem_append.mp hd).elim (w.plain d) fun hd =>
      List.mem_singleton.mp hd ▸ hc
  | named start name =>
    obtain ⟨front, w, mid, rfl, rfl, rfl, hmid, hne⟩ := h
    exact ⟨front, w, mid ++ [c], by simp, rfl, rfl, hmid.append_singleton hne hc.line, by simp⟩
  | body => trivial

theorem recalls_pause {past : List Char} (h : Recalls past r) (hc : ¬ IsLetter c)
    (hline : c ∉ ['\n', ';', '{']) : Recalls (past ++ [c]) r.pause := by
  cases r with
  | blank | body => trivial
  | word start cs =>
    obtain ⟨front, w, rfl, rfl, hw⟩ := h
    refine ⟨front, w, [c], rfl, rfl, by rw [Word.text, hw], ⟨?_, ?_⟩, nofun⟩
    · simpa using hline
    · simpa using hc
  | named start name =>
    obtain ⟨front, w, mid, rfl, rfl, rfl, hmid, hne⟩ := h
    exact ⟨front, w, mid ++ [c], by simp, rfl, rfl, hmid.append_singleton hne hline, by simp⟩

theorem recalls_step {s : Scan} {past : List Char} (hoffset : s.offset = width past)
    (h : s.comment = false → Recalls past s.reading) (c : Char) :
    (s.step c).offset = width (past ++ [c]) ∧
      ((s.step c).comment = false → Recalls (past ++ [c]) (s.step c).reading) := by
  obtain ⟨comment, r, o⟩ := s
  obtain rfl : o = width past := hoffset
  have hnext : width (past ++ [c]) = width past + c.utf8Size := by simp
  rw [hnext]
  by_cases hplain : comment = false ∧ r ≠ .body ∧ c ∉ ['\n', ';', '{']
  · obtain ⟨rfl, hr, hline⟩ := hplain
    by_cases hc : IsLetter c
    · rw [step_letter hr hc]
      exact ⟨rfl, fun _ => recalls_letter (h rfl) hc⟩
    · rw [step_pause hr hc hline]
      exact ⟨rfl, fun _ => recalls_pause (h rfl) hc hline⟩
  · unfold step
    dsimp only
    repeat' split
    all_goals first
      | exact ⟨rfl, fun _ => trivial⟩
      | exact ⟨rfl, fun hcomment => Bool.noConfusion hcomment⟩
      | simp_all

/-- An entry is opened by a brace, and the scan has then come to the end of its heading. -/
theorem exists_opened {chars : List Char} {e : Entry} : ∀ {s : Scan}, e ∈ s.entries chars →
    ∃ front rest, chars = front ++ '{' :: rest ∧ (s.after front).opened? '{' = some e := by
  induction chars with
  | nil => exact fun h => absurd h List.not_mem_nil
  | cons c chars ih =>
    intro s h
    rw [entries_cons] at h
    rcases List.mem_append.mp h with h | h
    · have hopened : s.opened? c = some e := Option.mem_toList.mp h
      obtain rfl : c = '{' := Decidable.byContradiction fun hne => by
        rw [opened_of_ne hne] at hopened
        cases hopened
      exact ⟨[], chars, rfl, hopened⟩
    · obtain ⟨front, rest, rfl, hopened⟩ := ih h
      exact ⟨c :: front, rest, rfl, hopened⟩

theorem recalls_after (past : List Char) : (start.after past).offset = width past ∧
    ((start.after past).comment = false → Recalls past (start.after past).reading) := by
  induction past using List.reverseRecOn with
  | nil => exact ⟨rfl, fun _ => trivial⟩
  | append_singleton past c ih =>
    rw [after, List.foldl_append]
    exact recalls_step ih.1 ih.2 c

end Scan

/-- An entry stands where its heading is. -/
theorem exists_heading {text : String} {e : Entry} (h : e ∈ list text) :
    ∃ (front : List Char) (w : Word) (mid rest : List Char),
      text.toList = front ++ (w.chars ++ mid ++ '{' :: rest) ∧ Margin mid ∧
      e = ⟨w.text, width front, width front + width (w.chars ++ mid ++ ['{'])⟩ := by
  obtain ⟨past, rest, htext, hopened⟩ := Scan.exists_opened (s := .start) h
  obtain ⟨hoffset, hrecalls⟩ := Scan.recalls_after past
  unfold Scan.opened? at hopened
  split at hopened
  · rename_i hopen
    have hrecalls := hrecalls hopen.1
    rw [htext]
    unfold Reading.entry? at hopened
    cases hr : (Scan.start.after past).reading with
    | blank | body =>
      rw [hr] at hopened
      cases hopened
    | word start cs =>
      rw [hr] at hopened hrecalls
      obtain ⟨front, w, rfl, rfl, hw⟩ := hrecalls
      refine ⟨front, w, [], rest, by simp, ⟨nofun, nofun⟩, ?_⟩
      rw [← Option.some.inj hopened, hoffset, Word.text, hw]
      simp [Nat.add_assoc]
    | named start name =>
      rw [hr] at hopened hrecalls
      obtain ⟨front, w, mid, rfl, rfl, rfl, hmid, -⟩ := hrecalls
      refine ⟨front, w, mid, rest, by simp, hmid, ?_⟩
      rw [← Option.some.inj hopened, hoffset]
      simp [Nat.add_assoc]
  · cases hopened

/-! ## Bodies and what stands between entries -/

/-- A semicolon stands on the last line. -/
def Commented (cs : List Char) : Prop :=
  ∃ a b, cs = a ++ ';' :: b ∧ '\n' ∉ b

theorem commented_append_singleton (cs : List Char) (c : Char) :
    Commented (cs ++ [c]) ↔ c ≠ '\n' ∧ (c = ';' ∨ Commented cs) := by
  constructor
  · rintro ⟨a, b, hsplit, hb⟩
    rcases List.eq_nil_or_concat b with rfl | ⟨b, d, rfl⟩
    · obtain ⟨-, hc⟩ := List.append_inj' hsplit rfl
      obtain rfl := (List.cons.inj hc).1
      exact ⟨by decide, .inl rfl⟩
    · rw [List.concat_eq_append] at hsplit hb
      rw [← List.cons_append, ← List.append_assoc] at hsplit
      obtain ⟨rfl, hc⟩ := List.append_inj' hsplit rfl
      obtain rfl := (List.cons.inj hc).1
      exact ⟨fun h => hb (by simp [h]), .inr ⟨a, b, rfl, fun h => hb (List.mem_append_left _ h)⟩⟩
  · rintro ⟨hc, rfl | ⟨a, b, rfl, hb⟩⟩
    · exact ⟨cs, [], rfl, List.not_mem_nil⟩
    · refine ⟨a, b ++ [c], by simp, fun h => ?_⟩
      rcases List.mem_append.mp h with h | h
      · exact hb h
      · exact hc (List.mem_singleton.mp h).symm

theorem commented_iff (cs : List Char) :
    Commented cs ↔ ';' ∈ cs.reverse.takeWhile (· != '\n') := by
  induction cs using List.reverseRecOn with
  | nil => exact ⟨by rintro ⟨a, b, hnil, -⟩; simp at hnil, fun h => absurd h List.not_mem_nil⟩
  | append_singleton cs c ih =>
    rw [commented_append_singleton, ih, List.reverse_append, List.reverse_singleton,
      List.singleton_append, List.takeWhile_cons]
    by_cases hc : c = '\n'
    · simp [hc]
    · rw [if_pos (bne_iff_ne.mpr hc), List.mem_cons, and_iff_right hc, eq_comm]

instance (cs : List Char) : Decidable (Commented cs) :=
  decidable_of_iff' _ (commented_iff cs)

/-- It is enough to look at the places of the braces. -/
theorem commented_of_split {cs : List Char}
    (h : ∀ i < cs.length, cs[i]? = some '}' → Commented (cs.take i)) (a b : List Char)
    (hsplit : cs = a ++ '}' :: b) : Commented a := by
  subst hsplit
  have hbrace := h a.length (by simp) (by simp)
  rwa [List.take_left] at hbrace

/-- A body up to its closing brace: any other brace that could close it stands in a comment. -/
structure Body where
  chars : List Char
  inside : ∀ a b, chars = a ++ '}' :: b → Commented a
  ended : ¬ Commented chars

/-- A line without an entry: blanks, and a comment if there is one. -/
structure Line where
  gap : List Char
  blank : ∀ c ∈ gap, isBlank c = true
  comment : Option (List Char)
  single : ∀ text ∈ comment, '\n' ∉ text

def Line.chars (l : Line) : List Char :=
  l.gap ++ l.comment.elim [] (';' :: ·) ++ ['\n']

namespace Scan

variable {c : Char} {r : Reading} {o : Nat}

theorem step_comment (hc : c ≠ '\n') : step ⟨true, r, o⟩ c = ⟨true, r, o + c.utf8Size⟩ := by
  simp [step, hc]

theorem entries_comment {text : List Char} (htext : '\n' ∉ text) (rest : List Char) :
    entries ⟨true, .blank, o⟩ (text ++ '\n' :: rest) =
      entries ⟨false, .blank, o + width text + 1⟩ rest := by
  induction text generalizing o with
  | nil => exact quiet (opened_of_ne (by decide)) rest
  | cons c text ih =>
    obtain ⟨hc, htext⟩ := not_or.mp (mt List.mem_cons.mpr htext)
    have hclosed : opened? ⟨true, .blank, o⟩ c = none := if_neg fun h => Bool.noConfusion h.1
    rw [List.cons_append, quiet hclosed, step_comment (Ne.symm hc), ih htext, width_cons,
      ← Nat.add_assoc]

theorem entries_gap {gap : List Char} (hgap : ∀ c ∈ gap, isBlank c = true) (rest : List Char) :
    entries ⟨false, .blank, o⟩ (gap ++ rest) = entries ⟨false, .blank, o + width gap⟩ rest := by
  induction gap generalizing o with
  | nil => rfl
  | cons c gap ih =>
    obtain ⟨hc, hgap⟩ := List.forall_mem_cons.mp hgap
    have hmark {d : Char} (hd : isBlank d = false) : c ≠ d := by
      rintro rfl
      exact Bool.noConfusion (hc.symm.trans hd)
    have hstep : step ⟨false, .blank, o⟩ c = ⟨false, .blank, o + c.utf8Size⟩ := by
      simp [step, hc, hmark (d := '\n') rfl, hmark (d := ';') rfl, hmark (d := '{') rfl,
        Reading.pause]
    rw [List.cons_append, quiet (opened_of_ne (hmark rfl)), hstep, ih hgap, width_cons,
      ← Nat.add_assoc]

theorem entries_line (l : Line) (rest : List Char) :
    entries ⟨false, .blank, o⟩ (l.chars ++ rest) = entries ⟨false, .blank, o + width l.chars⟩ rest := by
  obtain ⟨gap, hgap, comment, hsingle⟩ := l
  cases comment with
  | none =>
    simp only [Line.chars, Option.elim_none, List.append_nil, List.append_assoc]
    rw [entries_gap hgap, width_append, ← Nat.add_assoc]
    exact quiet (opened_of_ne (by decide)) rest
  | some text =>
    simp only [Line.chars, Option.elim_some, List.append_assoc, List.cons_append, List.nil_append]
    rw [entries_gap hgap, quiet (opened_of_ne (by decide))]
    have hstep : step ⟨false, .blank, o + width gap⟩ ';' = ⟨true, .blank, o + width gap + 1⟩ := rfl
    rw [hstep, entries_comment (hsingle text rfl)]
    have hsize : width (gap ++ ';' :: (text ++ ['\n'])) = width gap + (1 + (width text + 1)) := by
      simp
      rfl
    rw [hsize]
    congr 2
    omega

theorem entries_lines (ls : List Line) (rest : List Char) :
    entries ⟨false, .blank, o⟩ (ls.flatMap Line.chars ++ rest) =
      entries ⟨false, .blank, o + width (ls.flatMap Line.chars)⟩ rest := by
  induction ls generalizing o with
  | nil => rfl
  | cons l ls ih =>
    rw [List.flatMap_cons, List.append_assoc, entries_line, ih, width_append, ← Nat.add_assoc]

theorem step_inside {comment : Bool} (hbrace : c = '}' → comment = true) :
    step ⟨comment, .body, o⟩ c =
      ⟨decide (c ≠ '\n' ∧ (c = ';' ∨ comment = true)), .body, o + c.utf8Size⟩ := by
  by_cases hline : c = '\n'
  · simp [step, hline]
  by_cases hcomment : comment = true
  · simp [step, hline, hcomment]
  by_cases hsemicolon : c = ';'
  · simp [step, hcomment, hsemicolon, Reading.pause]
  · simp [step, hline, hcomment, hsemicolon, mt hbrace hcomment]

/-- By induction on what has been read: the scan stays in the body, and is in a comment if and only if
a semicolon stands on the line it has come to. -/
theorem after_body {p : List Char} (h : ∀ a b, p = a ++ '}' :: b → Commented a) :
    (after ⟨false, .body, o⟩ p).reading = .body ∧ (after ⟨false, .body, o⟩ p).offset = o + width p ∧
      ((after ⟨false, .body, o⟩ p).comment = true ↔ Commented p) := by
  induction p using List.reverseRecOn with
  | nil => exact ⟨rfl, rfl, fun h => Bool.noConfusion h, by rintro ⟨a, b, hnil, -⟩; simp at hnil⟩
  | append_singleton p c ih =>
    obtain ⟨hreading, hoffset, hcomment⟩ := ih fun a b hsplit =>
      h a (b ++ [c]) (by rw [hsplit]; simp)
    have hbrace : c = '}' → Commented p := fun hc => h p [] (by rw [hc])
    have hafter : after ⟨false, .body, o⟩ (p ++ [c]) = (after ⟨false, .body, o⟩ p).step c :=
      List.foldl_append
    rw [hafter]
    generalize after ⟨false, .body, o⟩ p = s at *
    obtain ⟨comment, r, o'⟩ := s
    obtain rfl : r = .body := hreading
    obtain rfl : o' = o + width p := hoffset
    rw [← hcomment] at hbrace
    rw [step_inside hbrace, commented_append_singleton, ← hcomment]
    exact ⟨rfl, by simp [Nat.add_assoc], decide_eq_true_iff⟩

theorem entries_body (b : Body) (rest : List Char) :
    entries ⟨false, .body, o⟩ (b.chars ++ '}' :: rest) =
      entries ⟨false, .blank, o + width b.chars + 1⟩ rest := by
  have hprefix (k : List Char) (hk : k <+: b.chars) : (after ⟨false, .body, o⟩ k).reading = .body := by
    obtain ⟨more, hmore⟩ := hk
    exact (after_body fun a c hsplit => b.inside a (c ++ more) (by rw [← hmore, hsplit]; simp)).1
  obtain ⟨hreading, hoffset, hcomment⟩ := after_body (o := o) b.inside
  rw [entries_of_body hprefix]
  generalize after ⟨false, .body, o⟩ b.chars = s at *
  obtain ⟨comment, r, o'⟩ := s
  obtain rfl : comment = false := Bool.eq_false_iff.mpr (mt hcomment.mp b.ended)
  obtain rfl : r = .body := hreading
  obtain rfl : o' = o + width b.chars := hoffset
  exact quiet (opened_of_ne (by decide)) rest

end Scan

/-! ## Libraries -/

/-- What an entry is written with. -/
structure Written where
  name : Word
  /-- A symmetry in parentheses, with the blanks before it. -/
  symmetry : Option (List Char × Word)
  gap : List Char
  blank : ∀ c ∈ (symmetry.elim [] Prod.fst) ++ gap, isBlank c = true
  body : Body

namespace Written

/-- What stands between the name and the brace. -/
def mid (w : Written) : List Char :=
  w.symmetry.elim [] (fun s => s.1 ++ '(' :: s.2.chars ++ [')']) ++ w.gap

def heading (w : Written) : List Char :=
  w.name.chars ++ w.mid ++ ['{']

def chars (w : Written) : List Char :=
  w.heading ++ w.body.chars ++ ['}']

theorem margin (w : Written) : Margin w.mid := by
  obtain ⟨name, symmetry, gap, hblank, body⟩ := w
  have hgap {c : Char} (hc : isBlank c = true) : ¬ IsLetter c ∧ c ∉ ['\n', ';', '{'] := by
    refine ⟨fun h => Bool.noConfusion (h.1.symm.trans hc), fun h => ?_⟩
    simp only [List.mem_cons, List.not_mem_nil, or_false] at h
    rcases h with rfl | rfl | rfl <;> cases hc
  cases symmetry with
  | none => exact ⟨fun c hc => (hgap (hblank c hc)).2, fun c hc =>
      (hgap (hblank c (List.mem_of_mem_head? hc))).1⟩
  | some s =>
    obtain ⟨gap', sym⟩ := s
    refine ⟨fun c hc => ?_, fun c hc => ?_⟩
    · simp only [mid, Option.elim_some, List.mem_append, List.mem_cons, List.not_mem_nil,
        or_false] at hc
      rcases hc with ((hc | rfl | hc) | rfl) | hc
      · exact (hgap (hblank c (List.mem_append_left _ hc))).2
      · decide
      · exact (sym.plain c hc).line
      · decide
      · exact (hgap (hblank c (List.mem_append_right _ hc))).2
    · cases gap' with
      | nil =>
        obtain rfl := Option.some.inj hc
        decide
      | cons d gap' =>
        obtain rfl := Option.some.inj hc
        exact (hgap (hblank d List.mem_cons_self)).1

end Written

namespace Scan

/-- A written entry is found where it begins, and behind it the scan goes on. -/
theorem entries_written (w : Written) (o : Nat) (rest : List Char) :
    entries ⟨false, .blank, o⟩ (w.chars ++ rest) =
      ⟨w.name.text, o, o + width w.heading⟩ :: entries ⟨false, .blank, o + width w.chars⟩ rest := by
  have hsplit : w.chars ++ rest =
      w.name.chars ++ w.mid ++ '{' :: (w.body.chars ++ '}' :: rest) := by
    simp [Written.chars, Written.heading]
  have hwidth : width w.chars = width w.heading + width w.body.chars + 1 := by
    simp [Written.chars]
    rfl
  rw [hsplit, entries_heading w.name w.margin, entries_body, hwidth, ← Nat.add_assoc,
    ← Nat.add_assoc]
  rfl

end Scan

/-- The text of a library: lines without entries, then entries, each with such lines behind it. -/
structure Library where
  lead : List Line
  entries : List (Written × List Line)

namespace Library

/-- Entries with the lines behind them. -/
def run (es : List (Written × List Line)) : List Char :=
  es.flatMap fun e => e.1.chars ++ e.2.flatMap Line.chars

def text (l : Library) : String :=
  String.ofList (l.lead.flatMap Line.chars ++ run l.entries)

/-- The entry of number `i`: its name, the size of the text before it, and that size together with its
heading. -/
def written? (l : Library) (i : Nat) : Option Entry :=
  l.entries[i]?.map fun e =>
    let start := Text.size (text ⟨l.lead, l.entries.take i⟩)
    ⟨e.1.name.text, start, start + width e.1.heading⟩

theorem entries_run (es : List (Written × List Line)) (o i : Nat) :
    (Scan.entries ⟨false, .blank, o⟩ (run es))[i]? = es[i]?.map fun e =>
      let start := o + width (run (es.take i))
      ⟨e.1.name.text, start, start + width e.1.heading⟩ := by
  induction es generalizing o i with
  | nil => rfl
  | cons e es ih =>
    have hsplit : run (e :: es) = e.1.chars ++ (e.2.flatMap Line.chars ++ run es) :=
      List.append_assoc _ _ _
    rw [hsplit, Scan.entries_written, Scan.entries_lines]
    cases i with
    | zero => rfl
    | succ i =>
      have hwidth : width (run ((e :: es).take (i + 1))) =
          width e.1.chars + width (e.2.flatMap Line.chars) + width (run (es.take i)) := by
        simp [run, Nat.add_assoc]
      rw [List.getElem?_cons_succ, ih, hwidth]
      simp only [List.getElem?_cons_succ, Nat.add_assoc]

/-- The scan of a library finds the entries it is written with, in order and where they are written,
and a search finds the first of a name. -/
theorem entries_recovered (l : Library) : (∀ i, (Entry.list l.text)[i]? = l.written? i) ∧
    ∀ name, Entry.find? l.text name =
      (l.entries.findIdx? fun e => sameName e.1.name.text name).bind l.written? := by
  have hlist (i : Nat) : (Entry.list l.text)[i]? = l.written? i := by
    have hscan : Entry.list l.text =
        Scan.entries ⟨false, .blank, 0⟩ (l.lead.flatMap Line.chars ++ run l.entries) := by
      rw [Entry.list, text, String.toList_ofList]
      rfl
    rw [hscan, Scan.entries_lines, entries_run, Nat.zero_add]
    have hstart : Text.size (text ⟨l.lead, l.entries.take i⟩) =
        width (l.lead.flatMap Line.chars) + width (run (l.entries.take i)) := width_append _ _
    rw [written?, hstart]
  refine ⟨hlist, fun name => ?_⟩
  have hnames : (Entry.list l.text).map Entry.name = l.entries.map (·.1.name.text) := by
    refine List.ext_getElem? fun i => ?_
    rw [List.getElem?_map, hlist, written?, Option.map_map, List.getElem?_map]
    rfl
  have hindex : (Entry.list l.text).findIdx? (sameName ·.name name) =
      l.entries.findIdx? fun e => sameName e.1.name.text name := by
    have := congrArg (List.findIdx? (sameName · name)) hnames
    rwa [List.findIdx?_map, List.findIdx?_map] at this
  rw [find?, List.find?_eq_bind_findIdx?_getElem?, hindex]
  exact congrArg _ (funext hlist)

/-- Three entries, two of them of one name, with comments that look like entries before and between
them.  A brace stands in a comment of the first body. -/
def shelf : Library where
  lead :=
    [{ gap := [], blank := by decide, comment := some " no \x7b".toList, single := by decide +kernel },
      { gap := [' ', '\t'], blank := by decide, comment := none, single := nofun }]
  entries :=
    [({ name := ⟨"étoile".toList, by decide +kernel, by decide +kernel⟩
        symmetry := some ([' '], ⟨"XAXIS".toList, by decide +kernel, by decide +kernel⟩)
        gap := [' ']
        blank := by decide
        body :=
          { chars := "\nz=pixel: ; not yet \x7d\nz=z*z\n".toList
            inside := commented_of_split (by decide +kernel)
            ended := by decide +kernel } },
      [{ gap := [], blank := by decide, comment := none, single := nofun },
        { gap := [], blank := by decide, comment := none, single := nofun }]),
     ({ name := ⟨"twin".toList, by decide +kernel, by decide +kernel⟩
        symmetry := none
        gap := []
        blank := by decide
        body :=
          { chars := "z=1".toList
            inside := commented_of_split (by decide +kernel)
            ended := by decide +kernel } },
      [{ gap := [' '], blank := by decide, comment := some "gone \x7bz\x7d".toList,
         single := by decide +kernel }]),
     ({ name := ⟨"Twin".toList, by decide +kernel, by decide +kernel⟩
        symmetry := none
        gap := [' ']
        blank := by decide
        body := { chars := [], inside := commented_of_split (by decide), ended := by decide } },
      [])]

theorem entries_recovered_shelf :
    shelf.text = "; no \x7b\n \t\nétoile (XAXIS) \x7b\nz=pixel: ; not yet \x7d\nz=z*z\n\x7d\n\n" ++
      "twin\x7bz=1\x7d ;gone \x7bz\x7d\nTwin \x7b\x7d" ∧
      (Entry.list shelf.text)[0]? = some ⟨"étoile", 10, 27⟩ ∧
      (Entry.list shelf.text)[1]? = some ⟨"twin", 58, 63⟩ ∧
      (Entry.list shelf.text)[2]? = some ⟨"Twin", 78, 84⟩ ∧ (Entry.list shelf.text)[3]? = none ∧
      Entry.find? shelf.text "TWIN" = some ⟨"twin", 58, 63⟩ := by
  obtain ⟨hlist, hfind⟩ := shelf.entries_recovered
  exact ⟨by decide +kernel, (hlist 0).trans (by decide +kernel), (hlist 1).trans (by decide +kernel),
    (hlist 2).trans (by decide +kernel), hlist 3, (hfind "TWIN").trans (by decide +kernel)⟩

end Library

end Entry
end FractalFormula
