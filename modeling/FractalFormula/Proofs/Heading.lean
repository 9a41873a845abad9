/-
Names and headers.

The scan of a library takes a name letter by letter, and its header is read byte by byte: the bytes
of the name are counted up to a blank, a `(` or a `{`, and as many characters are taken.  Both
readings come to the same brace, and to the same name exactly if that is made of single bytes and no
closing bracket stands right behind it (`header_of_entry`).
-/
import FractalFormula.Library.Header
import FractalFormula.Proofs.Entries

namespace FractalFormula

namespace Text

/-! ## Sizes -/

theorem length_le_width (cs : List Char) : cs.length ≤ width cs := by
  induction cs with
  | nil => exact Nat.le_refl _
  | cons c cs ih =>
    have := c.utf8Size_pos
    rw [width_cons, List.length_cons]
    omega

/-- A piece of text is as long as its size exactly if it is made of single bytes. -/
theorem width_eq_length_iff {cs : List Char} : width cs = cs.length ↔ ∀ c ∈ cs, c.utf8Size = 1 := by
  induction cs with
  | nil => exact ⟨fun _ => nofun, fun _ => rfl⟩
  | cons c cs ih =>
    have := c.utf8Size_pos
    have := length_le_width cs
    rw [List.forall_mem_cons, ← ih, width_cons, List.length_cons]
    omega

theorem width_takeWhile_eq_zero {p : Char → Bool} {cs : List Char} :
    width (cs.takeWhile p) = 0 ↔ ∀ c ∈ cs.head?, p c = false := by
  cases cs with
  | nil => exact ⟨fun _ => nofun, fun _ => rfl⟩
  | cons c cs =>
    have := c.utf8Size_pos
    cases hc : p c with
    | true =>
      rw [List.takeWhile_cons_of_pos hc, width_cons]
      refine ⟨fun h => by omega, fun h => ?_⟩
      exact Bool.noConfusion (hc.symm.trans (h c rfl))
    | false =>
      rw [List.takeWhile_cons_of_neg (by simp [hc])]
      refine ⟨fun _ d hd => ?_, fun _ => rfl⟩
      rw [← Option.some.inj hd, hc]

/-! ## Bytes as characters -/

/-- Characters as they are read byte by byte. -/
def byBytes (cs : List Char) : List Char :=
  (cs.flatMap String.utf8EncodeChar).map latin1

theorem byBytes_cons (c : Char) (cs : List Char) :
    byBytes (c :: cs) = (String.utf8EncodeChar c).map latin1 ++ byBytes cs := by
  simp [byBytes]

theorem byBytes_append (cs ds : List Char) : byBytes (cs ++ ds) = byBytes cs ++ byBytes ds := by
  simp [byBytes]

theorem length_byBytes (cs : List Char) : (byBytes cs).length = width cs := by
  induction cs with
  | nil => rfl
  | cons c cs ih =>
    rw [byBytes_cons, List.length_append, ih, List.length_map, String.length_utf8EncodeChar,
      width_cons]

/-- A character is a single byte, or its bytes are none of those that mean something. -/
theorem map_latin1_cases (c : Char) : (String.utf8EncodeChar c).map latin1 = [c] ∨
    127 < c.toNat ∧ ∀ d ∈ (String.utf8EncodeChar c).map latin1, 127 < d.toNat := by
  rcases utf8_cases c with ⟨b, hb, hc⟩ | ⟨hc, hbytes⟩
  · exact .inl (by rw [hb, List.map_singleton, hc])
  · exact .inr ⟨hc, by simpa using hbytes⟩

theorem mem_byBytes {c : Char} (hc : c.toNat ≤ 127) {cs : List Char} (h : c ∈ byBytes cs) :
    c ∈ cs := by
  induction cs with
  | nil => exact h
  | cons d cs ih =>
    rw [byBytes_cons] at h
    rcases List.mem_append.mp h with h | h
    · rcases map_latin1_cases d with hd | ⟨-, hd⟩
      · rw [hd] at h
        exact List.mem_singleton.mp h ▸ List.mem_cons_self
      · exact absurd (hd c h) (Nat.not_lt_of_le hc)
    · exact List.mem_cons_of_mem _ (ih h)

/-- Up to a character that is a single byte, both readings come alike. -/
theorem takeWhile_byBytes {p : Char → Bool} (hp : ∀ c, 127 < c.toNat → p c = true)
    (cs : List Char) : (byBytes cs).takeWhile p = byBytes (cs.takeWhile p) := by
  induction cs with
  | nil => rfl
  | cons c cs ih =>
    have hall : p c = true → ∀ d ∈ (String.utf8EncodeChar c).map latin1, p d = true := by
      intro hc d hd
      rcases map_latin1_cases c with h | ⟨-, h⟩
      · rw [h] at hd
        exact List.mem_singleton.mp hd ▸ hc
      · exact hp d (h d hd)
    rw [byBytes_cons]
    cases hc : p c with
    | true =>
      rw [List.takeWhile_append_of_pos (hall hc), List.takeWhile_cons_of_pos hc, byBytes_cons, ih]
    | false =>
      have hsingle : (String.utf8EncodeChar c).map latin1 = [c] :=
        (map_latin1_cases c).resolve_right fun h => Bool.noConfusion (hc.symm.trans (hp c h.1))
      rw [hsingle, List.singleton_append, List.takeWhile_cons_of_neg (by simp [hc]),
        List.takeWhile_cons_of_neg (by simp [hc])]
      rfl

theorem drop_bytes {text : String} {front rest : List Char} (h : text.toList = front ++ rest) :
    ((bytes text).drop (width front)).map latin1 = byBytes rest := by
  have hlength : (front.flatMap String.utf8EncodeChar).length = width front := by
    rw [← length_byBytes, byBytes, List.length_map]
  rw [bytes, h, List.flatMap_append, List.drop_left' hlength, byBytes]

theorem dropBytes_append (front rest : List Char) :
    dropBytes (width front) (front ++ rest) = rest := by
  induction front with
  | nil => cases rest <;> rfl
  | cons c front ih =>
    obtain ⟨n, hn⟩ : ∃ n, width (c :: front) = n + 1 :=
      ⟨width (c :: front) - 1, by have := c.utf8Size_pos; rw [width_cons]; omega⟩
    have hrest : n + 1 - c.utf8Size = width front := by rw [← hn, width_cons]; omega
    rw [hn, List.cons_append, dropBytes, hrest, ih]

end Text

namespace Header

/-! ## How far a header goes -/

/-- What the next brace on the way ends at. -/
structure Rest.Stops (r : Rest) (stop : Nat) : Prop where
  brace : ∃ zs ys, r.chars = zs ++ '{' :: ys ∧ '{' ∉ zs ∧ r.offset + zs.length + 1 = stop

theorem Rest.Stops.brace_eq {cs : List Char} {o stop : Nat} (h : Stops ⟨'{' :: cs, o⟩ stop) :
    o + 1 = stop := by
  obtain ⟨zs, ys, hsplit, hzs, hstop⟩ := h
  cases zs with
  | nil => exact hstop
  | cons z zs =>
    obtain ⟨rfl, -⟩ := List.cons.inj hsplit
    exact absurd List.mem_cons_self hzs

theorem Rest.Stops.tail {c : Char} {cs : List Char} {o stop : Nat} (h : Stops ⟨c :: cs, o⟩ stop)
    (hc : c ≠ '{') : Stops ⟨cs, o + 1⟩ stop := by
  obtain ⟨zs, ys, hsplit, hzs, hstop⟩ := h
  cases zs with
  | nil => exact absurd (List.cons.inj hsplit).1 hc
  | cons z zs =>
    obtain ⟨rfl, hcs⟩ := List.cons.inj hsplit
    refine ⟨zs, ys, hcs, fun h => hzs (List.mem_cons_of_mem _ h), ?_⟩
    have hstop : o + (zs.length + 1) + 1 = stop := hstop
    show o + 1 + zs.length + 1 = stop
    omega

/-- The bytes that are counted for a name. -/
def counts (c : Char) : Bool :=
  !isLineEnd c && !isGap c && c != '(' && c != '{'

/-- The name is counted up to the first byte that does not count, and the reading stops at what opens
next. -/
theorem nameFrom_ok {cs : List Char} {count n o stop : Nat} {ended : Bool} {opener : Char}
    {rest : Rest} (hstops : Rest.Stops ⟨cs, o⟩ stop)
    (h : nameFrom count ended o cs = .ok (n, opener, rest)) :
    (n = if ended then count else count + (cs.takeWhile counts).length) ∧
      (opener = '{' ∧ rest.offset = stop ∨ opener ≠ '{' ∧ rest.Stops stop) := by
  induction cs generalizing count ended o with
  | nil => cases h
  | cons c cs ih =>
    rw [nameFrom] at h
    split at h
    · cases h
    rename_i hline
    split at h
    · rename_i hgap
      have hcounts : counts c = false := by simp [counts, hgap]
      have hne : c ≠ '{' := by
        rintro rfl
        cases hgap
      obtain ⟨hn, hrest⟩ := ih (hstops.tail hne) h
      rw [List.takeWhile_cons_of_neg (by simp [hcounts])]
      exact ⟨by simpa using hn, hrest⟩
    rename_i hgap
    split at h
    · rename_i hopen
      obtain ⟨rfl, rfl, rfl⟩ : count = n ∧ c = opener ∧ (⟨cs, o + 1⟩ : Rest) = rest := by
        simpa using h
      have hcounts : counts c = false := by rcases hopen with rfl | rfl <;> rfl
      rw [List.takeWhile_cons_of_neg (by simp [hcounts])]
      refine ⟨by simp, ?_⟩
      by_cases hbrace : c = '{'
      · subst hbrace
        exact .inl ⟨rfl, hstops.brace_eq⟩
      · exact .inr ⟨hbrace, hstops.tail hbrace⟩
    · rename_i hopen
      obtain ⟨hparen, hbrace⟩ := not_or.mp hopen
      have hcounts : counts c = true := by simp [counts, hline, hgap, hparen, hbrace]
      obtain ⟨hn, hrest⟩ := ih (hstops.tail hbrace) h
      rw [List.takeWhile_cons_of_pos hcounts, List.length_cons]
      refine ⟨?_, hrest⟩
      rw [hn]
      cases ended
      · simp
        omega
      · rfl

theorem symmetryFrom_ok {cs read : List Char} {o stop : Nat} {symmetry : String} {rest : Rest}
    (hstops : Rest.Stops ⟨cs, o⟩ stop) (h : symmetryFrom read o cs = .ok (symmetry, rest)) :
    rest.Stops stop := by
  induction cs generalizing read o with
  | nil => cases h
  | cons c cs ih =>
    rw [symmetryFrom] at h
    split at h
    · cases h
    split at h
    · cases h
    rename_i hbrace
    split at h
    · exact ih (hstops.tail hbrace) h
    split at h
    · obtain ⟨-, rfl⟩ : _ ∧ (⟨cs, o + 1⟩ : Rest) = rest := by simpa using h
      exact hstops.tail hbrace
    · exact ih (hstops.tail hbrace) h

theorem braceFrom_ok {cs : List Char} {n o stop : Nat} (hstops : Rest.Stops ⟨cs, o⟩ stop)
    (h : braceFrom o cs = .ok n) : n = stop := by
  induction cs generalizing o with
  | nil => cases h
  | cons c cs ih =>
    rw [braceFrom] at h
    split at h
    · cases h
    split at h
    · rename_i hbrace
      subst hbrace
      rw [← Except.ok.inj h]
      exact hstops.brace_eq
    · rename_i hbrace
      exact ih (hstops.tail hbrace) h

/-- A header that goes wrong before its name has been counted, or behind it, does so for another
reason than the length of the name. -/
theorem nameFrom_error {cs : List Char} {count o : Nat} {ended : Bool} {e : HeaderError}
    (h : nameFrom count ended o cs = .error e) : e.complaint ≠ .nameTooLong := by
  induction cs generalizing count ended o with
  | nil => cases h; nofun
  | cons c cs ih =>
    rw [nameFrom] at h
    split at h
    · cases h; nofun
    split at h
    · exact ih h
    split at h
    · cases h
    · exact ih h

theorem symmetryFrom_error {cs read : List Char} {o : Nat} {e : HeaderError}
    (h : symmetryFrom read o cs = .error e) : e.complaint ≠ .nameTooLong := by
  induction cs generalizing read o with
  | nil => cases h; nofun
  | cons c cs ih =>
    rw [symmetryFrom] at h
    split at h
    · cases h; nofun
    split at h
    · cases h; nofun
    split at h
    · exact ih h
    split at h
    · cases h
    · exact ih h

theorem braceFrom_error {cs : List Char} {o : Nat} {e : HeaderError}
    (h : braceFrom o cs = .error e) : e.complaint ≠ .nameTooLong := by
  induction cs generalizing o with
  | nil => cases h; nofun
  | cons c cs ih =>
    rw [braceFrom] at h
    split at h
    · cases h; nofun
    split at h
    · cases h
    · exact ih h

/-- What comes of a header, given how many bytes are counted for its name. -/
theorem read_cases (text : String) (start : Nat) {cs : List Char} {stop : Nat}
    (hbytes : ((Text.bytes text).drop start).map Text.latin1 = cs)
    (hstops : Rest.Stops ⟨cs, start⟩ stop) :
    let count := (cs.takeWhile counts).length
    match read text start with
    | .ok h => count ≤ nameLimit ∧ h.bodyStart = stop ∧
        h.name = String.ofList ((Text.dropBytes start text.toList).take count)
    | .error e => e.complaint = .nameTooLong → nameLimit < count := by
  intro count
  rw [read, hbytes]
  cases hname : nameFrom 0 false start cs with
  | error e => exact fun h => absurd h (nameFrom_error hname)
  | ok r =>
    obtain ⟨n, opener, rest⟩ := r
    obtain ⟨hn, hrest⟩ := nameFrom_ok hstops hname
    obtain rfl : n = count := by simpa using hn
    simp only [bind, Except.bind]
    by_cases hlong : nameLimit < count
    · rw [if_pos hlong]
      exact fun _ => hlong
    rw [if_neg hlong]
    have hle : count ≤ nameLimit := Nat.le_of_not_lt hlong
    rcases hrest with ⟨hopener, hstop⟩ | ⟨hopener, hstop⟩
    · rw [if_pos hopener]
      exact ⟨hle, hstop, rfl⟩
    rw [if_neg hopener]
    cases hsymmetry : symmetryFrom [] rest.offset rest.chars with
    | error e => exact fun h => absurd h (symmetryFrom_error hsymmetry)
    | ok r =>
      obtain ⟨symmetry, behind⟩ := r
      have hbehind := symmetryFrom_ok hstop hsymmetry
      dsimp only
      cases hbrace : braceFrom behind.offset behind.chars with
      | error e => exact fun h => absurd h (braceFrom_error hbrace)
      | ok m =>
        have hm : m = stop := braceFrom_ok hbehind hbrace
        cases hfind : Symmetry.find? symmetry with
        | none => exact ⟨hle, hm, rfl⟩
        | some s => exact ⟨hle, hm, rfl⟩

/-- A byte that is no character of its own counts. -/
theorem counts_of_high (c : Char) (hc : 127 < c.toNat) : counts c = true := by
  have hsmall : (['\r', '\n', ' ', '\t', '(', '{'].all fun d => d.toNat ≤ 127) = true := by decide
  have hne : c ∉ ['\r', '\n', ' ', '\t', '(', '{'] := fun h =>
    Nat.not_le_of_lt hc (of_decide_eq_true (List.all_eq_true.mp hsmall c h))
  simpa [counts, isLineEnd, isGap, and_assoc] using hne

/-- The letters of a name count. -/
theorem counts_letter {c : Char} (hc : Entry.IsLetter c) : counts c = true := by
  obtain ⟨hblank, hmark⟩ := hc
  simp only [List.mem_cons, List.not_mem_nil, or_false, not_or] at hmark
  simp only [Text.isBlank, Bool.or_eq_false_iff, beq_eq_false_iff_ne] at hblank
  simp [counts, isLineEnd, isGap, hmark, hblank]

/-- Of what ends a name in a heading only the closing brackets count. -/
theorem counts_pause {c : Char} (hc : ¬ Entry.IsLetter c) (hline : c ∉ ['\n', ';', '{']) :
    counts c = true ↔ c = ')' ∨ c = '}' := by
  constructor
  · intro h
    simp only [counts, isLineEnd, isGap, Bool.and_eq_true, Bool.not_eq_true', Bool.or_eq_false_iff,
      beq_eq_false_iff_ne, bne_iff_ne, ne_eq] at h
    simp only [List.mem_cons, List.not_mem_nil, or_false, not_or] at hline
    simp only [Entry.IsLetter, Text.isBlank, h, hline, List.mem_cons, List.not_mem_nil, or_false,
      false_or, beq_eq_false_iff_ne.mpr, ne_eq, not_false_eq_true, Bool.or_false, true_and,
      not_not] at hc
    exact hc.symm
  · rintro (rfl | rfl) <;> rfl

end Header

namespace Entry

open Text

/-- The name of an entry is made of single bytes, and no closing bracket stands right behind it. -/
def Plain (text : String) (e : Entry) : Prop :=
  (∀ c ∈ e.name.toList, c.utf8Size = 1) ∧
    ∀ c ∈ (dropBytes e.start text.toList)[e.name.length]?, c ≠ ')' ∧ c ≠ '}'

/-- For a name at least its characters are counted, and no more exactly if it is plain. -/
theorem length_takeWhile_counts (w : Word) {mid : List Char} (hmid : Margin mid) (rest : List Char) :
    let count := width ((w.chars ++ mid ++ '{' :: rest).takeWhile Header.counts)
    w.chars.length ≤ count ∧ (count = w.chars.length ↔ (∀ c ∈ w.chars, c.utf8Size = 1) ∧
      ∀ c ∈ (mid ++ '{' :: rest).head?, c ≠ ')' ∧ c ≠ '}') := by
  intro count
  have hname : ∀ c ∈ w.chars, Header.counts c = true := fun c hc => Header.counts_letter (w.plain c hc)
  have hcount : count = width w.chars + width ((mid ++ '{' :: rest).takeWhile Header.counts) := by
    rw [← width_append, ← List.takeWhile_append_of_pos hname, ← List.append_assoc]
  have hle := length_le_width w.chars
  have hpause : ∀ c ∈ (mid ++ '{' :: rest).head?, Header.counts c = true ↔ c = ')' ∨ c = '}' := by
    intro c hc
    cases mid with
    | nil =>
      obtain rfl : '{' = c := Option.some.inj hc
      decide
    | cons d mid =>
      obtain rfl : d = c := Option.some.inj hc
      exact Header.counts_pause (hmid.head d rfl) (hmid.line d List.mem_cons_self)
  have hnone : width ((mid ++ '{' :: rest).takeWhile Header.counts) = 0 ↔
      ∀ c ∈ (mid ++ '{' :: rest).head?, c ≠ ')' ∧ c ≠ '}' := by
    rw [width_takeWhile_eq_zero]
    refine forall₂_congr fun c hc => ?_
    rw [← not_or, ← hpause c hc, Bool.not_eq_true]
  refine ⟨hcount ▸ Nat.le_add_right_of_le hle, ?_⟩
  rw [← hnone, ← width_eq_length_iff]
  omega

end Entry

/-- An entry and its header agree on the brace.  They agree on the name exactly if it is plain, and
then it is too long only if it has more than 18 characters. -/
theorem header_of_entry {text : String} {e : Entry} (he : e ∈ Entry.list text) :
    (∀ h, Header.read text e.start = .ok h →
      h.bodyStart = e.bodyStart ∧ (h.name = e.name ↔ e.Plain text)) ∧
    ∀ err, Header.read text e.start = .error err → err.complaint = .nameTooLong →
      e.Plain text → Header.nameLimit < e.name.length := by
  obtain ⟨front, w, mid, rest, htext, hmid, rfl⟩ := Entry.exists_heading he
  have hdrop : Text.dropBytes (Text.width front) text.toList = w.chars ++ mid ++ '{' :: rest := by
    rw [htext, Text.dropBytes_append]
  -- the header reads on to the brace at which the heading ends
  have hstops : Header.Rest.Stops ⟨Text.byBytes (w.chars ++ mid ++ '{' :: rest), Text.width front⟩
      (Text.width front + Text.width (w.chars ++ mid ++ ['{'])) := by
    refine ⟨Text.byBytes (w.chars ++ mid), Text.byBytes rest, ?_, fun h => ?_, ?_⟩
    · rw [Text.byBytes_append, Text.byBytes_cons]
      rfl
    · rcases List.mem_append.mp (Text.mem_byBytes (by decide) h) with h | h
      · exact (w.plain _ h).line (by decide)
      · exact hmid.line _ h (by decide)
    · rw [Text.length_byBytes, Text.width_append _ ['{'], ← Nat.add_assoc]
      rfl
  have hcases := Header.read_cases text (Text.width front) (Text.drop_bytes htext) hstops
  rw [Text.takeWhile_byBytes Header.counts_of_high, Text.length_byBytes, hdrop] at hcases
  obtain ⟨hle, heq⟩ := Entry.length_takeWhile_counts w hmid rest
  generalize hcount : Text.width ((w.chars ++ mid ++ '{' :: rest).takeWhile Header.counts) = count
    at hcases hle heq
  have hlength : w.text.length = w.chars.length := String.length_ofList
  have hplain (stop : Nat) : Entry.Plain text ⟨w.text, Text.width front, stop⟩ ↔
      count = w.chars.length := by
    have hnext : (w.chars ++ mid ++ '{' :: rest)[w.text.length]? = (mid ++ '{' :: rest).head? := by
      rw [hlength, List.append_assoc, List.getElem?_append_right (Nat.le_refl _), Nat.sub_self,
        List.head?_eq_getElem?]
    rw [heq, Entry.Plain, hdrop, hnext, Entry.Word.text, String.toList_ofList]
  refine ⟨fun h hread => ?_, fun err hread hlong hp => ?_⟩
  · rw [hread] at hcases
    obtain ⟨-, hstop, hname⟩ := hcases
    refine ⟨hstop, ?_⟩
    rw [hplain, hname, Entry.Word.text, String.ofList_inj]
    refine ⟨fun htake => ?_, fun hsame => ?_⟩
    · have hlen := congrArg List.length htake
      simp only [List.length_take, List.length_append, List.length_cons] at hlen
      omega
    · rw [hsame, List.append_assoc, List.take_left]
  · rw [hread] at hcases
    rw [hlength, ← (hplain _).mp hp]
    exact hcases hlong

/-- A name that touches its parenthesis, behind an entry that is not plain. -/
theorem header_of_entry_touching : ∃ text e h, e ∈ Entry.list text ∧
    Header.read text e.start = .ok h ∧ e.Plain text ∧ h.bodyStart = e.bodyStart ∧
    h.name = e.name ∧ h.symmetry = .xAxis := by
  let text := "é \x7bz=z\x7d\n; c \x7b\nab(xaxis) x\x7bz=z\x7d"
  have he : ⟨"ab", 15, 27⟩ ∈ Entry.list text := by decide +kernel
  have hread : Header.read text 15 = .ok ⟨"ab", .xAxis, none, 27⟩ := by decide +kernel
  have hnext : (Text.dropBytes 15 text.toList)[2]? = some '(' := by decide +kernel
  have hplain : Entry.Plain text ⟨"ab", 15, 27⟩ := by
    refine ⟨by simp [Char.utf8Size], fun c hc => ?_⟩
    obtain rfl := Option.some.inj (hnext.symm.trans hc)
    decide
  obtain ⟨hstop, hname⟩ := (header_of_entry he).1 _ hread
  exact ⟨text, _, _, he, hread, hplain, hstop, hname.mpr hplain, rfl⟩

/-- A name of two bytes takes the blank behind it along, ten characters of two bytes are too long, and
a closing parenthesis ends a name for the scan only. -/
theorem exists_name_overrun : ∃ text,
    Entry.list text = [⟨"é", 0, 4⟩, ⟨"ÄÖÜäöüÀÈàè", 9, 30⟩, ⟨"a", 35, 40⟩] ∧
    (Header.read text 0).map (·.name) = .ok "é " ∧
    Header.read text 9 = .error ⟨.nameTooLong, some "ÄÖÜäöüÀÈàè\x7bz=z\x7d\na)b "⟩ ∧
    (Header.read text 35).map (·.name) = .ok "a)b" :=
  ⟨"é \x7bz=z\x7d\nÄÖÜäöüÀÈàè\x7bz=z\x7d\na)b \x7bz=z\x7d", by decide +kernel⟩

end FractalFormula
