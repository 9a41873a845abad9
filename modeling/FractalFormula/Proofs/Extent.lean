/-
Where a body ends.

A library is scanned character by character for its entries, and a body is read letter by letter for
its tokens.  Both leave the body of an accepted entry at the same closing brace, the first outside
comments, and the next entry begins behind it (`extent_of_check`).
-/
import FractalFormula.Library.Entry
import FractalFormula.Proofs.Body
import FractalFormula.Proofs.Onward

namespace FractalFormula

/-! ## Characters and bytes -/

namespace Text

/-- A character is a single byte, or none of its bytes is one that stands for a character. -/
theorem utf8_cases (c : Char) : (∃ b, String.utf8EncodeChar c = [b] ∧ latin1 b = c) ∨
    127 < c.toNat ∧ ∀ b ∈ String.utf8EncodeChar c, 127 < (latin1 b).toNat := by
  have high {n : Nat} (hlow : 127 < n) (hhigh : n < 256) :
      127 < (latin1 (UInt8.ofNat n)).toNat := by
    have hn : (UInt8.ofNat n).toNat = n := by
      rw [UInt8.toNat_ofNat']
      exact Nat.mod_eq_of_lt hhigh
    have hvalid : n.isValidChar := .inl (by omega)
    rw [latin1, hn, Char.ofNat, dif_pos hvalid]
    exact hlow
  by_cases hsmall : c.val.toNat ≤ 127
  · refine .inl ⟨UInt8.ofNat c.val.toNat, ?_, ?_⟩
    · rw [String.utf8EncodeChar]
      exact if_pos hsmall
    · have hn : (UInt8.ofNat c.val.toNat).toNat = c.toNat := by
        rw [UInt8.toNat_ofNat']
        exact Nat.mod_eq_of_lt (by omega)
      rw [latin1, hn, Char.ofNat_toNat]
  · refine .inr ⟨Nat.lt_of_not_le hsmall, fun b hb => ?_⟩
    rw [String.utf8EncodeChar, if_neg hsmall] at hb
    repeat' split at hb
    all_goals
      simp only [List.mem_cons, List.not_mem_nil, or_false] at hb
      rcases hb with rfl | rfl | rfl | rfl <;> exact high (by omega) (by omega)

/-- Bytes that end neither a line nor a body and begin no comment. -/
theorem braceFrom_append {bs rest : List UInt8} {comment : Bool} {offset : Nat}
    (h : ∀ b ∈ bs, 127 < (latin1 b).toNat) :
    braceFrom comment offset (bs ++ rest) = braceFrom comment (offset + bs.length) rest := by
  induction bs generalizing comment offset with
  | nil => rfl
  | cons b bs ih =>
    obtain ⟨hb, hbs⟩ := List.forall_mem_cons.mp h
    have hne {c : Char} (hc : c.toNat ≤ 127) : latin1 b ≠ c := by
      rintro rfl
      exact Nat.not_le_of_lt hb hc
    have hlength : offset + (b :: bs).length = offset + 1 + bs.length := by
      rw [List.length_cons]
      omega
    rw [List.cons_append, braceFrom, if_neg (hne (by decide)), if_neg (hne (c := ';') (by decide)),
      if_neg (hne (by decide)), ih hbs, ih hbs, hlength]
    cases comment <;> rfl

end Text

/-! ## The scan of a library -/

namespace Entry

/-- How far a library has been scanned. -/
structure Scan where
  comment : Bool
  reading : Reading
  offset : Nat
  deriving DecidableEq, Repr

namespace Scan

def start : Scan :=
  ⟨false, .blank, 0⟩

def step (s : Scan) (c : Char) : Scan :=
  let next := s.offset + c.utf8Size
  if c = '\n' then ⟨false, if s.reading = .body then .body else .blank, next⟩
  else if s.comment then ⟨true, s.reading, next⟩
  else if c = ';' then ⟨true, s.reading.pause, next⟩
  else if s.reading = .body then ⟨false, if c = '}' then .blank else .body, next⟩
  else if c = '{' then ⟨false, .body, next⟩
  else if Text.isBlank c || c = '(' || c = ')' || c = '}' then ⟨false, s.reading.pause, next⟩
  else ⟨false, s.reading.extend s.offset c, next⟩

def after (s : Scan) (chars : List Char) : Scan :=
  chars.foldl step s

/-- The entry that the next character opens. -/
def opened? (s : Scan) (c : Char) : Option Entry :=
  if s.comment = false ∧ s.reading ≠ .body ∧ c = '{' then s.reading.entry? (s.offset + c.utf8Size)
  else none

/-- The entries in the text that is left. -/
def entries (s : Scan) (chars : List Char) : List Entry :=
  listFrom s.comment s.reading s.offset chars

theorem entries_cons (s : Scan) (c : Char) (chars : List Char) :
    s.entries (c :: chars) = (s.opened? c).toList ++ (s.step c).entries chars := by
  obtain ⟨comment, reading, offset⟩ := s
  unfold entries opened? step
  rw [listFrom]
  dsimp only
  repeat' split
  all_goals simp_all

theorem offset_after (s : Scan) (chars : List Char) :
    (s.after chars).offset = s.offset + (chars.flatMap String.utf8EncodeChar).length := by
  induction chars generalizing s with
  | nil => rfl
  | cons c chars ih =>
    have hstep : (s.step c).offset = s.offset + c.utf8Size := by
      unfold step
      dsimp only
      repeat' split
      all_goals rfl
    rw [after, List.foldl_cons, ← after, ih, hstep, List.flatMap_cons, List.length_append,
      String.length_utf8EncodeChar, Nat.add_assoc]

/-- Where an entry is found its body begins. -/
theorem exists_of_entries {chars : List Char} : ∀ {s : Scan} {before after : List Entry} {e : Entry},
    s.entries chars = before ++ e :: after → ∃ front rest, chars = front ++ rest ∧
      s.after front = ⟨false, .body, e.bodyStart⟩ ∧ (s.after front).entries rest = after := by
  induction chars with
  | nil =>
    intro s before after e h
    cases before <;> cases h
  | cons c chars ih =>
    intro s before after e h
    rw [entries_cons] at h
    have later {before' : List Entry} (h : (s.step c).entries chars = before' ++ e :: after) :
        ∃ front rest, c :: chars = front ++ rest ∧ s.after front = ⟨false, .body, e.bodyStart⟩ ∧
          (s.after front).entries rest = after := by
      obtain ⟨front, rest, rfl, hbody, hrest⟩ := ih h
      exact ⟨c :: front, rest, rfl, hbody, hrest⟩
    cases hopened : s.opened? c with
    | none =>
      rw [hopened] at h
      exact later h
    | some e' =>
      rw [hopened] at h
      cases before with
      | cons e'' before => exact later (List.cons.inj h).2
      | nil =>
        obtain ⟨rfl, hafter⟩ := List.cons.inj h
        unfold opened? at hopened
        split at hopened
        · rename_i hopen
          obtain ⟨hcomment, hreading, rfl⟩ := hopen
          have hstep : s.step '{' = ⟨false, .body, s.offset + '{'.utf8Size⟩ := by
            simp [step, hcomment, hreading]
          have hstart : e'.bodyStart = s.offset + '{'.utf8Size := by
            unfold Reading.entry? at hopened
            split at hopened
            · rw [← Option.some.inj hopened]
            · cases hopened
          exact ⟨['{'], chars, rfl, hstart ▸ hstep, hafter⟩
        · cases hopened

/-- In a body a character counts that stands outside comments and is a brace. -/
theorem step_of_body {s : Scan} (h : s.reading = .body) (c : Char) (bs : List UInt8) :
    if s.comment = false ∧ c = '}' then
      s.step c = ⟨false, .blank, s.offset + 1⟩ ∧
        Text.braceFrom s.comment s.offset (String.utf8EncodeChar c ++ bs) = some s.offset
    else
      (s.step c).reading = .body ∧
        Text.braceFrom s.comment s.offset (String.utf8EncodeChar c ++ bs) =
          Text.braceFrom (s.step c).comment (s.step c).offset bs := by
  obtain ⟨comment, reading, offset⟩ := s
  obtain rfl : reading = .body := h
  have hsize := String.length_utf8EncodeChar c
  unfold step
  dsimp only
  rcases Text.utf8_cases c with ⟨b, hb, rfl⟩ | ⟨hhigh, hbytes⟩
  · rw [hb] at hsize ⊢
    rw [← hsize, List.singleton_append, Text.braceFrom]
    split
    · rename_i hbrace
      obtain ⟨rfl, hbrace⟩ := hbrace
      rw [hbrace]
      exact ⟨rfl, rfl⟩
    · rename_i hbrace
      repeat' split
      all_goals simp_all [Reading.pause]
  · have hne {k : Char} (hk : k.toNat ≤ 127) : c ≠ k := by
      rintro rfl
      exact Nat.not_le_of_lt hhigh hk
    rw [if_neg fun h => hne (by decide) h.2, if_neg (hne (by decide)),
      if_neg (hne (k := ';') (by decide)), if_pos rfl, if_neg (hne (by decide)),
      Text.braceFrom_append hbytes, hsize]
    cases comment <;> exact ⟨rfl, rfl⟩

/-- A body is left at its first brace outside comments. -/
theorem exists_of_braceFrom {chars : List Char} : ∀ {s : Scan} {n : Nat}, s.reading = .body →
    Text.braceFrom s.comment s.offset (chars.flatMap String.utf8EncodeChar) = some n →
      ∃ inner rest, chars = inner ++ '}' :: rest ∧ (∀ k, k <+: inner → (s.after k).reading = .body) ∧
        (s.after inner).offset = n ∧ s.after (inner ++ ['}']) = ⟨false, .blank, n + 1⟩ := by
  induction chars with
  | nil => exact fun _ h => by cases h
  | cons c chars ih =>
    intro s n hbody h
    have hstep := step_of_body hbody c (chars.flatMap String.utf8EncodeChar)
    rw [List.flatMap_cons] at h
    by_cases hbrace : s.comment = false ∧ c = '}'
    · rw [if_pos hbrace, h] at hstep
      obtain ⟨hstep, hn⟩ := hstep
      obtain rfl := Option.some.inj hn
      obtain ⟨-, rfl⟩ := hbrace
      refine ⟨[], chars, rfl, fun k hk => ?_, rfl, hstep⟩
      rw [List.prefix_nil.mp hk]
      exact hbody
    · rw [if_neg hbrace, h] at hstep
      obtain ⟨inner, rest, rfl, hinner, hoffset, hend⟩ := ih hstep.1 hstep.2.symm
      refine ⟨c :: inner, rest, rfl, fun k hk => ?_, hoffset, hend⟩
      cases k with
      | nil => exact hbody
      | cons c' k =>
        obtain ⟨rfl, hprefix⟩ := List.cons_prefix_cons.mp hk
        exact hinner k hprefix

/-- In a body no entry is found. -/
theorem entries_of_body {inner rest : List Char} : ∀ {s : Scan},
    (∀ k, k <+: inner → (s.after k).reading = .body) →
      s.entries (inner ++ rest) = (s.after inner).entries rest := by
  induction inner with
  | nil => exact fun _ => rfl
  | cons c inner ih =>
    intro s h
    have hbody : s.reading = .body := h [] List.nil_prefix
    have hopened : s.opened? c = none := if_neg fun hopen => hopen.2.1 hbody
    rw [List.cons_append, entries_cons, hopened]
    exact ih fun k hk => h (c :: k) (List.cons_prefix_cons.mpr ⟨rfl, hk⟩)

/-- The name that is being read, if one is, begins at `n` or later. -/
def Since (n : Nat) : Reading → Prop
  | .word start _ | .named start _ => n ≤ start
  | .blank | .body => True

theorem since_step {n : Nat} {s : Scan} (h : Since n s.reading) (hn : n ≤ s.offset) (c : Char) :
    Since n (s.step c).reading ∧ n ≤ (s.step c).offset := by
  have hnext : n ≤ s.offset + c.utf8Size := Nat.le_add_right_of_le hn
  have hpause : Since n s.reading.pause := by
    cases hr : s.reading <;> rw [hr] at h <;> exact h
  have hextend : Since n (s.reading.extend s.offset c) := by
    cases hr : s.reading <;> rw [hr] at h
    · exact hn
    · exact h
    · exact h
    · exact h
  unfold step
  dsimp only
  repeat' split
  all_goals first
    | exact ⟨trivial, hnext⟩
    | exact ⟨h, hnext⟩
    | exact ⟨hpause, hnext⟩
    | exact ⟨hextend, hnext⟩

/-- Entries begin behind the place where the scan is, or with the name that is being read. -/
theorem le_start_of_entries {chars : List Char} {n : Nat} : ∀ {s : Scan}, Since n s.reading →
    n ≤ s.offset → ∀ e ∈ s.entries chars, n ≤ e.start := by
  induction chars with
  | nil => exact fun _ _ e he => absurd he List.not_mem_nil
  | cons c chars ih =>
    intro s h hn e he
    rw [entries_cons] at he
    obtain ⟨hsince, hoffset⟩ := since_step h hn c
    rcases List.mem_append.mp he with he | he
    · have hopened : s.opened? c = some e := Option.mem_toList.mp he
      unfold opened? at hopened
      split at hopened
      · unfold Reading.entry? at hopened
        split at hopened
        · rename_i start name hpause
          obtain rfl := Option.some.inj hopened
          cases hr : s.reading <;> rw [hr] at h hpause <;> cases hpause <;> exact h
        · cases hopened
      · cases hopened
    · exact ih hsince hoffset e he

end Scan

/-- The scan of the library leaves the body of `e` with the brace at `n`: from the start of the body
up to there it reads a body, and behind the brace none. -/
def Leaves (text : String) (e : Entry) (n : Nat) : Prop :=
  ∃ front inner rest, text.toList = front ++ inner ++ '}' :: rest ∧
    (Scan.start.after front).offset = e.bodyStart ∧
    (∀ k, k <+: inner → (Scan.start.after (front ++ k)).reading = .body) ∧
    (Scan.start.after (front ++ inner)).offset = n ∧
    Scan.start.after (front ++ inner ++ ['}']) = ⟨false, .blank, n + 1⟩

/-- The body of an entry is left at its closing brace, and the entries after it begin behind that
brace. -/
theorem leaves_of_closingBrace {text : String} {before after : List Entry} {e : Entry} {n : Nat}
    (hlist : list text = before ++ e :: after)
    (hbrace : Text.closingBrace? text e.bodyStart = some n) :
    Leaves text e n ∧ ∀ next ∈ after, n + 1 ≤ next.start := by
  have hentries : Scan.start.entries text.toList = before ++ e :: after := hlist
  obtain ⟨front, chars, htext, hbody, hafter⟩ := Scan.exists_of_entries hentries
  have hoffset : (Scan.start.after front).offset = e.bodyStart := by rw [hbody]
  have hdrop : (Text.bytes text).drop e.bodyStart = chars.flatMap String.utf8EncodeChar := by
    rw [Scan.offset_after] at hoffset
    rw [← hoffset, Text.bytes, htext, List.flatMap_append]
    exact List.drop_left' (Nat.zero_add _).symm
  rw [Text.closingBrace?, hdrop] at hbrace
  obtain ⟨inner, rest, rfl, hinner, hn, hend⟩ :=
    Scan.exists_of_braceFrom (s := ⟨false, .body, e.bodyStart⟩) rfl hbrace
  have happend (k : List Char) :
      Scan.start.after (front ++ k) = Scan.after ⟨false, .body, e.bodyStart⟩ k := by
    rw [← hbody]
    exact List.foldl_append
  have hrest : Scan.entries ⟨false, .blank, n + 1⟩ rest = after := by
    have hopened (s : Scan) : s.opened? '}' = none :=
      if_neg fun hopen => absurd hopen.2.2 (by decide)
    rw [← hafter, hbody, Scan.entries_of_body hinner, Scan.entries_cons, hopened, ← hend, Scan.after,
      List.foldl_append]
    rfl
  refine ⟨⟨front, inner, rest, by rw [htext, List.append_assoc], hoffset, fun k hk => ?_, ?_, ?_⟩,
    fun next hnext => ?_⟩
  · rw [happend]
    exact hinner k hk
  · rw [happend]
    exact hn
  · rw [List.append_assoc, happend]
    exact hend
  · rw [← hrest] at hnext
    exact Scan.le_start_of_entries (s := ⟨false, .blank, n + 1⟩) trivial (Nat.le_refl _) next hnext

end Entry

/-! ## The tokens of a body -/

/-- A brace among the letters is outside comments. -/
theorem Letter.exists_braceFrom {bs : List UInt8} {joined comment : Bool} {offset : Nat} {l : Letter}
    (h : l ∈ listFrom joined comment offset bs) (hl : l.char = '}') :
    ∃ n, Text.braceFrom comment offset bs = some n := by
  induction bs generalizing joined comment offset with
  | nil => exact absurd h List.not_mem_nil
  | cons b bs ih =>
    unfold Text.braceFrom
    unfold listFrom at h
    dsimp only at h ⊢
    by_cases hline : Text.latin1 b = '\n'
    · rw [if_pos hline] at h ⊢
      split at h
      · exact ih h
      · rcases List.mem_cons.mp h with rfl | h
        · exact absurd (hline.symm.trans hl) (by decide)
        · exact ih h
    rw [if_neg hline] at h ⊢
    by_cases hcomment : comment = true
    · rw [if_pos hcomment] at h ⊢
      exact ih h
    rw [if_neg hcomment] at h ⊢
    by_cases hsemicolon : Text.latin1 b = ';'
    · rw [if_pos hsemicolon]
      rw [hsemicolon] at h
      exact ih h
    rw [if_neg hsemicolon] at h ⊢
    by_cases hbrace : Text.latin1 b = '}'
    · exact ⟨offset, if_pos hbrace⟩
    rw [if_neg hbrace]
    split at h
    · exact ih h
    · split at h
      · exact ih h
      · rcases List.mem_cons.mp h with rfl | h
        · exact absurd (Text.toLower_eq_brace hl) hbrace
        · exact ih h

namespace Token

variable {c c' : Cursor} {n : Nat} {ts : List Token}

/-- The token that closes a body has its brace. -/
theorem exists_brace_of_close (h : (read c).1.kind = .close) : ∃ l ∈ c.ahead, l.char = '}' := by
  cases hc : c.ahead with
  | nil =>
    rw [read, hc] at h
    cases h
  | cons l rest =>
    rw [read_of_ahead hc] at h
    split at h
    · exact absurd h (ne_close_readNumber _ _ _)
    · split at h
      · exact absurd h (ne_close_readName _ _ _)
      · rcases close_readMark h with hbrace | ⟨-, next, rest', hrest, hnext⟩
        · exact ⟨l, List.mem_cons_self, hbrace⟩
        · have hmem : next ∈ rest :=
            (List.dropWhile_suffix _).subset (hrest ▸ List.mem_cons_self)
          exact ⟨next, List.mem_cons_of_mem _ hmem, hnext⟩

theorem Reads.suffix (h : Reads c ts c') : c'.ahead <:+ c.ahead := by
  induction h with
  | nil => exact List.suffix_refl _
  | cons _ _ ih => exact ih.trans (suffix_read _)

/-- Tokens that are no faults leave the brace where it is. -/
theorem Reads.closed (h : Reads c ts c') (hfault : ∀ t ∈ ts, t.isFault = false)
    (hclosed : Letter.Closed n c.pos c.ahead) : Letter.Closed n c'.pos c'.ahead := by
  induction h with
  | nil => exact hclosed
  | cons hlast _ ih =>
    obtain ⟨hhead, htail⟩ := List.forall_mem_cons.mp hfault
    obtain ⟨-, -, hnext⟩ := read_closed hclosed
    rcases hnext with ⟨-, -, hclosed⟩ | hkind | ⟨hkind, -⟩
    · exact ih htail hclosed
    · rw [isLast, hkind] at hlast
      cases hlast
    · rw [isFault, hkind] at hhead
      cases hhead

/-- The token that closes a body ends with the first brace ahead. -/
theorem stop_of_close (hclosed : Letter.Closed n c.pos c.ahead) (h : (read c).1.kind = .close) :
    (read c).1.span.stop = n + 1 := by
  rcases read_to_brace hclosed.exists_brace with ⟨-, hlast⟩ | ⟨hshuts, -⟩
  · rw [isLast, h] at hlast
    cases hlast
  · have hpos := hshuts.pos hclosed
    cases hc : c.ahead with
    | nil =>
      rw [hc] at hclosed
      exact hclosed.elim
    | cons l rest =>
      rw [hc] at hclosed
      have hle := hclosed.offset_le
      rw [span_read hc, hpos]
      exact Nat.max_eq_left (Nat.le_succ_of_le hle)

end Token

/-! ## Accepted bodies -/

/-- The tokens of an accepted body are read up to the one that closes it. -/
theorem reads_of_check {text : String} {offset : Nat} {tally : Tally}
    (h : check text offset = .ok tally) :
    ∃ pre c, Token.Reads (Cursor.seek text offset) pre c ∧ (Token.read c).1.kind = .close ∧
      (∀ u ∈ pre, (u.kind == .close || u.isFault) = false) ∧
      Token.stream (Cursor.seek text offset) = pre ++ [(Token.read c).1] ∧
      Token.body text offset = pre ++ [(Token.read c).1] := by
  obtain ⟨pre, t, rest, hstream, ht, hpre, -⟩ := exists_of_check h
  have hlast : t.isLast = true := by rw [Token.isLast, ht]
  have hinner : ∀ u ∈ pre, u.isLast = false := by
    intro u hu
    obtain ⟨hclose, hfault⟩ := Bool.or_eq_false_iff.mp (hpre u hu)
    unfold Token.isLast
    split
    · rename_i hkind
      rw [hkind] at hclose
      cases hclose
    · rename_i hkind
      rw [Token.isFault, hkind] at hfault
      cases hfault
    · rfl
  obtain ⟨rfl, c, hreads, rfl⟩ := Token.reads_of_stream hlast hstream hinner
  refine ⟨pre, c, hreads, ht, hpre, hstream, ?_⟩
  rw [Token.body, hstream, Compile.untilFault_append fun u hu =>
    (Bool.or_eq_false_iff.mp (hpre u hu)).2, Token.untilFault, Token.isFault, ht]
  rfl

/-- The body of an accepted entry ends with its first closing brace outside comments.  With that brace
the last of its tokens ends, the scan of the library leaves the body, and behind it the next entries
begin. -/
theorem extent_of_check {text : String} {before after : List Entry} {e : Entry} {tally : Tally}
    (hlist : Entry.list text = before ++ e :: after) (h : check text e.bodyStart = .ok tally) :
    ∃ n, Text.closingBrace? text e.bodyStart = some n ∧
      (∃ t, (Token.body text e.bodyStart).getLast? = some t ∧ t.kind = .close ∧
        t.span.stop = n + 1) ∧
      Entry.Leaves text e n ∧ ∀ next ∈ after, n + 1 ≤ next.start := by
  obtain ⟨pre, c, hreads, hclose, hpre, -, hbody⟩ := reads_of_check h
  obtain ⟨l, hl, hbrace⟩ := Token.exists_brace_of_close hclose
  have hmem := hreads.suffix.subset hl
  have hin : e.bodyStart ≤ (Text.bytes text).length := by
    refine Nat.le_of_not_le fun hout => ?_
    rw [Cursor.ahead_seek_of_le hout] at hmem
    cases hmem
  rw [Cursor.seek_of_le hin] at hreads hmem
  obtain ⟨n, hn⟩ := Letter.exists_braceFrom hmem hbrace
  have hclosed := hreads.closed (fun u hu => (Bool.or_eq_false_iff.mp (hpre u hu)).2)
    (Letter.closed_listFrom hn)
  exact ⟨n, hn, ⟨(Token.read c).1, by rw [hbody, List.getLast?_concat], hclose,
    Token.stop_of_close hclosed hclose⟩, Entry.leaves_of_closingBrace hlist hn⟩

/-- A brace in a comment closes nothing. -/
theorem extent_of_commented : ∃ text e next tally, Entry.list text = [] ++ e :: [next] ∧
    check text e.bodyStart = .ok tally ∧ ∃ n, Text.closingBrace? text e.bodyStart = some n ∧
      (∃ t, (Token.body text e.bodyStart).getLast? = some t ∧ t.kind = .close ∧
        t.span.stop = n + 1) ∧
      Entry.Leaves text e n ∧ ∀ f ∈ [next], n + 1 ≤ f.start := by
  let text := "é(xaxis) \x7b ; not \x7d here\n z=1:,\\\n :\n\x7d b \x7bz=2\x7d"
  have hlist : Entry.list text = [] ++ ⟨"é", 0, 11⟩ :: [⟨"b", 38, 41⟩] := by decide +kernel
  have hstream : Token.stream (Cursor.seek text 11) = Token.firstTokens 60 (Cursor.seek text 11) :=
    Token.stream_eq_firstTokens (by decide +kernel)
  have h : check text 11 = .ok ⟨7, 1, 1, 0, 5, false⟩ := by
    rw [check, hstream]
    decide +kernel
  exact ⟨text, _, _, _, hlist, h, extent_of_check hlist h⟩

end FractalFormula
