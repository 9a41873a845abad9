/-
Reading a text makes progress.

Every token uses up a letter while there is one ahead, also a faulty one, so the loops that collect
the tokens of a body and that check it come to an end after no more tokens than there are letters, and
one more for the end of the text (`Token.bodyFor_eq`, `Check.runFor_eq`).  The spans of the tokens lie
one behind the other in the text, and none is empty but that of the end of the text where nothing is
left before it (`tokens_advance`).  A body that begins behind its text has a token all the same, at the
end of the text (`exists_start_beyond`).
-/
import FractalFormula.Proofs.Findings

namespace FractalFormula

/-! ## One token -/

namespace Cursor

/-- The place behind the next token. -/
def next (c : Cursor) : Cursor :=
  (Token.read c).2

/-- The place behind the next `k` tokens, whatever they are. -/
def afterTokens (c : Cursor) : Nat → Cursor
  | 0 => c
  | k + 1 => c.next.afterTokens k

/-- What a token takes up.  Where no letter is ahead there is the end of the text, over and over. -/
structure Advances (c : Cursor) : Prop where
  goesOn : c.ahead ≠ [] →
    c.pos ≤ (Token.read c).1.span.start ∧
      (Token.read c).1.span.start < (Token.read c).1.span.stop ∧
        (Token.read c).1.span.stop = c.next.pos ∧ c.next.pos ≤ c.stop ∧
          c.next.ahead.length < c.ahead.length
  ends : c.ahead = [] → (Token.read c).1.kind = .fault .endOfText ∧
    (Token.read c).1.span = ⟨c.stop, c.stop⟩ ∧ c.next = c.finished

variable {c : Cursor}

theorem next_of_end (h : c.ahead = []) : c.next = c.finished := by
  rw [next, Token.read, h]
  rfl

theorem ordered_next (hc : c.Ordered) : c.next.Ordered ∧ c.next.stop = c.stop := by
  cases hahead : c.ahead with
  | nil =>
    rw [next_of_end hahead]
    exact ⟨Nat.le_refl _, rfl⟩
  | cons l rest =>
    have hord : Letter.Ordered c.stop c.pos (l :: rest) := hahead ▸ hc
    exact ((Token.onward_read hahead).ordered (c := c.past l rest) hord.2).2

theorem advances (hc : c.Ordered) : c.Advances := by
  constructor
  case goesOn =>
    intro hne
    obtain ⟨l, rest, hahead⟩ := List.exists_cons_of_ne_nil hne
    have hord : Letter.Ordered c.stop c.pos (l :: rest) := hahead ▸ hc
    obtain ⟨hle, hnext, hstop⟩ := (Token.onward_read hahead).ordered (c := c.past l rest) hord.2
    have hlt : l.offset < c.next.pos := hle
    have hend : c.next.pos ≤ c.stop := hstop ▸ hnext.pos_le
    rw [Token.span_read hahead]
    exact ⟨hord.1, Nat.lt_of_lt_of_le hlt (Nat.le_max_left _ _),
      Nat.max_eq_left (Nat.le_of_lt hlt), hend, Token.read_ahead_lt hne⟩
  case ends =>
    intro hahead
    refine ⟨Token.read_of_ahead_eq_nil hahead, ?_, next_of_end hahead⟩
    rw [Token.read, hahead]
    exact congrArg (Span.mk c.stop) (Nat.max_self _)

theorem ordered_afterTokens (hc : c.Ordered) (k : Nat) : (c.afterTokens k).Ordered := by
  induction k generalizing c with
  | zero => exact hc
  | succ k ih => exact ih (ordered_next hc).1

/-- There are no more letters than bytes. -/
theorem length_ahead_seek_le (text : String) (offset : Nat) :
    (seek text offset).ahead.length ≤ (Text.bytes text).length - offset := by
  have hlist (bs : List UInt8) (joined comment : Bool) (offset : Nat) :
      (Letter.listFrom joined comment offset bs).length ≤ bs.length := by
    induction bs generalizing joined comment offset with
    | nil => exact Nat.le_refl _
    | cons b bs ih =>
      have skip (joined comment : Bool) := Nat.le_succ_of_le (ih joined comment (offset + 1))
      unfold Letter.listFrom
      dsimp only
      repeat' split
      · exact skip _ _
      · exact Nat.succ_le_succ (ih _ _ _)
      · exact skip _ _
      · exact skip _ _
      · exact skip _ _
      · exact skip _ _
      · exact Nat.succ_le_succ (ih _ _ _)
  refine Nat.le_trans (hlist _ _ _ _) ?_
  rw [List.length_drop]
  omega

end Cursor

/-! ## The loops -/

namespace Token

/-- The tokens of a body come to an end with the closing brace or with a fault. -/
def endsBody (t : Token) : Bool :=
  t.isFault || t.kind == .close

/-- Reads up to `n` tokens, and has no result if none of them ends the body. -/
def bodyFor : Nat → Cursor → Option (List Token)
  | 0, _ => none
  | n + 1, c =>
    let t := (read c).1
    if t.endsBody then some [t] else (bodyFor n c.next).map (t :: ·)

variable {c : Cursor}

theorem isLast_iff {t : Token} : t.isLast = true ↔ t.kind = .close ∨ t.kind = .fault .endOfText := by
  unfold isLast
  split <;> simp_all

/-- A stream begins with the next token and goes on behind it. -/
theorem exists_stream (c : Cursor) : ∃ rest, stream c = (read c).1 :: rest ∧
    ((read c).1.isLast = false → rest = stream c.next) := by
  rw [stream]
  split
  · rename_i hlast
    exact ⟨[], rfl, fun hnot => absurd (hnot.symm.trans hlast) Bool.false_ne_true⟩
  · exact ⟨_, rfl, fun _ => rfl⟩

theorem endsBody_eq (t : Token) : t.endsBody = (t.isLast || t.isFault) := by
  unfold endsBody isLast isFault
  cases t.kind with
  | fault f => cases f <;> rfl
  | _ => rfl

theorem untilFault_singleton (t : Token) : untilFault [t] = [t] := by
  cases hfault : t.isFault <;> simp [untilFault, hfault]

theorem bodyFor_eq (n : Nat) : ∀ {c : Cursor}, c.ahead.length < n →
    bodyFor n c = some (untilFault (stream c)) := by
  induction n with
  | zero => exact fun h => absurd h (Nat.not_lt_zero _)
  | succ n ih =>
    intro c h
    rw [bodyFor, stream, endsBody_eq]
    cases hlast : (read c).1.isLast with
    | true =>
      rw [dif_pos rfl]
      exact congrArg some (untilFault_singleton _).symm
    | false =>
      have hlt : c.next.ahead.length < c.ahead.length :=
        read_ahead_lt (ahead_ne_nil_of_not_isLast hlast)
      rw [dif_neg Bool.false_ne_true, untilFault, Bool.false_or]
      split
      · rfl
      · rw [ih (by omega)]
        rfl

/-! ## Spans in order -/

/-- The spans lie one behind the other between `n` and `stop`. -/
def Ascending (stop : Nat) : Nat → List Token → Prop
  | n, [] => n ≤ stop
  | n, t :: rest => n ≤ t.span.start ∧ t.span.start ≤ t.span.stop ∧ Ascending stop t.span.stop rest

theorem Ascending.mono {stop n n' : Nat} {ts : List Token} (h : Ascending stop n' ts)
    (hle : n ≤ n') : Ascending stop n ts := by
  cases ts with
  | nil => exact Nat.le_trans hle h
  | cons t ts => exact ⟨Nat.le_trans hle h.1, h.2⟩

/-- What is known of the tokens of a body: the last and no other ends it, and each was read somewhere
behind the ones before it. -/
structure Collected (c : Cursor) (ts : List Token) : Prop where
  ended : ∃ pre t, ts = pre ++ [t] ∧ t.endsBody = true ∧ ∀ u ∈ pre, u.endsBody = false
  ascending : Ascending c.stop c.pos ts
  read : ∀ t ∈ ts, ∃ k, t = (Token.read (c.afterTokens k)).1

theorem collected_last (hc : c.Ordered) (h : (Token.read c).1.endsBody = true) :
    Collected c [(Token.read c).1] := by
  refine ⟨⟨[], _, rfl, h, fun u hu => absurd hu List.not_mem_nil⟩, ?_, fun t ht => ⟨0, ?_⟩⟩
  · have hadvances := c.advances hc
    by_cases hahead : c.ahead = []
    · obtain ⟨-, hspan, -⟩ := hadvances.ends hahead
      rw [Ascending, hspan]
      exact ⟨hc.pos_le, Nat.le_refl _, Nat.le_refl _⟩
    · obtain ⟨hstart, hlt, hstop, hle, -⟩ := hadvances.goesOn hahead
      exact ⟨hstart, Nat.le_of_lt hlt, hstop ▸ hle⟩
  · exact List.mem_singleton.mp ht

theorem collected_cons (hc : c.Ordered) (h : (Token.read c).1.endsBody = false) {ts : List Token}
    (hts : Collected c.next ts) : Collected c ((Token.read c).1 :: ts) := by
  obtain ⟨⟨pre, t, rfl, ht, hpre⟩, hascending, hread⟩ := hts
  have hahead : c.ahead ≠ [] := by
    rw [endsBody_eq, Bool.or_eq_false_iff] at h
    exact ahead_ne_nil_of_not_isLast h.1
  obtain ⟨hstart, hlt, hstop, -, -⟩ := (c.advances hc).goesOn hahead
  constructor
  case ended => exact ⟨_ :: pre, t, rfl, ht, List.forall_mem_cons.mpr ⟨h, hpre⟩⟩
  case ascending =>
    refine ⟨hstart, Nat.le_of_lt hlt, ?_⟩
    rw [hstop, ← (Cursor.ordered_next hc).2]
    exact hascending
  case read =>
    refine List.forall_mem_cons.mpr ⟨⟨0, rfl⟩, fun u hu => ?_⟩
    obtain ⟨k, hk⟩ := hread u hu
    exact ⟨k + 1, hk⟩

theorem collected_bodyFor (n : Nat) : ∀ {c : Cursor} {ts : List Token}, c.Ordered →
    bodyFor n c = some ts → Collected c ts := by
  induction n with
  | zero => exact fun _ h => nomatch h
  | succ n ih =>
    intro c ts hc h
    rw [bodyFor] at h
    split at h
    · rename_i hends
      obtain rfl := Option.some.inj h
      exact collected_last hc hends
    · rename_i hgoes
      obtain ⟨rest, hrest, rfl⟩ := Option.map_eq_some_iff.mp h
      exact collected_cons hc (Bool.eq_false_iff.mpr hgoes) (ih (Cursor.ordered_next hc).1 hrest)

end Token

/-! ## The check -/

namespace Check

/-- Checks up to `n` tokens, and has no result if there is no verdict by then. -/
def runFor : Nat → State → Cursor → Option (Except (List Finding) Tally)
  | 0, _, _ => none
  | n + 1, s, c =>
    let t := (Token.read c).1
    if t.kind = .fault .endOfText then some (.error [⟨.unexpectedEnd, s.statement, t.span⟩])
    else
      let s := s.read t
      if t.kind = .close ∨ complaintLimit ≤ s.findings.length then some s.verdict
      else runFor n s c.next

/-- A check reads its tokens one by one and does not look behind the last. -/
theorem runFor_eq (n : Nat) : ∀ {s : State} {c : Cursor}, c.ahead.length < n →
    runFor n s c = some (run s (Token.stream c)) := by
  induction n with
  | zero => exact fun h => absurd h (Nat.not_lt_zero _)
  | succ n ih =>
    intro s c h
    obtain ⟨rest, hstream, hrest⟩ := Token.exists_stream c
    rw [runFor, hstream, run]
    by_cases hend : (Token.read c).1.kind = .fault .endOfText
    · rw [if_pos hend, if_pos hend]
    rw [if_neg hend, if_neg hend]
    by_cases hdone : (Token.read c).1.kind = .close ∨
        complaintLimit ≤ (s.read (Token.read c).1).findings.length
    · rw [if_pos hdone, if_pos hdone]
    · have hlast : (Token.read c).1.isLast = false :=
        Bool.eq_false_iff.mpr fun hlast =>
          (Token.isLast_iff.mp hlast).elim (fun hclose => hdone (.inl hclose)) hend
      have hlt : c.next.ahead.length < c.ahead.length :=
        Token.read_ahead_lt (Token.ahead_ne_nil_of_not_isLast hlast)
      rw [if_neg hdone, if_neg hdone, hrest hlast]
      exact ih (by omega)

end Check

/-! ## Whole bodies -/

/-- The tokens of a body and its check take no more steps than the text has bytes from the offset on,
and one for its end.  The last token and no other is the closing brace or a fault.  The spans lie in
order behind the offset, or behind the end of the text if that comes first, and only the end of the
text may be empty, where no letter is left before it.  Reading goes on in the same way behind every
token, faulty or not, until the letters are used up. -/
theorem tokens_advance (text : String) (offset : Nat) :
    let c := Cursor.seek text offset
    let stop := (Text.bytes text).length
    let limit := stop - offset + 1
    Token.bodyFor limit c = some (Token.body text offset) ∧
      Check.runFor limit (.start offset) c = some (check text offset) ∧
      (∃ pre t, Token.body text offset = pre ++ [t] ∧ t.endsBody = true ∧
        ∀ u ∈ pre, u.endsBody = false) ∧
      Token.Ascending stop (min offset stop) (Token.body text offset) ∧
      (∀ t ∈ Token.body text offset, t.span.start < t.span.stop ∨
        t.kind = .fault .endOfText ∧ ∃ k, (c.afterTokens k).ahead = [] ∧
          t = (Token.read (c.afterTokens k)).1) ∧
      ∀ k, (c.afterTokens k).Advances := by
  intro c stop limit
  have hc : c.Ordered := Cursor.ordered_seek text offset
  have hlimit : c.ahead.length < limit :=
    Nat.lt_succ_of_le (Cursor.length_ahead_seek_le text offset)
  have hbody : Token.bodyFor limit c = some (Token.body text offset) := Token.bodyFor_eq limit hlimit
  have hadvances (k : Nat) : (c.afterTokens k).Advances :=
    Cursor.advances (Cursor.ordered_afterTokens hc k)
  obtain ⟨hended, hascending, hread⟩ := Token.collected_bodyFor limit hc hbody
  refine ⟨hbody, Check.runFor_eq limit hlimit, hended, hascending, fun t ht => ?_, hadvances⟩
  obtain ⟨k, rfl⟩ := hread t ht
  by_cases hahead : (c.afterTokens k).ahead = []
  · exact .inr ⟨((hadvances k).ends hahead).1, k, hahead, rfl⟩
  · exact .inl ((hadvances k).goesOn hahead).2.1

/-- A body that is to begin behind the end of its text begins at the end, and reading goes no further
from there. -/
theorem exists_start_beyond : ∃ text offset t, Token.body text offset = [t] ∧
    t.kind = .fault .endOfText ∧ t.span.start < offset ∧
      let c := (Cursor.seek text offset).next
      c.next.pos = c.pos := by
  have hstream : Token.stream (Cursor.seek "" 1) = Token.firstTokens 1 (Cursor.seek "" 1) :=
    Token.stream_eq_firstTokens (by decide +kernel)
  have hbody : Token.body "" 1 = [⟨"", .fault .endOfText, ⟨0, 0⟩⟩] := by
    rw [Token.body, hstream]
    decide +kernel
  exact ⟨"", 1, _, hbody, rfl, by decide, by decide +kernel⟩

end FractalFormula
