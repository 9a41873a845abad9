/-
Where a complaint is found again.

A place in a text is a matter of its offset alone (`Cursor.Grounded`), and reading goes on from one
such place to the next.  So the tokens of a statement are read again from the offset at which it
begins, and with them the token that is complained about (`Finding.Cited`).  Only what is noted behind
the closing brace has no such token (`Check.placed_of_check`).
-/
import FractalFormula.Proofs.Progress

namespace FractalFormula

/-! ## Places -/

/-- Behind a letter the text is read as if it began there. -/
theorem Letter.exists_of_listFrom {bs : List UInt8} {joined comment : Bool} {offset : Nat}
    {l : Letter} {rest : List Letter} (h : listFrom joined comment offset bs = l :: rest) :
    ∃ n, l.offset = offset + n ∧ n < bs.length ∧
      rest = listFrom false false l.after (bs.drop (n + 1)) := by
  induction bs generalizing joined comment offset with
  | nil => cases h
  | cons b bs ih =>
    have skip {joined comment : Bool} (h : listFrom joined comment (offset + 1) bs = l :: rest) :
        ∃ n, l.offset = offset + n ∧ n < (b :: bs).length ∧
          rest = listFrom false false l.after ((b :: bs).drop (n + 1)) := by
      obtain ⟨n, hn, hlt, hrest⟩ := ih h
      exact ⟨n + 1, by omega, Nat.succ_lt_succ hlt, hrest⟩
    have here {k : Char} (h : ⟨k, offset⟩ :: listFrom false false (offset + 1) bs = l :: rest) :
        ∃ n, l.offset = offset + n ∧ n < (b :: bs).length ∧
          rest = listFrom false false l.after ((b :: bs).drop (n + 1)) := by
      obtain ⟨rfl, rfl⟩ := List.cons.inj h
      exact ⟨0, rfl, Nat.succ_pos _, rfl⟩
    unfold listFrom at h
    dsimp only at h
    repeat' split at h
    · exact skip h
    · exact here h
    · exact skip h
    · exact skip h
    · exact skip h
    · exact skip h
    · exact here h

namespace Cursor

/-- The place is the one at its offset in the text. -/
def Grounded (text : String) (c : Cursor) : Prop :=
  seek text c.pos = c

variable {text : String} {c c' : Cursor} {l : Letter} {rest : List Letter}

theorem grounded_seek (text : String) (offset : Nat) : (seek text offset).Grounded text := by
  have hmin : min (min offset (Text.bytes text).length) (Text.bytes text).length =
      min offset (Text.bytes text).length :=
    Nat.min_eq_left (Nat.min_le_right _ _)
  rw [Grounded, seek, seek, hmin]

namespace Grounded

theorem stop (h : c.Grounded text) : c.stop = (Text.bytes text).length := by
  rw [← h]
  rfl

theorem ordered (h : c.Grounded text) : c.Ordered :=
  h ▸ ordered_seek text c.pos

theorem past (h : c.Grounded text) (hc : c.ahead = l :: rest) : (c.past l rest).Grounded text := by
  let start := min c.pos (Text.bytes text).length
  have hlist : Letter.listFrom false false start ((Text.bytes text).drop start) = l :: rest := by
    rw [← hc]
    exact congrArg ahead h
  obtain ⟨n, hn, hlt, hrest⟩ := Letter.exists_of_listFrom hlist
  rw [List.length_drop] at hlt
  rw [List.drop_drop] at hrest
  have hafter : l.after = start + (n + 1) := by
    rw [Letter.after, hn, Nat.add_assoc]
  have hle : l.after ≤ (Text.bytes text).length := by omega
  show seek text l.after = _
  rw [seek_of_le hle, Cursor.past, h.stop, hrest, hafter]

theorem finished (h : c.Grounded text) : c.finished.Grounded text := by
  show seek text c.stop = _
  rw [Cursor.finished, h.stop, seek_of_le (Nat.le_refl _), List.drop_length]
  rfl

end Grounded

theorem Onward.grounded (h : Onward c c') (hc : c.Grounded text) : c'.Grounded text := by
  induction h with
  | refl => exact hc
  | step hahead _ ih => exact ih (hc.past hahead)
  | finish => exact hc.finished

theorem Grounded.next (hc : c.Grounded text) : c.next.Grounded text := by
  cases hahead : c.ahead with
  | nil =>
    rw [next_of_end hahead]
    exact hc.finished
  | cons l rest => exact (Token.onward_read hahead).grounded (hc.past hahead)

end Cursor

/-- What comes last in a stream is what ends streams. -/
theorem Token.isLast_iff_of_stream {pre more : List Token} {t : Token} : ∀ {c : Cursor},
    stream c = pre ++ t :: more → (t.isLast = true ↔ more = []) := by
  induction pre with
  | nil =>
    intro c h
    obtain ⟨rest, hstream, hrest⟩ := exists_stream c
    rw [hstream] at h
    obtain ⟨rfl, rfl⟩ := List.cons.inj h
    cases hlast : (read c).1.isLast with
    | true =>
      rw [stream_of_isLast hlast] at hstream
      exact iff_of_true rfl (List.cons.inj hstream).2.symm
    | false =>
      obtain ⟨more, hmore, -⟩ := exists_stream c.next
      rw [hrest hlast, hmore]
      exact iff_of_false Bool.false_ne_true (List.cons_ne_nil _ _)
  | cons u pre ih =>
    intro c h
    obtain ⟨rest, hstream, hrest⟩ := exists_stream c
    rw [hstream] at h
    obtain ⟨rfl, rfl⟩ := List.cons.inj h
    cases hlast : (read c).1.isLast with
    | true =>
      rw [stream_of_isLast hlast] at hstream
      exact absurd (List.cons.inj hstream).2.symm (by simp)
    | false => exact ih (hrest hlast).symm

theorem Token.not_isLast_of_stream {c : Cursor} {pre more : List Token} {t : Token}
    (h : stream c = pre ++ t :: more) : ∀ u ∈ pre, u.isLast = false := by
  intro u hu
  obtain ⟨front, back, rfl⟩ := List.append_of_mem hu
  rw [List.append_assoc, List.cons_append] at h
  have hmore : back ++ t :: more ≠ [] :=
    List.append_ne_nil_of_right_ne_nil back (List.cons_ne_nil t more)
  exact Bool.eq_false_iff.mpr fun hlast => hmore ((isLast_iff_of_stream h).mp hlast)

theorem Token.exists_reads {pre more : List Token} {t : Token} : ∀ {c : Cursor},
    stream c = pre ++ t :: more → ∃ c', Reads c pre c' := by
  induction pre with
  | nil => exact fun {c} _ => ⟨c, .nil c⟩
  | cons u pre ih =>
    intro c h
    have hu : u.isLast = false := not_isLast_of_stream h u List.mem_cons_self
    obtain ⟨rest, hstream, hrest⟩ := exists_stream c
    rw [hstream] at h
    obtain ⟨rfl, rfl⟩ := List.cons.inj h
    obtain ⟨c', hreads⟩ := ih (hrest hu).symm
    exact ⟨c', .cons hu hreads⟩

/-! ## Statements that are read again -/

/-- The finding stands at the token `t`, which comes behind `pre` and before `more` where its
statement is read again.  Nothing before ends the statement, and nothing before is faulty unless the
end of the text came in between. -/
structure Finding.Cited (text : String) (f : Finding) (pre : List Token) (t : Token)
    (more : List Token) : Prop where
  stream : Token.stream (Cursor.seek text f.statement) = pre ++ t :: more
  span : t.span = f.span
  inner : ∀ u ∈ pre, u.endsStatement = false
  sound : f.complaint ≠ .unexpectedEnd →
    t.kind ≠ .fault .endOfText ∧ ∀ u ∈ pre, u.isFault = false

/-- The finding is found again, or its statement begins in the text behind its token. -/
def Finding.Placed (text : String) (f : Finding) : Prop :=
  (∃ pre t more, f.Cited text pre t more) ∨
    f.span.start < f.statement ∧ f.statement ≤ (Text.bytes text).length

namespace Check

namespace State

variable {s : State} {t : Token}

theorem noted_note (s : State) (c : Complaint) (place : Span) : (s.note c place).Noted := by
  rcases s.note_eq c place with ⟨hnoted, heq⟩ | ⟨-, heq⟩
  · rwa [heq]
  · rw [heq]
    exact s.noted_concat c place

theorem statement_note (s : State) (c : Complaint) (place : Span) :
    (s.note c place).statement = s.statement := by
  rcases s.note_eq c place with ⟨-, heq⟩ | ⟨-, heq⟩ <;> rw [heq]

/-- A statement begins behind each token that ends one. -/
theorem statement_read (s : State) (hclose : t.kind ≠ .close) :
    (s.read t).statement = if t.endsStatement then t.span.stop else s.statement := by
  unfold read Token.endsStatement
  dsimp only
  split
  · rename_i hrefused
    rw [eq_of_beq (Bool.and_eq_true_iff.mp hrefused).2]
    exact statement_note { s with afterCaret := false } .negativeExponent t.span
  have hu : Notes t.span s ({ s with afterCaret := false }.addChars t.size) := .of_eq rfl rfl
  generalize { s with afterCaret := false }.addChars t.size = u at hu
  cases hkind : t.kind with
  | fault f =>
    exact (statement_note { u with assignable := false } (.ofFault f) t.span).trans hu.1
  | leftParen => exact (hu.trans (notes_leftParen u t.span)).1
  | rightParen => exact (hu.trans (notes_rightParen u t.span)).1
  | builtin | user => exact (hu.trans (notes_operand u t.span true)).1
  | number | pair => exact (hu.trans (notes_operand u t.span false)).1
  | call => exact (hu.trans (notes_call u t.span)).1
  | flow w => exact (hu.trans (notes_flow u t.span w)).1
  | operator o =>
    cases o with
    | comma | colon => rfl
    | assign => exact (hu.trans (notes_assign u t.span)).1
    | modulus => exact (hu.trans (notes_modulus u t.span)).1
    | minus => exact hu.1
    | caret => exact (hu.trans ((notes_infixOperator u t.span).trans (.of_eq rfl rfl))).1
    | _ => exact (hu.trans (notes_infixOperator u t.span)).1
  | close => exact absurd hkind hclose

theorem noted_read_of_fault (hfault : t.isFault = true) : (s.read t).Noted := by
  unfold Token.isFault at hfault
  split at hfault
  · rename_i f hkind
    have hread : ∃ u : State, s.read t = u.note (.ofFault f) t.span := by
      unfold read
      rw [hkind]
      cases s.afterCaret <;> exact ⟨_, rfl⟩
    obtain ⟨u, hu⟩ := hread
    rw [hu]
    exact u.noted_note _ _
  · cases hfault

/-- What has been noted about a statement stays with it. -/
theorem noted_read (hend : t.kind ≠ .fault .endOfText) (hclose : t.kind ≠ .close)
    (hinner : t.endsStatement = false) (h : s.Noted) : (s.read t).Noted := by
  obtain ⟨u, ⟨-, hu⟩, hfindings, -⟩ := notes_read s hend hclose
  have hsame : u.findings = s.findings := hu.resolve_right fun hnew => hnew.1 h
  rwa [Noted, s.statement_read hclose, hinner, hfindings, hsame]

end State

/-- The statement of the check is read again over the tokens `pre`, none of which ends it, to the place
`c`.  None is faulty unless it has been complained about. -/
structure Resumes (text : String) (s : State) (pre : List Token) (c : Cursor) : Prop where
  stream : Token.stream (Cursor.seek text s.statement) = pre ++ Token.stream c
  inner : ∀ u ∈ pre, u.endsStatement = false
  sound : ¬s.Noted → ∀ u ∈ pre, u.isFault = false
  grounded : c.Grounded text

variable {text : String} {s u : State} {pre : List Token} {c : Cursor}

theorem resumes_start (text : String) (offset : Nat) :
    Resumes text (.start offset) [] (Cursor.seek text offset) :=
  ⟨rfl, nofun, fun _ => nofun, Cursor.grounded_seek text offset⟩

theorem Resumes.read (h : Resumes text s pre c) (hlast : (Token.read c).1.isLast = false) :
    ∃ pre', Resumes text (s.read (Token.read c).1) pre' c.next := by
  obtain ⟨hclose, hend⟩ := not_or.mp (mt Token.isLast_iff.mpr (Bool.eq_false_iff.mp hlast))
  obtain ⟨rest, hstream, hrest⟩ := Token.exists_stream c
  have hstatement := s.statement_read hclose
  cases hends : (Token.read c).1.endsStatement with
  | true =>
    refine ⟨[], ?_, nofun, fun _ => nofun, h.grounded.next⟩
    obtain ⟨-, -, hspaced⟩ := Token.spaced_read h.grounded.ordered
    have hpos : c.next.pos = (Token.read c).1.span.stop := (hspaced.resolve_left hend).2.2.2
    rw [hends, if_pos rfl, ← hpos] at hstatement
    rw [hstatement, h.grounded.next, List.nil_append]
  | false =>
    rw [hends, if_neg Bool.false_ne_true] at hstatement
    refine ⟨pre ++ [(Token.read c).1], ?_, ?_, fun hunnoted => ?_, h.grounded.next⟩
    · rw [hstatement, h.stream, hstream, hrest hlast, List.append_assoc]
      rfl
    · exact List.forall_mem_append.mpr ⟨h.inner, List.forall_mem_singleton.mpr hends⟩
    · have hsound := h.sound fun hnoted => hunnoted (State.noted_read hend hclose hends hnoted)
      have hfault : (Token.read c).1.isFault = false :=
        Bool.eq_false_iff.mpr fun hfault => hunnoted (State.noted_read_of_fault hfault)
      exact List.forall_mem_append.mpr ⟨hsound, List.forall_mem_singleton.mpr hfault⟩

/-! ## A whole check -/

/-- What is noted over the next token is found at that token. -/
theorem Resumes.placed (h : Resumes text s pre c) (hend : (Token.read c).1.kind ≠ .fault .endOfText)
    (hn : Notes (Token.read c).1.span s u) (hs : ∀ f ∈ s.findings, f.Placed text) :
    ∀ f ∈ u.findings, f.Placed text := by
  obtain ⟨rest, hstream, -⟩ := Token.exists_stream c
  rcases hn.2 with hsame | ⟨hunnoted, complaint, -, hnew⟩
  · rwa [hsame]
  · rw [hnew]
    refine List.forall_mem_append.mpr ⟨hs, List.forall_mem_singleton.mpr (.inl ?_)⟩
    exact ⟨pre, _, rest, hstream ▸ h.stream, rfl, h.inner, fun _ => ⟨hend, h.sound hunnoted⟩⟩

theorem Resumes.placed_close (h : Resumes text s pre c) (hclose : (Token.read c).1.kind = .close)
    (hs : ∀ f ∈ s.findings, f.Placed text) :
    ∀ f ∈ (s.read (Token.read c).1).findings, f.Placed text := by
  have hend : (Token.read c).1.kind ≠ .fault .endOfText := by
    rw [hclose]
    exact nofun
  let v := { s with afterCaret := false }.addChars (Token.read c).1.size
  have hv : Resumes text v pre c := ⟨h.stream, h.inner, h.sound, h.grounded⟩
  rw [read_of_close hclose]
  cases hmissing : v.wantsOperand && !v.fresh with
  | false => exact hv.placed hend (notes_close v _ hmissing) hs
  | true =>
    obtain ⟨w, hw, -, heq⟩ := close_of_missing v (Token.read c).1.span hmissing
    have hplaced := hv.placed hend hw hs
    rw [heq]
    obtain ⟨-, hstop, hspaced⟩ := Token.spaced_read h.grounded.ordered
    have hmoved : Notes (Token.read c).1.span { w with statement := (Token.read c).1.span.stop } _ :=
      .noteIf (.of_eq rfl rfl) (jumpLimit ≤ v.tally.jumps) .tooManyJumps nofun
    rcases hmoved.2 with hsame | ⟨-, complaint, -, hnew⟩
    · rwa [hsame]
    · rw [hnew]
      refine List.forall_mem_append.mpr ⟨hplaced, List.forall_mem_singleton.mpr (.inr ?_)⟩
      exact ⟨(hspaced.resolve_left hend).1, h.grounded.stop ▸ hstop⟩

theorem placed_run {findings : List Finding} : ∀ {s : State} {pre : List Token},
    Resumes text s pre c → run s (Token.stream c) = .error findings →
      (∀ f ∈ s.findings, f.Placed text) → ∀ f ∈ findings, f.Placed text := by
  fun_induction Token.stream c with
  | case1 c hlast =>
    intro s pre h hrun hs
    rw [run] at hrun
    split at hrun
    · obtain rfl := Except.error.inj hrun
      refine List.forall_mem_singleton.mpr (.inl ⟨pre, (Token.read c).1, [], ?_, rfl, h.inner, ?_⟩)
      · exact Token.stream_of_isLast hlast ▸ h.stream
      · exact fun hne => absurd rfl hne
    · rename_i hend
      have hclose : (Token.read c).1.kind = .close :=
        (Token.isLast_iff.mp hlast).resolve_right hend
      dsimp only at hrun
      rw [if_pos (.inl hclose)] at hrun
      obtain ⟨rfl, -⟩ := verdict_eq_error hrun
      exact h.placed_close hclose hs
  | case2 c hlast ih =>
    intro s pre h hrun hs
    obtain ⟨hclose, hend⟩ := not_or.mp (mt Token.isLast_iff.mpr hlast)
    have hlast : (Token.read c).1.isLast = false := Bool.eq_false_iff.mpr hlast
    obtain ⟨u, hu, hfindings, -⟩ := notes_read s hend hclose
    have hread : ∀ f ∈ (s.read (Token.read c).1).findings, f.Placed text :=
      hfindings ▸ h.placed hend hu hs
    rw [run, if_neg hend] at hrun
    dsimp only at hrun
    split at hrun
    · obtain ⟨rfl, -⟩ := verdict_eq_error hrun
      exact hread
    · obtain ⟨pre', hpre'⟩ := h.read hlast
      exact ih hpre' hrun hread

/-- Every finding is found again at a token of its statement, unless the statement begins behind the
closing brace. -/
theorem placed_of_check {offset : Nat} {findings : List Finding}
    (h : check text offset = .error findings) : ∀ f ∈ findings, f.Placed text :=
  placed_run (resumes_start text offset) h nofun

end Check
end FractalFormula
