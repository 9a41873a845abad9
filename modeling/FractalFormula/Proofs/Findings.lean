/-
The findings of a body.

A check that complains leaves between one and three findings, for statements in the order of the text,
each at a token of its statement (`Check.Orderly`).  It does so for all bodies but those in which the
closing brace stands where an operand is missing and there are too many branches besides
(`findings_orderly`).  There the statement ends before the branches are counted, so they are complained
about once more, with a finding for a statement that begins behind the brace; it comes on top of the
three that there may be (`exists_fourth_finding`).
-/
import FractalFormula.Proofs.Within

namespace FractalFormula

/-! ## Where the tokens stand -/

namespace Token

open Cursor

/-- Each of the tokens begins where the one before it has ended or later, the first at `n` or later,
and the text ends at `stop`.  Only the end of the text may be empty. -/
def Spaced (stop : Nat) : Nat → List Token → Prop
  | _, [] => True
  | n, t :: rest => n ≤ t.span.start ∧ t.span.stop ≤ stop ∧
      (t.kind = .fault .endOfText ∨ t.span.start < t.span.stop ∧ Spaced stop t.span.stop rest)

variable {c : Cursor}

/-- What one token takes up. -/
theorem spaced_read (hc : c.Ordered) : c.pos ≤ (read c).1.span.start ∧
    (read c).1.span.stop ≤ c.stop ∧ ((read c).1.kind = .fault .endOfText ∨
      (read c).1.span.start < (read c).1.span.stop ∧
        (read c).2.Ordered ∧ (read c).2.stop = c.stop ∧ (read c).2.pos = (read c).1.span.stop) := by
  cases hahead : c.ahead with
  | nil =>
    have hpos : c.pos ≤ c.stop := hc.pos_le
    rw [read, hahead]
    exact ⟨hpos, Nat.max_le.mpr ⟨Nat.le_refl _, Nat.le_refl _⟩, .inl rfl⟩
  | cons l rest =>
    have hord : Letter.Ordered c.stop c.pos (l :: rest) := hahead ▸ hc
    obtain ⟨hle, hnext, hstop⟩ := (onward_read hahead).ordered (c := c.past l rest) hord.2
    have hle : l.offset < (read c).2.pos := hle
    have hend : (read c).2.pos ≤ c.stop := hstop ▸ hnext.pos_le
    rw [span_read hahead, Nat.max_eq_left (Nat.le_of_lt hle)]
    exact ⟨hord.1, hend, .inr ⟨hle, hnext, hstop, rfl⟩⟩

theorem spaced_stream (hc : c.Ordered) : Spaced c.stop c.pos (stream c) := by
  fun_induction stream c with
  | case1 c hlast =>
    obtain ⟨hstart, hstop, hread⟩ := spaced_read hc
    exact ⟨hstart, hstop, hread.imp_right fun h => ⟨h.1, trivial⟩⟩
  | case2 c hlast ih =>
    obtain ⟨hstart, hstop, hread⟩ := spaced_read hc
    refine ⟨hstart, hstop, ?_⟩
    rcases hread with hend | ⟨hlt, hnext, hsame, hpos⟩
    · exact .inl hend
    · refine .inr ⟨hlt, ?_⟩
      rw [← hsame, ← hpos]
      exact ih hnext

end Token

namespace Check

/-! ## Findings in order -/

/-- There are findings but not too many, they concern statements one behind the other, and each
stands in its statement or behind it and in the text, which ends at `stop`. -/
structure Orderly (stop : Nat) (findings : List Finding) : Prop where
  nonempty : findings ≠ []
  bounded : findings.length ≤ complaintLimit
  rising : findings.Pairwise (·.statement < ·.statement)
  within : ∀ f ∈ findings, f.statement ≤ f.span.start ∧ f.span.stop ≤ stop

/-- The state of a check that has read the tokens up to `pos`. -/
structure Filed (stop pos : Nat) (s : State) : Prop where
  statement : s.statement ≤ pos
  before : ∀ f ∈ s.findings, f.statement ≤ s.statement
  rising : s.findings.Pairwise (·.statement < ·.statement)
  within : ∀ f ∈ s.findings, f.statement ≤ f.span.start ∧ f.span.stop ≤ stop

variable {stop pos : Nat} {s s' : State} {place : Span} {t : Token} {findings : List Finding}

theorem orderly_singleton {f : Finding} (hstart : f.statement ≤ f.span.start)
    (hstop : f.span.stop ≤ stop) : Orderly stop [f] :=
  ⟨List.cons_ne_nil _ _, show 1 ≤ complaintLimit by decide, List.pairwise_singleton _ _,
    List.forall_mem_singleton.mpr ⟨hstart, hstop⟩⟩

theorem Notes.length_le (h : Notes place s s') : s'.findings.length ≤ s.findings.length + 1 := by
  rcases h.2 with hf | ⟨-, c, -, hf⟩
  · rw [hf]
    omega
  · rw [hf, List.length_append, List.length_singleton]

theorem Filed.orderly (h : Filed stop pos s) (hne : s.findings ≠ [])
    (hle : s.findings.length ≤ complaintLimit) : Orderly stop s.findings :=
  ⟨hne, hle, h.rising, h.within⟩

/-- An unnoted statement lies behind all that have been noted. -/
theorem Filed.lt_of_unnoted (h : Filed stop pos s) (hunnoted : ¬s.Noted) :
    ∀ f ∈ s.findings, f.statement < s.statement := by
  intro f hf
  refine Nat.lt_of_le_of_ne (h.before f hf) fun heq => hunnoted ?_
  cases hlast : s.findings.getLast? with
  | none =>
    rw [List.getLast?_eq_none_iff.mp hlast] at hf
    exact absurd hf (List.not_mem_nil)
  | some l =>
    -- The last finding is not for a statement before that of `f`, nor for one behind the current.
    obtain ⟨init, hinit⟩ := List.getLast?_eq_some_iff.mp hlast
    have hrising := h.rising
    refine ⟨l, hlast, Nat.le_antisymm (h.before l (List.mem_of_getLast? hlast)) ?_⟩
    rw [hinit] at hf hrising
    rcases List.mem_append.mp hf with hmem | hmem
    · have := (List.pairwise_append.mp hrising).2.2 f hmem l (List.mem_singleton.mpr rfl)
      omega
    · rw [← heq, List.mem_singleton.mp hmem]

theorem Filed.notes (h : Filed stop pos s) (hn : Notes place s s') (hstart : pos ≤ place.start)
    (hstop : place.stop ≤ stop) : Filed stop pos s' := by
  obtain ⟨hs, hf⟩ := hn
  rcases hf with hf | ⟨hunnoted, c, -, hf⟩
  · constructor
    case statement => exact hs ▸ h.statement
    case before => exact hs ▸ hf ▸ h.before
    case rising => exact hf ▸ h.rising
    case within => exact hf ▸ h.within
  · have hlt := h.lt_of_unnoted hunnoted
    constructor
    case statement => exact hs ▸ h.statement
    case before =>
      rw [hs, hf]
      exact List.forall_mem_append.mpr ⟨h.before, by simp⟩
    case rising =>
      rw [hf]
      exact List.pairwise_append.mpr ⟨h.rising, List.pairwise_singleton _ _, by simpa using hlt⟩
    case within =>
      rw [hf]
      refine List.forall_mem_append.mpr ⟨h.within, ?_⟩
      simpa using ⟨Nat.le_trans h.statement hstart, hstop⟩

theorem Filed.move (h : Filed stop pos s) {pos' : Nat} (hle : pos ≤ pos')
    (hfindings : s'.findings = s.findings)
    (hstatement : s'.statement = s.statement ∨ s'.statement = pos') : Filed stop pos' s' := by
  have hs : s.statement ≤ s'.statement ∧ s'.statement ≤ pos' := by
    have := h.statement
    omega
  exact ⟨hs.2, hfindings ▸ fun f hf => Nat.le_trans (h.before f hf) hs.1, hfindings ▸ h.rising,
    hfindings ▸ h.within⟩

theorem Filed.read (h : Filed stop pos s) (hend : t.kind ≠ .fault .endOfText)
    (hclose : t.kind ≠ .close) (hstart : pos ≤ t.span.start) (hlt : t.span.start < t.span.stop)
    (hstop : t.span.stop ≤ stop) : Filed stop t.span.stop (s.read t) ∧
      (s.read t).findings.length ≤ s.findings.length + 1 := by
  obtain ⟨u, hu, hfindings, hstatement⟩ := notes_read s hend hclose
  refine ⟨(h.notes hu hstart hstop).move (by omega) hfindings ?_, ?_⟩
  · exact hstatement.imp_left (·.trans hu.1.symm)
  · rw [hfindings]
    exact hu.length_le

/-! ## A whole check -/

/-- An operand is missing and there are too many branches. -/
def State.Overrun (s : State) : Prop :=
  (s.wantsOperand && !s.fresh) = true ∧ jumpLimit ≤ s.tally.jumps

/-- The check comes to the closing brace, and there it is overrun. -/
def Overruns (s : State) : List Token → Prop
  | [] => False
  | t :: rest =>
    if t.kind = .close then s.Overrun
    else
      t.kind ≠ .fault .endOfText ∧ (s.read t).findings.length < complaintLimit ∧
        Overruns (s.read t) rest

instance (s : State) : Decidable s.Overrun :=
  inferInstanceAs (Decidable (_ ∧ _))

instance decidableOverruns (s : State) : (tokens : List Token) → Decidable (Overruns s tokens)
  | [] => inferInstanceAs (Decidable False)
  | t :: rest =>
    have := decidableOverruns (s.read t) rest
    inferInstanceAs (Decidable (if t.kind = .close then s.Overrun else
      t.kind ≠ .fault .endOfText ∧ (s.read t).findings.length < complaintLimit ∧
        Overruns (s.read t) rest))

theorem not_overruns_of_endOfText {rest : List Token} (h : t.kind = .fault .endOfText) :
    ¬Overruns s (t :: rest) := by
  simp [Overruns, h]

theorem overruns_of_close {rest : List Token} (h : t.kind = .close) :
    Overruns s (t :: rest) ↔ s.Overrun := by
  rw [Overruns, if_pos h]

theorem overruns_of_read {rest : List Token} (hend : t.kind ≠ .fault .endOfText)
    (hclose : t.kind ≠ .close) : Overruns s (t :: rest) ↔
      (s.read t).findings.length < complaintLimit ∧ Overruns (s.read t) rest := by
  rw [Overruns, if_neg hclose]
  exact and_iff_right hend

/-- The branches are complained about in a finding of their own, for a statement that begins where
its token ends. -/
def Overfull (stop : Nat) (findings : List Finding) : Prop :=
  ∃ kept place, findings = kept ++ [⟨.tooManyJumps, place.stop, place⟩] ∧
    place.start < place.stop ∧ Orderly stop kept

theorem Overfull.not_orderly (h : Overfull stop findings) : ¬Orderly stop findings := by
  obtain ⟨kept, place, rfl, hlt, -⟩ := h
  intro horderly
  have := (horderly.within ⟨.tooManyJumps, place.stop, place⟩ (by simp)).1
  exact absurd hlt (Nat.not_lt.mpr this)

theorem verdict_eq_error (h : s.verdict = .error findings) :
    s.findings = findings ∧ findings ≠ [] := by
  unfold State.verdict at h
  split at h
  · cases h
  · rename_i hne
    obtain rfl := Except.error.inj h
    exact ⟨rfl, fun hnil => hne (by rw [hnil]; rfl)⟩

theorem orderly_close (h : Filed stop pos s) (hlimit : s.findings.length < complaintLimit)
    (hstart : pos ≤ place.start) (hstop : place.stop ≤ stop) (hne : (s.close place).findings ≠ [])
    (hover : ¬s.Overrun) : Orderly stop (s.close place).findings := by
  cases hmissing : s.wantsOperand && !s.fresh with
  | false =>
    have hn := notes_close s place hmissing
    have hle := hn.length_le
    exact (h.notes hn hstart hstop).orderly hne (by omega)
  | true =>
    obtain ⟨u, hu, hune, heq⟩ := close_of_missing s place hmissing
    have hle := hu.length_le
    rw [heq, decide_eq_false fun hjumps => hover ⟨hmissing, hjumps⟩]
    exact (h.notes hu hstart hstop).orderly hune (by omega)

theorem overfull_close (h : Filed stop pos s) (hlimit : s.findings.length < complaintLimit)
    (hstart : pos ≤ place.start) (hlt : place.start < place.stop) (hstop : place.stop ≤ stop)
    (hover : s.Overrun) : Overfull stop (s.close place).findings := by
  obtain ⟨u, hu, hune, heq⟩ := close_of_missing s place hover.1
  have hle := hu.length_le
  have hfiled := h.notes hu hstart hstop
  have hunnoted : ¬State.Noted { u with statement := place.stop } := by
    refine State.not_noted_of_lt fun f hf => ?_
    have hbefore := hfiled.before f hf
    have hstatement := hfiled.statement
    show f.statement < place.stop
    omega
  have hnote := State.note_eq { u with statement := place.stop } .tooManyJumps place
  rw [heq, decide_eq_true hover.2]
  refine ⟨u.findings, place, ?_, hlt, hfiled.orderly hune (by omega)⟩
  exact congrArg State.findings (hnote.resolve_left fun hnoted => hunnoted hnoted.1).2

theorem run_findings {tokens : List Token} : ∀ {s : State} {pos : Nat} {findings : List Finding},
    Filed stop pos s → s.findings.length < complaintLimit → Token.Spaced stop pos tokens →
      run s tokens = .error findings → (¬Overruns s tokens → Orderly stop findings) ∧
        (Overruns s tokens → Overfull stop findings) := by
  induction tokens with
  | nil =>
    intro s pos findings hs hlimit _ h
    obtain ⟨rfl, hne⟩ := verdict_eq_error h
    exact ⟨fun _ => hs.orderly hne (by omega), False.elim⟩
  | cons t rest ih =>
    intro s pos findings hs hlimit ⟨hstart, hstop, hspaced⟩ h
    rw [run] at h
    by_cases hend : t.kind = .fault .endOfText
    · rw [if_pos hend] at h
      obtain rfl := Except.error.inj h
      have hle := Nat.le_trans hs.statement hstart
      exact ⟨fun _ => orderly_singleton hle hstop, (absurd · (not_overruns_of_endOfText hend))⟩
    rw [if_neg hend] at h
    obtain ⟨hlt, hnext⟩ := hspaced.resolve_left hend
    dsimp only at h
    by_cases hclose : t.kind = .close
    · have hu : Filed stop pos ({ s with afterCaret := false }.addChars t.size) :=
        ⟨hs.statement, hs.before, hs.rising, hs.within⟩
      have hover : Overruns s (t :: rest) ↔
          State.Overrun ({ s with afterCaret := false }.addChars t.size) :=
        overruns_of_close hclose
      have hroom : ({ s with afterCaret := false }.addChars t.size).findings.length < complaintLimit :=
        hlimit
      rw [if_pos (.inl hclose), read_of_close hclose] at h
      generalize { s with afterCaret := false }.addChars t.size = u at hu hover hroom h
      obtain ⟨rfl, hne⟩ := verdict_eq_error h
      rw [hover]
      exact ⟨orderly_close hu hroom hstart hstop hne, overfull_close hu hroom hstart hlt hstop⟩
    · obtain ⟨hread, hle⟩ := hs.read hend hclose hstart hlt hstop
      rw [overruns_of_read hend hclose]
      by_cases hfull : complaintLimit ≤ (s.read t).findings.length
      · rw [if_pos (.inr hfull)] at h
        obtain ⟨rfl, hne⟩ := verdict_eq_error h
        exact ⟨fun _ => hread.orderly hne (by omega), fun hyes => absurd hyes.1 (by omega)⟩
      · rw [if_neg (not_or_intro hclose hfull)] at h
        have hroom := Nat.lt_of_not_le hfull
        rw [and_iff_right hroom]
        exact ih hread hroom hnext h

end Check

/-- The findings of a body that begins in the text are in order unless it overruns; then one more
follows them, which is not. -/
theorem findings_orderly {text : String} {offset : Nat} {findings : List Finding}
    (h : check text offset = .error findings) :
    let stop := (Text.bytes text).length
    let overruns := Check.Overruns (.start offset) (Token.stream (Cursor.seek text offset))
    (Check.Orderly stop findings ↔ offset ≤ stop ∧ ¬overruns) ∧
      (offset ≤ stop → overruns → Check.Overfull stop findings) := by
  intro stop overruns
  have hinside (hle : offset ≤ stop) :
      (¬overruns → Check.Orderly stop findings) ∧ (overruns → Check.Overfull stop findings) := by
    have hspaced := Token.spaced_stream (Cursor.ordered_seek text offset)
    have hstart : Check.Filed stop (Cursor.seek text offset).pos (.start offset) :=
      ⟨(Nat.le_min.mpr ⟨Nat.le_refl _, hle⟩), nofun, .nil, nofun⟩
    exact Check.run_findings hstart (show 0 < Check.complaintLimit by decide) hspaced h
  refine ⟨⟨fun horderly => ?_, fun ⟨hle, hno⟩ => (hinside hle).1 hno⟩, fun hle => (hinside hle).2⟩
  have hle : offset ≤ stop := by
    -- Behind the text there is its end alone, which stands before the statement.
    by_contra hgt
    have hahead : (Cursor.seek text offset).ahead = [] := Cursor.ahead_seek_of_le (by omega)
    have hend := Token.read_of_ahead_eq_nil hahead
    have hlast : (Token.read (Cursor.seek text offset)).1.isLast = true := by
      rw [Token.isLast, hend]
    rw [check, Token.stream_of_isLast hlast, Check.run, if_pos hend] at h
    obtain rfl := Except.error.inj h
    have hstart := (horderly.within _ (List.mem_singleton.mpr rfl)).1
    rw [Token.read, hahead] at hstart
    exact hgt hstart
  exact ⟨hle, fun hyes => ((hinside hle).2 hyes).not_orderly horderly⟩

/-- One finding for a character that does not belong there. -/
theorem findings_orderly_one : ∃ text findings, check text 0 = .error findings ∧
    Check.Orderly (Text.bytes text).length findings := by
  let text := "z=$\n\x7d"
  let findings : List Finding := [⟨.illegalCharacter, 0, ⟨2, 3⟩⟩]
  have hstream : Token.stream (Cursor.seek text 0) = Token.firstTokens 9 (Cursor.seek text 0) :=
    Token.stream_eq_firstTokens (by decide +kernel)
  have h : check text 0 = .error findings := by
    rw [check, hstream]
    decide +kernel
  refine ⟨text, findings, h, (findings_orderly h).1.mpr ⟨Nat.zero_le _, ?_⟩⟩
  rw [hstream]
  decide +kernel

/-- Two hundred branches that are never closed, a character that does not belong there, and an operand
that is missing. -/
theorem exists_fourth_finding : ∃ text findings, check text 0 = .error findings ∧
    Check.complaintLimit < findings.length ∧ ∃ f ∈ findings, f.span.start < f.statement := by
  let text := String.ofList ((List.replicate 200 "if(".toList).flatten ++ "\n$\nz=\x7d".toList)
  let findings : List Finding :=
    [⟨.jumpNotFirst, 0, ⟨3, 5⟩⟩, ⟨.illegalCharacter, 601, ⟨601, 602⟩⟩,
      ⟨.ifOpenAtEnd, 603, ⟨605, 606⟩⟩, ⟨.tooManyJumps, 606, ⟨605, 606⟩⟩]
  have hstream : Token.stream (Cursor.seek text 0) = Token.firstTokens 700 _ :=
    Token.stream_ofList (by decide +kernel)
  have h : check text 0 = .error findings := by
    rw [check, hstream]
    decide +kernel
  exact ⟨text, findings, h, by decide, ⟨.tooManyJumps, 606, ⟨605, 606⟩⟩, by decide⟩

end FractalFormula
