/-
What is noted about a body stands in it.

Each step of the check notes at most one complaint, at the token that it reads and for the current
statement (`Check.Notes`); only the closing brace can be complained about twice
(`Check.close_of_missing`).  So the findings of a body stand where its tokens do: up to its closing
brace, unless that brace is taken in by a number (`findings_within`, `exists_finding_beyond`).
-/
import FractalFormula.Library.Entry
import FractalFormula.Proofs.Body
import FractalFormula.Proofs.Parallel

namespace FractalFormula

namespace Check

/-- From `s` to `s'` the statement stays the same.  At most one complaint is noted, and none if the
statement has one; it concerns the token at `place`, which does not end the text. -/
def Notes (place : Span) (s s' : State) : Prop :=
  s'.statement = s.statement ∧
    (s'.findings = s.findings ∨ ¬s.Noted ∧ ∃ c ≠ Complaint.unexpectedEnd,
      s'.findings = s.findings ++ [⟨c, s.statement, place⟩])

namespace Notes

variable {place : Span} {s s' s'' : State}

/-- Nothing has been noted. -/
theorem of_eq (hs : s'.statement = s.statement) (hf : s'.findings = s.findings) :
    Notes place s s' :=
  ⟨hs, .inl hf⟩

theorem trans (h : Notes place s s') (h' : Notes place s' s'') : Notes place s s'' := by
  obtain ⟨hs, hf⟩ := h
  obtain ⟨hs', hf'⟩ := h'
  refine ⟨hs'.trans hs, ?_⟩
  rcases hf with hf | ⟨hunnoted, c, hc, hf⟩
  · have hsame : s'.Noted ↔ s.Noted := by rw [State.Noted, State.Noted, hs, hf]
    rwa [hs, hf, hsame] at hf'
  · rcases hf' with hf' | ⟨hunnoted', -⟩
    · exact .inr ⟨hunnoted, c, hc, hf'.trans hf⟩
    · exact absurd ⟨_, hf ▸ List.getLast?_concat, hs.symm⟩ hunnoted'

theorem note (h : Notes place s s') (c : Complaint) (hc : c ≠ .unexpectedEnd) :
    Notes place s (s'.note c place) := by
  refine h.trans ?_
  rcases s'.note_eq c place with ⟨-, heq⟩ | ⟨hunnoted, heq⟩
  · rw [heq]
    exact of_eq rfl rfl
  · rw [heq]
    exact ⟨rfl, .inr ⟨hunnoted, c, hc, rfl⟩⟩

theorem noteIf (h : Notes place s s') (b : Bool) (c : Complaint) (hc : c ≠ .unexpectedEnd) :
    Notes place s (s'.noteIf b c place) := by
  cases b with
  | false => exact h
  | true => exact h.note c hc

theorem ite (b : Prop) [Decidable b] (h : Notes place s s') (h' : Notes place s s'') :
    Notes place s (if b then s' else s'') := by
  split
  · exact h
  · exact h'

end Notes

variable (s : State) (place : Span)

theorem notes_leftParen : Notes place s (s.leftParen place) := by
  let t := { s with assignable := false, fresh := false, openParens := s.openParens + 1 }
  have ht : Notes place s t := .of_eq rfl rfl
  have h : Notes place s (if parenLimit < t.openParens then t.note .nestingTooDeep place
      else t.noteIf (!t.wantsOperand) .operatorExpected place) :=
    .ite _ (ht.note .nestingTooDeep nofun) (ht.noteIf _ .operatorExpected nofun)
  exact h.trans (.of_eq rfl rfl)

theorem notes_rightParen : Notes place s (s.rightParen place) := by
  let t := { s with assignable := false, fresh := false }
  let u := if t.openParens = 0 then t.note .unopenedParen place
    else { t with openParens := t.openParens - 1 }
  have ht : Notes place s t := .of_eq rfl rfl
  have hu : Notes place s u := .ite _ (ht.note .unopenedParen nofun) (.of_eq rfl rfl)
  have hv : Notes place u (if u.bars.isUp then u.note .unmatchedModulus place
      else { u with bars := u.bars.leave }) :=
    .ite _ (.note (.of_eq rfl rfl) .unmatchedModulus nofun) (.of_eq rfl rfl)
  exact (hu.trans hv).noteIf _ .argumentExpected nofun

theorem notes_operand (isVariable : Bool) : Notes place s (s.operand isVariable place) := by
  let t := { s.addOps 1 with assignable := s.assignable && isVariable, fresh := false }
  let u := { t with tally := { t.tally with loads := t.tally.loads + 1 } }
  have hu : Notes place s u := .of_eq rfl rfl
  exact (hu.noteIf (!u.wantsOperand) .operatorExpected nofun).trans (.of_eq rfl rfl)

theorem notes_call : Notes place s (s.call place) := by
  have h : Notes place s { s.addOps 1 with assignable := false, fresh := false } := .of_eq rfl rfl
  exact h.noteIf _ .operatorExpected nofun

theorem notes_branch : Notes place s (s.branch place) :=
  .ite _ (.note (.of_eq rfl rfl) .endIfExpected nofun)
    (.noteIf (.of_eq rfl rfl) _ .misplacedElse nofun)

theorem notes_flow (w : FlowWord) : Notes place s (s.flow w place) := by
  let t := { (s.addOps 1).addJumps 1 with assignable := false }
  let u := { t with tally := { t.tally with usesJump := true } }
  have ht : Notes place s t := .of_eq rfl rfl
  have hu : Notes place s u := .of_eq rfl rfl
  refine .ite _ (ht.note .jumpNotFirst nofun) ?_
  cases w with
  | «if» => exact hu.trans (.of_eq rfl rfl)
  | elseIf => exact hu.trans ((notes_branch ((u.addOps 3).addJumps 1) place).trans (.of_eq rfl rfl))
  | «else» => exact hu.trans ((notes_branch u place).trans (.of_eq rfl rfl))
  | endIf =>
    let v := { u with elses := u.elses.leave }
    have hv : Notes place s v := .of_eq rfl rfl
    exact .ite _ (hv.note .endIfWithoutIf nofun) (.of_eq rfl rfl)

theorem notes_closeGroups : Notes place s (s.closeGroups place) :=
  .noteIf (.noteIf (.of_eq rfl rfl) _ .unclosedParen nofun) _ .unmatchedModulus nofun

theorem notes_endOfStatement (isColon : Bool) :
    Notes place s (endOfStatement s isColon place) := by
  let t := { (s.addOps 2).closeGroups place with openParens := 0, bars := .flat }
  have ht : Notes place s t :=
    (Notes.of_eq rfl rfl).trans ((notes_closeGroups (s.addOps 2) place).trans (.of_eq rfl rfl))
  exact .ite _ (ht.trans (.of_eq rfl rfl)) (ht.noteIf _ .argumentExpected nofun)

theorem notes_colon : Notes place s (s.colon place) := by
  let t := { s.noteIf (s.openIfs ≠ 0) .ifOpenAtColon place with openIfs := 0 }
  have ht : Notes place s t :=
    (Notes.noteIf (.of_eq rfl rfl) _ .ifOpenAtColon nofun).trans (.of_eq rfl rfl)
  exact (ht.noteIf t.colonSeen .secondColon nofun).trans (.of_eq rfl rfl)

/-- The next statement begins behind the separator, whose complaints concern the one before. -/
theorem notes_separator (isColon : Bool) : ∃ u, Notes place s u ∧
    (s.separator isColon place).findings = u.findings ∧
    (s.separator isColon place).statement = place.stop := by
  have hend := notes_endOfStatement s place isColon
  cases isColon with
  | false => exact ⟨_, hend, rfl, rfl⟩
  | true => exact ⟨_, hend.trans (notes_colon _ _), rfl, rfl⟩

theorem notes_assign : Notes place s (s.assign place) := by
  let tally := { s.tally with loads := s.tally.loads - 1, stores := s.tally.stores + 1 }
  have ht : Notes place s { s with tally } := .of_eq rfl rfl
  exact (ht.noteIf (!s.assignable) .illegalAssignment nofun).trans (.of_eq rfl rfl)

theorem notes_modulus : Notes place s (s.modulus place) := by
  let t := { s with assignable := false }
  have ht : Notes place s t := .of_eq rfl rfl
  have ht' : Notes place s (t.addOps 1) := .of_eq rfl rfl
  have h : Notes place s (if t.bars.isUp then
        (t.addOps 1).noteIf t.wantsOperand .argumentExpected place
      else t.noteIf (!t.wantsOperand) .operatorExpected place) :=
    .ite _ (ht'.noteIf _ .argumentExpected nofun) (ht.noteIf _ .operatorExpected nofun)
  exact h.trans (.of_eq rfl rfl)

theorem notes_infixOperator : Notes place s (s.infixOperator place) := by
  let t := { s.addOps 1 with assignable := false }
  have ht : Notes place s t := .of_eq rfl rfl
  exact (ht.noteIf t.wantsOperand .argumentExpected nofun).trans (.of_eq rfl rfl)

theorem notes_operator (o : Operator) : ∃ u, Notes place s u ∧
    (s.operator o place).findings = u.findings ∧
    ((s.operator o place).statement = s.statement ∨
      (s.operator o place).statement = place.stop) := by
  have same {s' : State} (h : Notes place s s') : ∃ u, Notes place s u ∧ s'.findings = u.findings ∧
      (s'.statement = s.statement ∨ s'.statement = place.stop) :=
    ⟨s', h, rfl, .inl h.1⟩
  have next (isColon : Bool) : ∃ u, Notes place s u ∧
      (s.separator isColon place).findings = u.findings ∧
      ((s.separator isColon place).statement = s.statement ∨
        (s.separator isColon place).statement = place.stop) := by
    obtain ⟨u, hu, hfindings, hstatement⟩ := notes_separator s place isColon
    exact ⟨u, hu, hfindings, .inr hstatement⟩
  cases o with
  | comma => exact next false
  | colon => exact next true
  | assign => exact same (notes_assign s place)
  | modulus => exact same (notes_modulus s place)
  | minus => exact same (.of_eq rfl rfl)
  | caret => exact same ((notes_infixOperator s place).trans (.of_eq rfl rfl))
  | _ => exact same (notes_infixOperator s place)

/-- A token before the closing brace is complained about once at the most.  Only a separator moves
on to another statement, which begins behind it. -/
theorem notes_read {t : Token} (hend : t.kind ≠ .fault .endOfText) (hclose : t.kind ≠ .close) :
    ∃ u, Notes t.span s u ∧ (s.read t).findings = u.findings ∧
      ((s.read t).statement = s.statement ∨ (s.read t).statement = t.span.stop) := by
  have same {s' : State} (h : Notes t.span s s') : ∃ u, Notes t.span s u ∧
      s'.findings = u.findings ∧ (s'.statement = s.statement ∨ s'.statement = t.span.stop) :=
    ⟨s', h, rfl, .inl h.1⟩
  unfold State.read
  dsimp only
  split
  · exact same (.note (.of_eq rfl rfl) .negativeExponent nofun)
  have hu : Notes t.span s ({ s with afterCaret := false }.addChars t.size) := .of_eq rfl rfl
  generalize { s with afterCaret := false }.addChars t.size = u at hu
  cases hkind : t.kind with
  | fault f =>
    have hv : Notes t.span s { u with assignable := false } := hu.trans (.of_eq rfl rfl)
    refine same (hv.note _ ?_)
    cases f with
    | endOfText => exact absurd hkind hend
    | _ => exact nofun
  | leftParen => exact same (hu.trans (notes_leftParen u t.span))
  | rightParen => exact same (hu.trans (notes_rightParen u t.span))
  | builtin | user => exact same (hu.trans (notes_operand u t.span true))
  | number | pair => exact same (hu.trans (notes_operand u t.span false))
  | call => exact same (hu.trans (notes_call u t.span))
  | flow w => exact same (hu.trans (notes_flow u t.span w))
  | operator o =>
    obtain ⟨v, hv, hfindings, hstatement⟩ := notes_operator u t.span o
    exact ⟨v, hu.trans hv, hfindings, hu.1 ▸ hstatement⟩
  | close => exact absurd hkind hclose

/-! ## The closing brace -/

/-- The state at the closing brace, before the check asks for a missing operand and counts the
branches. -/
def State.atEnd (s : State) (place : Span) : State :=
  let s := (s.addOps 3).closeGroups place
  s.noteIf (s.openIfs ≠ 0) .ifOpenAtEnd place

theorem notes_atEnd : Notes place s (s.atEnd place) :=
  .noteIf ((Notes.of_eq rfl rfl).trans (notes_closeGroups (s.addOps 3) place)) _ .ifOpenAtEnd nofun

theorem noteIf_eq (b : Bool) (c : Complaint) :
    ∃ findings, s.noteIf b c place = { s with findings := findings } := by
  cases b with
  | false => exact ⟨_, rfl⟩
  | true =>
    rcases s.note_eq c place with ⟨-, heq⟩ | ⟨-, heq⟩
    · exact ⟨_, heq⟩
    · exact ⟨_, heq⟩

theorem atEnd_eq : ∃ findings, s.atEnd place = { s.addOps 3 with findings := findings } := by
  unfold State.atEnd State.closeGroups
  obtain ⟨fs, h⟩ := noteIf_eq (s.addOps 3) place ((s.addOps 3).openParens ≠ 0) .unclosedParen
  rw [h]
  obtain ⟨fs', h'⟩ := noteIf_eq { s.addOps 3 with findings := fs } place s.bars.anyUp .unmatchedModulus
  exact h' ▸ noteIf_eq { s.addOps 3 with findings := fs' } place (s.openIfs ≠ 0) .ifOpenAtEnd

theorem notes_close (h : (s.wantsOperand && !s.fresh) = false) : Notes place s (s.close place) := by
  have hclose : s.close place = (s.atEnd place).noteIf (jumpLimit ≤ (s.atEnd place).tally.jumps)
      .tooManyJumps place := by
    obtain ⟨fs, heq⟩ := atEnd_eq s place
    have hno : ((s.atEnd place).wantsOperand && !(s.atEnd place).fresh) = false := by rw [heq]; exact h
    exact congrArg (fun u : State => u.noteIf (jumpLimit ≤ u.tally.jumps) .tooManyJumps place)
      (if_neg (Bool.eq_false_iff.mp hno))
  rw [hclose]
  exact (notes_atEnd s place).noteIf _ .tooManyJumps nofun

/-- A statement whose last operand is missing ends behind the closing brace, so that the number of
branches is a matter of the next one. -/
theorem close_of_missing (h : (s.wantsOperand && !s.fresh) = true) :
    ∃ u, Notes place s u ∧ u.findings ≠ [] ∧ s.close place =
      { u with statement := place.stop }.noteIf (jumpLimit ≤ s.tally.jumps) .tooManyJumps place := by
  let u := (s.atEnd place).note .argumentExpected place
  refine ⟨u, (notes_atEnd s place).note .argumentExpected nofun, Keeps.note_ne_nil _ _ _, ?_⟩
  obtain ⟨fs, heq⟩ := atEnd_eq s place
  obtain ⟨fs', heq'⟩ := noteIf_eq (s.atEnd place) place true .argumentExpected
  have hyes : ((s.atEnd place).wantsOperand && !(s.atEnd place).fresh) = true := by rw [heq]; exact h
  have hjumps : u.tally.jumps = s.tally.jumps := by
    show ((s.atEnd place).noteIf true .argumentExpected place).tally.jumps = _
    rw [heq', heq]
    rfl
  rw [← hjumps]
  exact congrArg (fun v : State => v.noteIf (jumpLimit ≤ v.tally.jumps) .tooManyJumps place)
    (if_pos hyes)

/-! ## All that is noted -/

/-- What `s'` has noted more than `s` concerns the token at `place`, which does not end the text. -/
def Cites (place : Span) (s s' : State) : Prop :=
  ∃ more, s'.findings = s.findings ++ more ∧
    ∀ f ∈ more, f.span = place ∧ f.complaint ≠ .unexpectedEnd

variable {s place}

theorem Notes.cites {s' : State} (h : Notes place s s') : Cites place s s' := by
  rcases h.2 with hf | ⟨-, c, hc, hf⟩
  · exact ⟨[], hf.trans (List.append_nil _).symm, nofun⟩
  · refine ⟨_, hf, fun f hmem => ?_⟩
    rw [List.mem_singleton.mp hmem]
    exact ⟨rfl, hc⟩

theorem Cites.trans {s' s'' : State} (h : Cites place s s') (h' : Cites place s' s'') :
    Cites place s s'' := by
  obtain ⟨more, hs, hmore⟩ := h
  obtain ⟨more', hs', hmore'⟩ := h'
  refine ⟨more ++ more', by rw [hs', hs, List.append_assoc], fun f hf => ?_⟩
  exact (List.mem_append.mp hf).elim (hmore f) (hmore' f)

theorem read_of_close {t : Token} (hclose : t.kind = .close) :
    s.read t = ({ s with afterCaret := false }.addChars t.size).close t.span := by
  cases h : s.afterCaret <;> simp [State.read, hclose]

/-- What is noted over a token stands where the token does. -/
theorem cites_read {t : Token} (hend : t.kind ≠ .fault .endOfText) : Cites t.span s (s.read t) := by
  by_cases hclose : t.kind = .close
  · let u := { s with afterCaret := false }.addChars t.size
    rw [read_of_close hclose]
    have hu : Cites t.span s u := Notes.cites (.of_eq rfl rfl)
    refine hu.trans ?_
    cases h : u.wantsOperand && !u.fresh with
    | false => exact (notes_close u t.span h).cites
    | true =>
      obtain ⟨v, hv, -, heq⟩ := close_of_missing u t.span h
      rw [heq]
      have hmoved : Cites t.span u { v with statement := t.span.stop } := hv.cites
      exact hmoved.trans (Notes.noteIf (.of_eq rfl rfl) _ .tooManyJumps nofun).cites
  · obtain ⟨u, hu, hfindings, -⟩ := notes_read s hend hclose
    have hcites : Cites t.span s u := hu.cites
    unfold Cites at hcites ⊢
    rwa [hfindings]

/-- What the check finds it finds at a token that it has read, and only at the end of the text that
the text has ended. -/
theorem span_of_run {tokens : List Token} : ∀ {s : State} {findings : List Finding},
    run s tokens = .error findings → ∀ f ∈ findings, f ∈ s.findings ∨
      ∃ t ∈ tokens, f.span = t.span ∧
        (f.complaint = .unexpectedEnd → t.kind = .fault .endOfText) := by
  have verdict {s : State} {findings : List Finding} (h : s.verdict = .error findings) :
      s.findings = findings := by
    unfold State.verdict at h
    split at h
    · cases h
    · exact Except.error.inj h
  induction tokens with
  | nil => exact fun h f hf => .inl (verdict h ▸ hf)
  | cons t rest ih =>
    intro s findings h f hf
    rw [run] at h
    by_cases hend : t.kind = .fault .endOfText
    · rw [if_pos hend] at h
      obtain rfl := Except.error.inj h
      rw [List.mem_singleton.mp hf]
      exact .inr ⟨t, List.mem_cons_self, rfl, fun _ => hend⟩
    · rw [if_neg hend] at h
      have hread : f ∈ (s.read t).findings → f ∈ s.findings ∨ ∃ u ∈ t :: rest,
          f.span = u.span ∧ (f.complaint = .unexpectedEnd → u.kind = .fault .endOfText) := by
        intro hf
        obtain ⟨more, hsplit, hmore⟩ := cites_read (s := s) hend
        rw [hsplit] at hf
        refine (List.mem_append.mp hf).imp_right fun hf => ?_
        exact ⟨t, List.mem_cons_self, (hmore f hf).1, fun h => absurd h (hmore f hf).2⟩
      dsimp only at h
      split at h
      · exact hread (verdict h ▸ hf)
      · rcases ih h f hf with hf | ⟨u, hu, hspan⟩
        · exact hread hf
        · exact .inr ⟨u, List.mem_cons_of_mem _ hu, hspan⟩

end Check

/-- Everything that is found in a body with a closing brace stands in it, and the text does not seem
to end, unless an ill-formed number takes the brace in. -/
theorem findings_within {text : String} {offset n : Nat}
    (hbrace : Text.closingBrace? text offset = some n)
    (hnumber : ∀ t ∈ Token.stream (Cursor.seek text offset),
      t.kind = .fault .malformedNumber → t.span.stop ≠ n + 1)
    {findings : List Finding} (h : check text offset = .error findings) :
    ∀ f ∈ findings, offset ≤ f.span.start ∧ f.span.stop ≤ n + 1 ∧
      f.complaint ≠ .unexpectedEnd := by
  intro f hf
  rcases Check.span_of_run h f hf with hnone | ⟨t, ht, hspan, hend⟩
  · cases hnone
  · obtain ⟨hstart, hstop, hkind⟩ := Token.stream_to_brace hbrace hnumber t ht
    rw [hspan]
    exact ⟨hstart, hstop, fun hf => hkind (hend hf)⟩

theorem findings_within_two : ∃ text n findings, Text.closingBrace? text 3 = some n ∧
    check text 3 = .error findings ∧ findings.length = 2 ∧
      ∀ f ∈ findings, 3 ≤ f.span.start ∧ f.span.stop ≤ n + 1 ∧ f.complaint ≠ .unexpectedEnd := by
  let text := "a \x7b\nz=1..2,c=(z\n\x7d\nb \x7b\nz=z\n\x7d"
  let findings : List Finding := [⟨.malformedNumber, 4, ⟨6, 9⟩⟩, ⟨.unclosedParen, 11, ⟨15, 17⟩⟩]
  have hstream : Token.stream (Cursor.seek text 3) = Token.firstTokens 40 (Cursor.seek text 3) :=
    Token.stream_eq_firstTokens (by decide +kernel)
  have h : check text 3 = .error findings := by
    rw [check, hstream]
    decide +kernel
  have hbrace : Text.closingBrace? text 3 = some 16 := by decide +kernel
  have hnumber : ∀ t ∈ Token.stream (Cursor.seek text 3),
      t.kind = .fault .malformedNumber → t.span.stop ≠ 16 + 1 := by
    rw [hstream]
    decide +kernel
  exact ⟨text, 16, findings, hbrace, h, rfl, findings_within hbrace hnumber h⟩

/-- The point takes the brace in, and the check goes on in the next entry. -/
theorem exists_finding_beyond : ∃ text e next n findings, Entry.list text = [e, next] ∧
    Text.closingBrace? text e.bodyStart = some n ∧ check text e.bodyStart = .error findings ∧
      ∃ f ∈ findings, next.start < f.span.start := by
  let text := "a \x7b\nz=.\x7d\nb \x7b\nz=z\n\x7d"
  let findings : List Finding :=
    [⟨.malformedNumber, 4, ⟨6, 8⟩⟩, ⟨.illegalCharacter, 9, ⟨11, 12⟩⟩]
  have hstream : Token.stream (Cursor.seek text 3) = Token.firstTokens 40 (Cursor.seek text 3) :=
    Token.stream_eq_firstTokens (by decide +kernel)
  have h : check text 3 = .error findings := by
    rw [check, hstream]
    decide +kernel
  have hlist : Entry.list text = [⟨"a", 0, 3⟩, ⟨"b", 9, 12⟩] := by decide +kernel
  exact ⟨text, _, _, 7, findings, hlist, by decide +kernel, h, _,
    List.mem_cons_of_mem _ List.mem_cons_self, by decide⟩

end FractalFormula
