/-
Two checks of the same tokens in different places.

What the check does depends on how its tokens are spelled; where they stand only tells the statements
apart.  So two checks of tokens that are spelled the same stay `Check.Parallel`: they count the same,
but for what one was ahead at first, and they note the same complaints
(`Check.complaints_run`).
-/
import FractalFormula.Proofs.Balance
import FractalFormula.Proofs.Letters
import FractalFormula.Proofs.Onward

namespace FractalFormula

/-- The tally of a check that was ahead by `ops` and `chars` at first. -/
def Tally.ahead (t : Tally) (ops chars : Nat) : Tally :=
  { t with ops := ops + t.ops, chars := chars + t.chars }

namespace Check

/-- How far the second of two checks is ahead, and where the tokens end that the two are reading. -/
structure Distance where
  ops : Nat
  chars : Nat
  stop : Nat
  stop' : Nat

/-- Past the ends of the tokens. -/
def Distance.past (d : Distance) : Distance :=
  { d with stop := d.stop + 1, stop' := d.stop' + 1 }

namespace State

/-- The last complaint concerns the current statement. -/
def Noted (s : State) : Prop :=
  ∃ f, s.findings.getLast? = some f ∧ f.statement = s.statement

/-- Everything that has been noted, and the current statement, begins before `stop`. -/
def Before (stop : Nat) (s : State) : Prop :=
  s.statement < stop ∧ ∀ f ∈ s.findings, f.statement < stop

/-- A state of a check that is ahead, with what that check has noted. -/
def moved (s : State) (d : Distance) (findings : List Finding) (statement : Nat) : State :=
  { s with tally := s.tally.ahead d.ops d.chars, findings, statement }

variable {s : State} {stop : Nat}

theorem Before.mono {stop' : Nat} (h : s.Before stop) (hle : stop ≤ stop') : s.Before stop' :=
  ⟨Nat.lt_of_lt_of_le h.1 hle, fun f hf => Nat.lt_of_lt_of_le (h.2 f hf) hle⟩

/-- One more complaint, unless the statement has one. -/
theorem note_eq (s : State) (c : Complaint) (place : Span) :
    s.Noted ∧ s.note c place = s ∨
      ¬s.Noted ∧ s.note c place =
        { s with findings := s.findings ++ [⟨c, s.statement, place⟩] } := by
  unfold note
  cases hlast : s.findings.getLast? with
  | none =>
    refine .inr ⟨fun ⟨f, hf, _⟩ => ?_, ?_⟩
    · rw [hlast] at hf
      cases hf
    · dsimp only
      rw [List.getLast?_eq_none_iff.mp hlast]
      rfl
  | some f =>
    dsimp only
    split
    · rename_i heq
      exact .inl ⟨⟨f, hlast, heq⟩, rfl⟩
    · rename_i hne
      refine .inr ⟨fun ⟨g, hg, heq⟩ => hne ?_, rfl⟩
      obtain rfl := Option.some.inj (hlast.symm.trans hg)
      exact heq

theorem noted_concat (s : State) (c : Complaint) (place : Span) :
    Noted { s with findings := s.findings ++ [⟨c, s.statement, place⟩] } :=
  ⟨_, List.getLast?_concat, rfl⟩

theorem Before.note (h : s.Before stop) (c : Complaint) (place : Span) :
    (s.note c place).Before stop := by
  rcases s.note_eq c place with ⟨-, heq⟩ | ⟨-, heq⟩
  · rwa [heq]
  · rw [heq]
    refine ⟨h.1, fun f hf => ?_⟩
    rcases List.mem_append.mp hf with hf | hf
    · exact h.2 f hf
    · rw [List.mem_singleton.mp hf]
      exact h.1

/-- At a new statement nothing has been noted. -/
theorem not_noted_of_lt (h : ∀ f ∈ s.findings, f.statement < s.statement) : ¬s.Noted := by
  rintro ⟨f, hf, heq⟩
  exact Nat.ne_of_lt (h f (List.mem_of_getLast? hf)) heq

end State

/-- The second check has read tokens that are spelled like those of the first. -/
structure Parallel (d : Distance) (s s' : State) : Prop where
  moved : ∃ findings statement, s' = s.moved d findings statement
  complaints : s'.findings.map Finding.complaint = s.findings.map Finding.complaint
  noted : s'.Noted ↔ s.Noted
  before : s.Before d.stop
  before' : s'.Before d.stop'

/-- A value that does not depend on how far ahead a check is, nor on what it has noted. -/
def Steady {α : Type} (f : State → α) : Prop :=
  ∀ (s : State) (d : Distance) (findings : List Finding) (statement : Nat),
    f (s.moved d findings statement) = f s

/-- A step that counts on from where a check is, and notes nothing. -/
def Quiet (f : State → State) : Prop :=
  ∀ (s : State) (d : Distance) (findings : List Finding) (statement : Nat),
    f (s.moved d findings statement) = (f s).moved d findings statement

namespace Quiet

variable {f : State → State}

theorem moved_eq (s : State) (n n' : Nat) : s.moved ⟨0, 0, n, n'⟩ s.findings s.statement = s := by
  simp only [State.moved, Tally.ahead, Nat.zero_add]

theorem findings (h : Quiet f) (s : State) : (f s).findings = s.findings := by
  have hmoved := h s ⟨0, 0, 0, 0⟩ s.findings s.statement
  rw [moved_eq] at hmoved
  rw [hmoved]
  rfl

theorem statement (h : Quiet f) (s : State) : (f s).statement = s.statement := by
  have hmoved := h s ⟨0, 0, 0, 0⟩ s.findings s.statement
  rw [moved_eq] at hmoved
  rw [hmoved]
  rfl

end Quiet

namespace Parallel

variable {d : Distance} {s s' t t' u u' : State} {p q : Span}

theorem steady (h : Parallel d s s') {α : Type} {f : State → α} (hf : Steady f) : f s' = f s := by
  obtain ⟨findings, statement, rfl⟩ := h.moved
  exact hf s d findings statement

theorem map (h : Parallel d s s') (f : State → State) (hf : Quiet f) :
    Parallel d (f s) (f s') := by
  obtain ⟨findings, statement, hmoved⟩ := h.moved
  refine ⟨⟨findings, statement, by rw [hmoved, hf]⟩, ?_, ?_, ?_, ?_⟩
  · rw [hf.findings, hf.findings]
    exact h.complaints
  · rw [State.Noted, State.Noted, hf.findings, hf.findings, hf.statement, hf.statement]
    exact h.noted
  · rw [State.Before, hf.findings, hf.statement]
    exact h.before
  · rw [State.Before, hf.findings, hf.statement]
    exact h.before'

theorem note (h : Parallel d s s') (c : Complaint) (p q : Span) :
    Parallel d (s.note c p) (s'.note c q) := by
  have hbefore := h.before.note c p
  have hbefore' := h.before'.note c q
  obtain ⟨findings, statement, hmoved⟩ := h.moved
  rcases s.note_eq c p with ⟨hnoted, heq⟩ | ⟨hnoted, heq⟩
  · rcases s'.note_eq c q with ⟨-, heq'⟩ | ⟨hnoted', -⟩
    · rwa [heq, heq']
    · exact absurd (h.noted.mpr hnoted) hnoted'
  · rcases s'.note_eq c q with ⟨hnoted', -⟩ | ⟨-, heq'⟩
    · exact absurd (h.noted.mp hnoted') hnoted
    · rw [heq] at hbefore ⊢
      rw [heq'] at hbefore' ⊢
      refine ⟨⟨_, statement, by rw [hmoved]; rfl⟩, ?_, ?_, hbefore, hbefore'⟩
      · rw [List.map_append, List.map_append, h.complaints]
        rfl
      · exact iff_of_true (s'.noted_concat c q) (s.noted_concat c p)

theorem noteIf (h : Parallel d s s') (b : State → Bool) (c : Complaint) (p q : Span)
    (hb : Steady b) :
    Parallel d (s.noteIf (b s) c p) (s'.noteIf (b s') c q) := by
  rw [h.steady hb]
  cases b s with
  | false => exact h
  | true => exact h.note c p q

theorem ite (h : Parallel d s s') (b : State → Prop) [DecidablePred b] (ht : Parallel d t t')
    (hu : Parallel d u u') (hb : Steady b) :
    Parallel d (if b s then t else u) (if b s' then t' else u') := by
  have heq : b s' = b s := h.steady hb
  by_cases hs : b s
  · rw [if_pos hs, if_pos (heq ▸ hs)]
    exact ht
  · rw [if_neg hs, if_neg (heq ▸ hs)]
    exact hu

theorem within (h : Parallel d s s') {stop stop' : Nat} (hle : d.stop ≤ stop)
    (hle' : d.stop' ≤ stop') : Parallel { d with stop, stop' } s s' :=
  ⟨h.moved, h.complaints, h.noted, h.before.mono hle, h.before'.mono hle'⟩

theorem past (h : Parallel d s s') : Parallel d.past s s' :=
  h.within (Nat.le_succ _) (Nat.le_succ _)

/-- A new statement begins at the ends of the tokens. -/
theorem begin (h : Parallel d s s') :
    Parallel d.past { s with statement := d.stop } { s' with statement := d.stop' } := by
  obtain ⟨findings, statement, hmoved⟩ := h.moved
  have hnoted : ¬{ s with statement := d.stop }.Noted := State.not_noted_of_lt h.before.2
  have hnoted' : ¬{ s' with statement := d.stop' }.Noted := State.not_noted_of_lt h.before'.2
  have later {n : Nat} {s : State} (h : s.Before n) : { s with statement := n }.Before (n + 1) :=
    ⟨Nat.lt_succ_self n, fun f hf => Nat.lt_succ_of_lt (h.2 f hf)⟩
  exact ⟨⟨findings, d.stop', by rw [hmoved]; rfl⟩, h.complaints, iff_of_false hnoted' hnoted,
    later h.before, later h.before'⟩

theorem addOps (h : Parallel d s s') (n : Nat) : Parallel d (s.addOps n) (s'.addOps n) := by
  refine h.map (·.addOps n) fun s d findings statement => ?_
  simp only [State.addOps, State.moved, Tally.ahead, Nat.add_assoc]

theorem addChars (h : Parallel d s s') (n : Nat) : Parallel d (s.addChars n) (s'.addChars n) := by
  refine h.map (·.addChars n) fun s d findings statement => ?_
  simp only [State.addChars, State.moved, Tally.ahead, Nat.add_assoc]

theorem leftParen (h : Parallel d s s') : Parallel d (s.leftParen p) (s'.leftParen q) := by
  have ht := h.map
    (fun s => { s with assignable := false, fresh := false, openParens := s.openParens + 1 })
    fun _ _ _ _ => rfl
  have hextra := ht.noteIf (!·.wantsOperand) .operatorExpected p q fun _ _ _ _ => rfl
  have hu := ht.ite (parenLimit < ·.openParens) (ht.note .nestingTooDeep p q) hextra
    fun _ _ _ _ => rfl
  have hv := hu.map (fun s => { s with bars := s.bars.enter }) fun _ _ _ _ => rfl
  exact hv

theorem rightParen (h : Parallel d s s') : Parallel d (s.rightParen p) (s'.rightParen q) := by
  have ht := h.map (fun s => { s with assignable := false, fresh := false }) fun _ _ _ _ => rfl
  have hclosed := ht.map (fun s => { s with openParens := s.openParens - 1 }) fun _ _ _ _ => rfl
  have hu := ht.ite (·.openParens = 0) (ht.note .unopenedParen p q) hclosed fun _ _ _ _ => rfl
  have hleft := hu.map (fun s => { s with bars := s.bars.leave }) fun _ _ _ _ => rfl
  have hv := hu.ite (·.bars.isUp = true) (hu.note .unmatchedModulus p q) hleft fun _ _ _ _ => rfl
  exact hv.noteIf (·.wantsOperand) .argumentExpected p q fun _ _ _ _ => rfl

theorem operand (h : Parallel d s s') (isVariable : Bool) :
    Parallel d (s.operand isVariable p) (s'.operand isVariable q) := by
  have ht := h.map
    (fun s => { s.addOps 1 with assignable := s.assignable && isVariable, fresh := false })
    fun _ _ _ _ => rfl
  have hu := ht.map (fun s => { s with tally := { s.tally with loads := s.tally.loads + 1 } })
    fun _ _ _ _ => rfl
  have hv := hu.noteIf (!·.wantsOperand) .operatorExpected p q fun _ _ _ _ => rfl
  have hw := hv.map (fun s => { s with wantsOperand := false }) fun _ _ _ _ => rfl
  exact hw

theorem call (h : Parallel d s s') : Parallel d (s.call p) (s'.call q) := by
  have ht := h.map (fun s => { s.addOps 1 with assignable := false, fresh := false })
    fun _ _ _ _ => rfl
  exact ht.noteIf (!·.wantsOperand) .operatorExpected p q fun _ _ _ _ => rfl

theorem branch (h : Parallel d s s') : Parallel d (s.branch p) (s'.branch q) := by
  have ht := h.noteIf (decide <| ·.openIfs = 0) .misplacedElse p q fun _ _ _ _ => rfl
  exact h.ite (·.elses.isUp = true) (h.note .endIfExpected p q) ht fun _ _ _ _ => rfl

theorem flow (h : Parallel d s s') (w : FlowWord) : Parallel d (s.flow w p) (s'.flow w q) := by
  have ht := h.map (fun s => { (s.addOps 1).addJumps 1 with assignable := false })
    fun _ _ _ _ => rfl
  have hu := ht.map (fun s => { s with tally := { s.tally with usesJump := true } })
    fun _ _ _ _ => rfl
  refine ht.ite (fun s => (!s.fresh) = true) (ht.note .jumpNotFirst p q) ?_ fun _ _ _ _ => rfl
  cases w with
  | «if» =>
    have hv := hu.map (fun s => { s with elses := s.elses.enter, openIfs := s.openIfs + 1 })
      fun _ _ _ _ => rfl
    exact hv
  | elseIf =>
    have hv := hu.map (fun s => (s.addOps 3).addJumps 1) fun _ _ _ _ => rfl
    exact hv.branch
  | «else» =>
    have hv := (hu.branch (p := p) (q := q)).map (fun s => { s with elses := s.elses.set true })
      fun _ _ _ _ => rfl
    exact hv
  | endIf =>
    have hv := hu.map (fun s => { s with elses := s.elses.leave }) fun _ _ _ _ => rfl
    have hw := hv.map (fun s => { s with openIfs := s.openIfs - 1 }) fun _ _ _ _ => rfl
    exact hv.ite (·.openIfs = 0) (hv.note .endIfWithoutIf p q) hw fun _ _ _ _ => rfl

theorem closeGroups (h : Parallel d s s') : Parallel d (s.closeGroups p) (s'.closeGroups q) := by
  have ht := h.noteIf (decide <| ·.openParens ≠ 0) .unclosedParen p q fun _ _ _ _ => rfl
  exact ht.noteIf (·.bars.anyUp) .unmatchedModulus p q fun _ _ _ _ => rfl

theorem endOfStatement (h : Parallel d s s') (isColon : Bool) :
    Parallel d (endOfStatement s isColon p) (endOfStatement s' isColon q) := by
  have ht := (h.addOps 2).closeGroups (p := p) (q := q)
  have hu := ht.map (fun s => { s with openParens := 0, bars := .flat }) fun _ _ _ _ => rfl
  have hmissing := hu.noteIf (!·.fresh) .argumentExpected p q fun _ _ _ _ => rfl
  exact hu.ite (fun s => (!s.wantsOperand) = true) (hu.addOps (if isColon then 2 else 1)) hmissing
    fun _ _ _ _ => rfl

theorem colon (h : Parallel d s s') : Parallel d (s.colon p) (s'.colon q) := by
  have ht := h.noteIf (decide <| ·.openIfs ≠ 0) .ifOpenAtColon p q fun _ _ _ _ => rfl
  have hu := ht.map (fun s => { s with openIfs := 0 }) fun _ _ _ _ => rfl
  have hv := hu.noteIf (·.colonSeen) .secondColon p q fun _ _ _ _ => rfl
  have hw := hv.map (fun s => { s with colonSeen := true }) fun _ _ _ _ => rfl
  exact hw

theorem separator (h : Parallel d s s') (isColon : Bool) (hp : p.stop = d.stop)
    (hq : q.stop = d.stop') :
    Parallel d.past (s.separator isColon p) (s'.separator isColon q) := by
  let opened (s : State) (statement : Nat) : State :=
    { s with fresh := true, wantsOperand := true, assignable := true, statement }
  have next {t t' : State} (h : Parallel d t t') :
      Parallel d.past (opened t p.stop) (opened t' q.stop) := by
    have ht := h.map (fun s => { s with fresh := true, wantsOperand := true, assignable := true })
      fun _ _ _ _ => rfl
    rw [hp, hq]
    exact ht.begin
  have hend := h.endOfStatement (p := p) (q := q) isColon
  cases isColon with
  | false => exact next hend
  | true => exact next hend.colon

theorem assign (h : Parallel d s s') : Parallel d (s.assign p) (s'.assign q) := by
  let stored (s : State) : State :=
    { s with tally := { s.tally with loads := s.tally.loads - 1, stores := s.tally.stores + 1 } }
  have ht := h.map stored fun _ _ _ _ => rfl
  have hu := ht.noteIf (!·.assignable) .illegalAssignment p q fun _ _ _ _ => rfl
  have hv := hu.map (fun s => { s with wantsOperand := true }) fun _ _ _ _ => rfl
  exact hv

theorem modulus (h : Parallel d s s') : Parallel d (s.modulus p) (s'.modulus q) := by
  have ht := h.map (fun s => { s with assignable := false }) fun _ _ _ _ => rfl
  have hclosed := (ht.addOps 1).noteIf (·.wantsOperand) .argumentExpected p q fun _ _ _ _ => rfl
  have hopened := ht.noteIf (!·.wantsOperand) .operatorExpected p q fun _ _ _ _ => rfl
  have hu := ht.ite (·.bars.isUp = true) hclosed hopened fun _ _ _ _ => rfl
  have hv := hu.map (fun s => { s with bars := s.bars.toggle }) fun _ _ _ _ => rfl
  exact hv

theorem infixOperator (h : Parallel d s s') :
    Parallel d (s.infixOperator p) (s'.infixOperator q) := by
  have ht := h.map (fun s => { s.addOps 1 with assignable := false }) fun _ _ _ _ => rfl
  have hu := ht.noteIf (·.wantsOperand) .argumentExpected p q fun _ _ _ _ => rfl
  have hv := hu.map (fun s => { s with wantsOperand := true }) fun _ _ _ _ => rfl
  exact hv

theorem operator (h : Parallel d s s') (o : Operator) (hp : p.stop = d.stop)
    (hq : q.stop = d.stop') : Parallel d.past (s.operator o p) (s'.operator o q) := by
  cases o with
  | comma => exact h.separator false hp hq
  | colon => exact h.separator true hp hq
  | assign => exact h.assign.past
  | modulus => exact h.modulus.past
  | minus =>
    have ht := h.map (fun s => { s.addOps 1 with assignable := false, wantsOperand := true })
      fun _ _ _ _ => rfl
    exact ht.past
  | caret =>
    have ht := (h.infixOperator (p := p) (q := q)).map (fun s => { s with afterCaret := true })
      fun _ _ _ _ => rfl
    exact ht.past
  | _ => exact h.infixOperator.past

theorem close (h : Parallel d s s') (hp : p.stop = d.stop) (hq : q.stop = d.stop') :
    Parallel d.past (s.close p) (s'.close q) := by
  have ht := (h.addOps 3).closeGroups (p := p) (q := q)
  have hu := ht.noteIf (decide <| ·.openIfs ≠ 0) .ifOpenAtEnd p q fun _ _ _ _ => rfl
  have hmissing : Parallel d.past _ _ := hp ▸ hq ▸ (hu.note .argumentExpected p q).begin
  have hv := hu.past.ite (fun s => (s.wantsOperand && !s.fresh) = true) hmissing hu.past
    fun _ _ _ _ => rfl
  exact hv.noteIf (decide <| jumpLimit ≤ ·.tally.jumps) .tooManyJumps p q fun _ _ _ _ => rfl

/-- Tokens that are spelled the same do the same. -/
theorem take (h : Parallel d s s') (l : Lexeme) (size : Nat) (hp : p.stop = d.stop)
    (hq : q.stop = d.stop') : Parallel d.past (s.take l size p) (s'.take l size q) := by
  have hcaret := h.map (fun s => { s with afterCaret := false }) fun _ _ _ _ => rfl
  refine h.past.ite (fun s => (s.afterCaret && l == .operator .minus) = true)
    (hcaret.note .negativeExponent p q).past ?_ fun _ _ _ _ => rfl
  have ht := hcaret.addChars size
  cases l with
  | fault f =>
    have hu := ht.map (fun s => { s with assignable := false }) fun _ _ _ _ => rfl
    have hv := hu.note (.ofFault f) p q
    exact hv.past
  | leftParen => exact ht.leftParen.past
  | rightParen => exact ht.rightParen.past
  | name => exact (ht.operand true).past
  | literal => exact (ht.operand false).past
  | call => exact ht.call.past
  | flow w => exact (ht.flow w).past
  | operator o => exact ht.operator o hp hq
  | close => exact ht.close hp hq

end Parallel

/-! ## Whole runs -/

theorem lexeme_of_spelling {t t' : Token} (h : t.spelling = t'.spelling) :
    t.lexeme = t'.lexeme := by
  obtain ⟨text, kind, span⟩ := t
  obtain ⟨text', kind', span'⟩ := t'
  cases h
  rfl

theorem size_of_spelling {t t' : Token} (h : t.spelling = t'.spelling) : t.size = t'.size := by
  have htext : t.text = t'.text := congrArg Prod.fst h
  rw [Token.size, Token.size, htext]

/-- What has been complained about, without the places. -/
def complaints (r : Except (List Finding) Tally) : Except (List Complaint) Tally :=
  r.mapError (·.map Finding.complaint)

theorem complaints_verdict {d : Distance} {s s' : State} (h : Parallel d s s') :
    complaints s'.verdict = (complaints s.verdict).map (·.ahead d.ops d.chars) := by
  obtain ⟨findings, statement, hmoved⟩ := h.moved
  have htally : s'.tally = s.tally.ahead d.ops d.chars := by
    rw [hmoved]
    rfl
  have hempty : s'.findings.isEmpty = s.findings.isEmpty := by
    rw [← List.isEmpty_map (f := Finding.complaint), h.complaints, List.isEmpty_map]
  unfold State.verdict
  rw [hempty]
  split
  · exact congrArg Except.ok htally
  · exact congrArg Except.error h.complaints

/-- The checks of tokens that are spelled the same end alike. -/
theorem complaints_run {ops chars : Nat} {tokens : List Token} : ∀ {tokens' : List Token}
    {n n' : Nat} {s s' : State}, tokens.map Token.spelling = tokens'.map Token.spelling →
    Token.Rising n tokens → Token.Rising n' tokens' → Parallel ⟨ops, chars, n + 1, n' + 1⟩ s s' →
    complaints (run s' tokens') = (complaints (run s tokens)).map (·.ahead ops chars) := by
  induction tokens with
  | nil =>
    intro tokens' n n' s s' htokens _ _ h
    obtain rfl := List.map_eq_nil_iff.mp htokens.symm
    have hend := complaints_verdict h
    exact hend
  | cons t rest ih =>
    intro tokens' n n' s s' htokens hrising hrising' h
    obtain ⟨t', rest', rfl, ht, hrest⟩ := List.map_eq_cons_iff.mp htokens.symm
    have hkind : t'.kind = t.kind := congrArg Prod.snd ht
    rw [run, run, hkind]
    by_cases hend : t.kind = .fault .endOfText
    · rw [if_pos hend, if_pos hend]
      rfl
    · rw [if_neg hend, if_neg hend]
      obtain ⟨hlt, hrising⟩ := hrising.resolve_left hend
      obtain ⟨hlt', hrising'⟩ := hrising'.resolve_left (hkind ▸ hend)
      have hread : Parallel ⟨ops, chars, t.span.stop + 1, t'.span.stop + 1⟩ (s.read t)
          (s'.read t') := by
        rw [State.read_eq_take, State.read_eq_take, lexeme_of_spelling ht, size_of_spelling ht]
        have htake := (h.within hlt hlt').take t.lexeme t.size (p := t.span) (q := t'.span)
        exact htake rfl rfl
      have hlength : (s'.read t').findings.length = (s.read t).findings.length := by
        rw [← List.length_map (f := Finding.complaint), hread.complaints, List.length_map]
      dsimp only
      rw [hlength]
      split
      · have hend := complaints_verdict hread
        exact hend
      · exact ih hrest.symm hrising hrising' hread

end Check
end FractalFormula
