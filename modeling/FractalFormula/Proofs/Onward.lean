/-
Reading goes on.

Every reader leaves the place it began at by passing letters or by giving up at the end of the text
(`Token.onward_read`), and the next token is read where it stopped (`Token.Reads`).  The letters of a
text are in order, so each token ends behind the end of the one before it (`Token.rising_stream`).
-/
import FractalFormula.Proofs.Brace

namespace FractalFormula

namespace Letter

/-- The letters, which come behind the offset `pos`, are in order, and the text ends at `stop`. -/
def Ordered (stop : Nat) : Nat → List Letter → Prop
  | pos, [] => pos ≤ stop
  | pos, l :: ls => pos ≤ l.offset ∧ Ordered stop l.after ls

theorem Ordered.mono {stop pos pos' : Nat} {ls : List Letter} (h : Ordered stop pos' ls)
    (hle : pos ≤ pos') : Ordered stop pos ls := by
  cases ls with
  | nil => exact Nat.le_trans hle h
  | cons l ls => exact ⟨Nat.le_trans hle h.1, h.2⟩

theorem Ordered.pos_le {stop pos : Nat} {ls : List Letter} (h : Ordered stop pos ls) :
    pos ≤ stop := by
  induction ls generalizing pos with
  | nil => exact h
  | cons l ls ih => exact Nat.le_trans (Nat.le_succ_of_le h.1) (ih h.2)

theorem ordered_listFrom (bs : List UInt8) (joined comment : Bool) (offset : Nat) :
    Ordered (offset + bs.length) offset (listFrom joined comment offset bs) := by
  induction bs generalizing joined comment offset with
  | nil => exact Nat.le_refl _
  | cons b bs ih =>
    have hlength : offset + (b :: bs).length = offset + 1 + bs.length := by
      rw [List.length_cons]
      omega
    have next (joined comment : Bool) :
        Ordered (offset + (b :: bs).length) (offset + 1)
          (listFrom joined comment (offset + 1) bs) :=
      hlength ▸ ih joined comment (offset + 1)
    have skip (joined comment : Bool) := (next joined comment).mono (Nat.le_succ offset)
    unfold listFrom
    dsimp only
    repeat' split
    · exact skip _ _
    · exact ⟨Nat.le_refl _, next _ _⟩
    · exact skip _ _
    · exact skip _ _
    · exact skip _ _
    · exact skip _ _
    · exact ⟨Nat.le_refl _, next _ _⟩

end Letter

namespace Cursor

/-- The letters ahead come behind the place, in order, and before the end of the text. -/
def Ordered (c : Cursor) : Prop :=
  Letter.Ordered c.stop c.pos c.ahead

theorem seek_of_le {text : String} {offset : Nat} (h : offset ≤ (Text.bytes text).length) :
    seek text offset = ⟨offset, Letter.listFrom false false offset ((Text.bytes text).drop offset),
      (Text.bytes text).length⟩ := by
  rw [seek, Nat.min_eq_left h]

/-- Behind a text there are no letters. -/
theorem ahead_seek_of_le {text : String} {offset : Nat} (h : (Text.bytes text).length ≤ offset) :
    (seek text offset).ahead = [] := by
  rw [seek, Nat.min_eq_right h, List.drop_length]
  rfl

theorem ordered_seek (text : String) (offset : Nat) : (seek text offset).Ordered := by
  let pos := min offset (Text.bytes text).length
  have h := Letter.ordered_listFrom ((Text.bytes text).drop pos) false false pos
  have hstop : pos + ((Text.bytes text).drop pos).length = (Text.bytes text).length := by
    rw [List.length_drop]
    exact Nat.add_sub_cancel' (Nat.min_le_right _ _)
  rw [hstop] at h
  exact h

/-- From `c` to `c'` letter by letter, or over all that is left. -/
inductive Onward : Cursor → Cursor → Prop
  | refl (c : Cursor) : Onward c c
  | step {c c' : Cursor} {l : Letter} {rest : List Letter} : c.ahead = l :: rest →
    Onward (c.past l rest) c' → Onward c c'
  | finish (c : Cursor) : Onward c c.finished

namespace Onward

variable {c c' d : Cursor} {l : Letter} {rest : List Letter}

theorem past (hc : c.ahead = l :: rest) : Onward c (c.past l rest) :=
  .step hc (.refl _)

theorem trans (h : Onward c d) (h' : Onward d c') : Onward c c' := by
  induction h with
  | refl => exact h'
  | step hc _ ih => exact .step hc (ih h')
  | finish c =>
    generalize hd : c.finished = d at h'
    induction h' with
    | refl => exact hd ▸ .finish c
    | step hc => exact absurd (hd ▸ hc) nofun
    | finish => exact hd ▸ .finish c

theorem ordered (h : Onward c c') (hc : c.Ordered) :
    c.pos ≤ c'.pos ∧ c'.Ordered ∧ c'.stop = c.stop := by
  induction h with
  | refl => exact ⟨Nat.le_refl _, hc, rfl⟩
  | step hahead _ ih =>
    rw [Ordered, hahead] at hc
    obtain ⟨hle, hordered, hstop⟩ := ih hc.2
    exact ⟨Nat.le_trans (Nat.le_succ_of_le hc.1) hle, hordered, hstop⟩
  | finish => exact ⟨hc.pos_le, Nat.le_refl _, rfl⟩

/-- What is ahead later is ahead now. -/
theorem suffix (h : Onward c c') : c'.ahead <:+ c.ahead := by
  induction h with
  | refl => exact List.suffix_refl _
  | step hahead _ ih =>
    rw [hahead]
    exact ih.trans (List.suffix_cons _ _)
  | finish => exact List.nil_suffix

theorem pastAll {run : List Letter} (hc : c.ahead = run ++ rest) :
    Onward c (Token.pastAll c run rest) := by
  induction run generalizing c with
  | nil =>
    have hsame : Token.pastAll c [] rest = c := by
      rw [List.nil_append] at hc
      rw [← hc]
      rfl
    rw [hsame]
    exact .refl c
  | cons l run ih =>
    have hnext : Token.pastAll c (l :: run) rest = Token.pastAll (c.past l (run ++ rest)) run rest := by
      cases run <;> rfl
    rw [hnext]
    exact .step hc (ih rfl)

end Onward
end Cursor

namespace Token

open Cursor

variable {c c' : Cursor}

theorem Numeral.onward_readFrom {d : Numeral.Draft} {place : Cursor} {ahead : List Letter}
    (hahead : place.ahead = ahead) : Onward place (Numeral.readFrom d place ahead).cursor := by
  induction ahead generalizing d place with
  | nil => exact .finish place
  | cons l rest ih =>
    have hpast := Onward.past hahead
    rw [Numeral.readFrom]
    split
    · split
      · exact hpast
      · exact hpast.trans (ih rfl)
    · exact hpast
    · have hplace : { place with ahead := l :: rest } = place := by rw [← hahead]
      show Onward place { place with ahead := l :: rest }
      rw [hplace]
      exact .refl place

theorem onward_readNumber (start : Nat) (first : Char) (c : Cursor) :
    Onward c (readNumber start first c).2 := by
  have h : Onward c (Numeral.read first c).cursor := Numeral.onward_readFrom rfl
  match readNumber start first c, numberRead start first c with
  | _, .number _ | _, .fault _ => exact h

theorem onward_part? {text : List Char} {x : Float} (h : part? c = some (text, x, c')) :
    Onward c c' := by
  obtain ⟨d, l, rest, hd, hahead, -, -, rfl⟩ := part?_eq_some h
  have hsign : Onward c d := by
    rcases hd with rfl | ⟨m, -, hc, rfl⟩
    · exact .refl d
    · exact .past hc
  exact (hsign.trans (.past hahead)).trans (Numeral.onward_readFrom rfl)

theorem onward_after? {want : Char} (h : after? want c = some c') : Onward c c' := by
  obtain ⟨l, rest, hc, -, rfl⟩ := after?_eq_some h
  exact .past hc

theorem onward_readParen (start : Nat) (c : Cursor) : Onward c (readParen start c).2 := by
  match readParen start c, parenRead start c with
  | _, .pair hpair =>
    obtain ⟨_, _, c₁, c₂, c₃, h₁, h₂, h₃, h₄⟩ := pair?_eq_some hpair
    exact (((onward_part? h₁).trans (onward_after? h₂)).trans (onward_part? h₃)).trans
      (onward_after? h₄)
  | _, .single _ => exact .refl c

/-- Over letters of one kind. -/
theorem onward_takeWhile (p : Char → Bool) (c : Cursor) :
    Onward c (pastAll c (c.ahead.takeWhile (p ·.char)) (c.ahead.dropWhile (p ·.char))) :=
  .pastAll List.takeWhile_append_dropWhile.symm

/-- Over letters of one kind and the one behind them. -/
theorem onward_past {p : Char → Bool} {next : Letter} {rest : List Letter}
    (hend : c.ahead.dropWhile (p ·.char) = next :: rest) : Onward c (c.past next rest) := by
  have hrun := onward_takeWhile p c
  have hstep := Onward.past (pastAll_ahead c (c.ahead.takeWhile (p ·.char)) (next :: rest))
  rw [hend] at hrun
  rw [past_pastAll] at hstep
  exact hrun.trans hstep

theorem onward_readName (start : Nat) (first : Char) (c : Cursor) :
    Onward c (readName start first c).2 := by
  have h := onward_takeWhile isNameChar c
  match readName start first c, nameRead start first c with
  | _, .ended _ => exact .finish c
  | _, .dotted hend _ => exact onward_past hend
  | _, .tooLong hend | _, .name hend _ _ =>
    rw [hend] at h
    exact h

theorem onward_readSeparators (start : Nat) (first : Char) (c : Cursor) :
    Onward c (readSeparators start first c).2 := by
  match readSeparators start first c, separatorsRead start first c with
  | _, .brace hend _ => exact onward_past hend
  | _, .run _ => exact onward_takeWhile isSeparator c

theorem onward_readMark (start : Nat) (mark : Char) (c : Cursor) :
    Onward c (readMark start mark c).2 := by
  match readMark start mark c, markRead start mark c with
  | _, .two _ hafter => exact onward_after? hafter
  | _, .leftParen _ => exact onward_readParen start c
  | _, .separator _ => exact onward_readSeparators start mark c
  | _, .one .. | _, .brace _ | _, .rightParen _ | _, .operator .. | _, .other .. => exact .refl c

/-- A token takes up its first letter and goes on from there. -/
theorem onward_read {l : Letter} {rest : List Letter} (hc : c.ahead = l :: rest) :
    Onward (c.past l rest) (read c).2 := by
  rw [read_of_ahead hc]
  split
  · exact onward_readNumber _ _ _
  · split
    · exact onward_readName _ _ _
    · exact onward_readMark _ _ _

theorem suffix_read (c : Cursor) : (read c).2.ahead <:+ c.ahead := by
  cases hc : c.ahead with
  | nil =>
    rw [read, hc]
    exact List.suffix_refl _
  | cons l rest => exact (onward_read hc).suffix.trans (List.suffix_cons l rest)

/-! ## Many tokens -/

/-- From `c` to `c'` over tokens none of which is the last. -/
inductive Reads : Cursor → List Token → Cursor → Prop
  | nil (c : Cursor) : Reads c [] c
  | cons {c c' : Cursor} {ts : List Token} : (read c).1.isLast = false → Reads (read c).2 ts c' →
    Reads c ((read c).1 :: ts) c'

theorem Reads.stream {ts : List Token} (h : Reads c ts c') : stream c = ts ++ stream c' := by
  induction h with
  | nil => rfl
  | cons hlast _ ih =>
    rw [Token.stream, dif_neg (Bool.eq_false_iff.mp hlast), ih]
    rfl

theorem stream_of_isLast (h : (read c).1.isLast = true) : stream c = [(read c).1] := by
  rw [stream, dif_pos h]

/-- The tokens up to the last. -/
theorem reads_of_stream {pre rest : List Token} {t : Token} (ht : t.isLast = true) :
    ∀ {c : Cursor}, stream c = pre ++ t :: rest → (∀ u ∈ pre, u.isLast = false) →
      rest = [] ∧ ∃ c', Reads c pre c' ∧ (read c').1 = t := by
  induction pre with
  | nil =>
    intro c h _
    rw [stream] at h
    split at h
    · obtain ⟨hread, hrest⟩ := List.cons.inj h
      exact ⟨hrest.symm, c, .nil c, hread⟩
    · rename_i hlast
      exact absurd ((List.cons.inj h).1 ▸ ht) hlast
  | cons u pre ih =>
    intro c h hpre
    obtain ⟨hu, hinner⟩ := List.forall_mem_cons.mp hpre
    rw [stream] at h
    split at h
    · exact absurd (List.cons.inj h).2.symm (by simp)
    · obtain ⟨rfl, hnext⟩ := List.cons.inj h
      obtain ⟨hrest, c', hreads, hread⟩ := ih hnext hinner
      exact ⟨hrest, c', .cons hu hreads, hread⟩

/-- Each of the tokens ends behind the one before it, the first behind `n`, but the end of the text
need not. -/
def Rising : Nat → List Token → Prop
  | _, [] => True
  | n, t :: rest => t.kind = .fault .endOfText ∨ n < t.span.stop ∧ Rising t.span.stop rest

theorem rising_stream (hc : c.Ordered) : Rising c.pos (stream c) := by
  fun_induction stream c with
  | case1 c hlast =>
    cases hahead : c.ahead with
    | nil => exact .inl (read_of_ahead_eq_nil hahead)
    | cons l rest =>
      have hord : Letter.Ordered c.stop c.pos (l :: rest) := hahead ▸ hc
      obtain ⟨hle, -, -⟩ := (onward_read hahead).ordered (c := c.past l rest) hord.2
      refine .inr ⟨?_, trivial⟩
      rw [span_read hahead]
      exact Nat.lt_of_le_of_lt hord.1 (Nat.lt_of_lt_of_le hle (Nat.le_max_left _ _))
  | case2 c hlast ih =>
    cases hahead : c.ahead with
    | nil => exact .inl (read_of_ahead_eq_nil hahead)
    | cons l rest =>
      have hord : Letter.Ordered c.stop c.pos (l :: rest) := hahead ▸ hc
      obtain ⟨hle, hnext, -⟩ := (onward_read hahead).ordered (c := c.past l rest) hord.2
      have hle : l.offset < (read c).2.pos := hle
      refine .inr ?_
      rw [span_read hahead]
      dsimp only
      rw [Nat.max_eq_left (Nat.le_of_lt hle)]
      exact ⟨Nat.lt_of_le_of_lt hord.1 hle, ih hnext⟩

end Token
end FractalFormula
