/-
What does not matter in a text.

Blanks, comments, line joins and the case of letters are no letters of their own.  Places from which
the same letters are read begin bodies with the same tokens, the same complaints and the same
programs (`insignificant_differences`).
-/
import FractalFormula.Proofs.Parallel

namespace FractalFormula

/-! ## The check -/

theorem Token.rising_body (text : String) (offset : Nat) :
    Rising offset (stream (Cursor.seek text offset)) := by
  have hrising := rising_stream (Cursor.ordered_seek text offset)
  by_cases hin : offset ≤ (Text.bytes text).length
  · have hpos : (Cursor.seek text offset).pos = offset := Nat.min_eq_left hin
    rwa [hpos] at hrising
  · have hend := read_of_ahead_eq_nil (Cursor.ahead_seek_of_le (Nat.le_of_not_le hin))
    rw [stream_of_isLast (by rw [isLast, hend])]
    exact .inl hend

namespace Check

theorem parallel_start (offset offset' : Nat) :
    Parallel ⟨0, 0, offset + 1, offset' + 1⟩ (.start offset) (.start offset') := by
  have not_noted (n : Nat) : ¬(State.start n).Noted := State.not_noted_of_lt nofun
  have before (n : Nat) : (State.start n).Before (n + 1) := ⟨Nat.lt_succ_self n, nofun⟩
  exact ⟨⟨[], offset', rfl⟩, rfl, iff_of_false (not_noted _) (not_noted _), before _, before _⟩

theorem map_ahead_zero (r : Except (List Complaint) Tally) : r.map (·.ahead 0 0) = r := by
  cases r with
  | error e => rfl
  | ok t =>
    obtain ⟨ops, loads, stores, jumps, chars, usesJump⟩ := t
    simp only [Except.map, Tally.ahead, Nat.zero_add]

end Check

/-! ## The program -/

namespace Compile

theorem token_of_spelling {d : Draft} {t t' : Token} (h : t.spelling = t'.spelling) :
    d.token t = d.token t' := by
  obtain ⟨text, kind, span⟩ := t
  obtain ⟨text', kind', span'⟩ := t'
  cases h
  rfl

theorem foldl_of_spelling {ts : List Token} : ∀ {ts' : List Token} (d : Draft),
    ts.map Token.spelling = ts'.map Token.spelling →
    ts.foldl Draft.token d = ts'.foldl Draft.token d := by
  induction ts with
  | nil =>
    intro ts' d h
    rw [List.map_eq_nil_iff.mp h.symm]
  | cons t ts ih =>
    intro ts' d h
    obtain ⟨t', ts', rfl, ht, hts⟩ := List.map_eq_cons_iff.mp h.symm
    rw [List.foldl_cons, List.foldl_cons, token_of_spelling ht, ih _ hts.symm]

theorem spellings_significant (ts : List Token) :
    (significant ts).map Token.spelling =
      ((ts.map Token.spelling).dropWhile (·.2 == .operator .comma)).takeWhile
        (fun spelling => !(spelling.2 == .close || (Token.mk "" spelling.2 ⟨0, 0⟩).isFault)) := by
  rw [List.dropWhile_map, List.takeWhile_map]
  rfl

end Compile

open Compile in
theorem compile_of_spelling {ts ts' : List Token}
    (h : ts.map Token.spelling = ts'.map Token.spelling) (env : Environment) :
    compile ts env = compile ts' env := by
  have hsignificant : (significant ts).map Token.spelling = (significant ts').map Token.spelling := by
    rw [spellings_significant, spellings_significant, h]
  have htext : (significant ts).map Token.text = (significant ts').map Token.text := by
    have := congrArg (List.map Prod.fst) hsignificant
    rwa [List.map_map, List.map_map] at this
  rw [compile, compile, foldl_of_spelling _ hsignificant, htext]

/-! ## Texts -/

/-- Places from which the same letters are read, to the ends of their texts, begin bodies with the
same tokens but for where they stand, and with the same complaints or the same tally.  Their programs
are the same. -/
theorem insignificant_differences {text text' : String} {offset offset' : Nat}
    (h : (Cursor.seek text offset).letters = (Cursor.seek text' offset').letters) :
    (Token.body text offset).map Token.spelling = (Token.body text' offset').map Token.spelling ∧
      (check text offset).mapError (·.map Finding.complaint) =
        (check text' offset').mapError (·.map Finding.complaint) ∧
      ∀ env, compile (Token.body text offset) env = compile (Token.body text' offset') env := by
  have hlike : (Cursor.seek text offset).Like (Cursor.seek text' offset') := by
    rwa [Cursor.letters_eq, Cursor.letters_eq] at h
  have hstream := Token.spellings_stream hlike
  have hbody := Token.spellings_untilFault hstream
  refine ⟨hbody, ?_, compile_of_spelling hbody⟩
  have hrun := Check.complaints_run hstream (Token.rising_body text offset)
    (Token.rising_body text' offset') (Check.parallel_start offset offset')
  rw [Check.map_ahead_zero] at hrun
  exact hrun.symm

/-- Line joins in a name, blanks in a number, capitals and comments. -/
theorem insignificant_differences_everywhere :
    let text := "\nz=pixel:\nz=sin(z)*1.5e-2+1\n|z|<4\n\x7d"
    let text' :=
      "f \x7b; start \x7d\nZ=Pix\\\n el: ; \x7b, \\ :\r\nz =\tSi n(Z)*1 .5E -2 +1\n|z|<4\n\x7d"
    (Cursor.seek text 0).letters = (Cursor.seek text' 3).letters ∧
      (Token.body text 0).map Token.spelling = (Token.body text' 3).map Token.spelling ∧
      (check text 0).mapError (·.map Finding.complaint) =
        (check text' 3).mapError (·.map Finding.complaint) ∧
      ∀ env, compile (Token.body text 0) env = compile (Token.body text' 3) env := by
  intro text text'
  have h : (Cursor.seek text 0).letters = (Cursor.seek text' 3).letters := by
    rw [Cursor.letters_eq, Cursor.letters_eq]
    decide +kernel
  exact ⟨h, insignificant_differences h⟩

end FractalFormula
