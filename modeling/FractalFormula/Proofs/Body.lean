/-
Accepted bodies, lexeme by lexeme.

What a text means from its opening brace on are its lexemes up to the closing one (`Lexeme.ofBody`).
If the check accepts them, everything that is known about its steps, about neighbours and about
branches holds of them (`Check.Accepted`), and they are what is compiled (`body_of_check`).
-/
import FractalFormula.Proofs.Checked
import FractalFormula.Proofs.Stance

namespace FractalFormula

open Compile

/-- The lexemes of the formula body that begins at `offset`, without its closing brace. -/
def Lexeme.ofBody (text : String) (offset : Nat) : List Lexeme :=
  ((Token.stream (Cursor.seek text offset)).map Token.lexeme).takeWhile (!·.isEnd)

namespace Check

/-- What is known of the lexemes of an accepted body. -/
structure Accepted (ls : List Lexeme) : Prop where
  steps : ∃ t, Stance.Steps {} ls t ∧ t.Ends
  adjacent : (ls ++ [Lexeme.close]).IsChain Lexeme.Admits
  spelled : ∀ l ∈ ls, l.Spelled
  inner : ∀ l ∈ ls, l.isEnd = false
  threads : Threads 0 false ls

namespace Accepted

variable {ls : List Lexeme}

theorem balanced (h : Accepted ls) : Balanced 0 (ls.flatMap Lexeme.words) :=
  balanced_of_threads h.threads

theorem colons (h : Accepted ls) : ls.count (.operator .colon) ≤ 1 :=
  count_colon_of_threads h.threads

end Accepted
end Check

theorem Lexeme.ofBody_of_stream {text : String} {offset : Nat} {pre rest : List Token} {t : Token}
    (h : Token.stream (Cursor.seek text offset) = pre ++ t :: rest) (ht : t.kind = .close)
    (hpre : ∀ u ∈ pre, (u.kind == .close || u.isFault) = false) :
    Lexeme.ofBody text offset = pre.map Token.lexeme := by
  have hlexeme : t.lexeme = .close := by rw [Token.lexeme, ht]
  have hgo : ∀ l ∈ pre.map Token.lexeme, (!l.isEnd) = true := by
    intro l hl
    obtain ⟨u, hu, rfl⟩ := List.mem_map.mp hl
    rw [isEnd_lexeme, hpre u hu]
    rfl
  rw [Lexeme.ofBody, h, List.map_append, List.map_cons, hlexeme, List.takeWhile_append_of_pos hgo]
  exact List.append_nil _

theorem exists_check {text : String} {offset : Nat}
    (h : (check text offset).toOption.isSome = true) : ∃ tally, check text offset = .ok tally := by
  cases hcheck : check text offset with
  | error e =>
    rw [hcheck] at h
    cases h
  | ok tally => exact ⟨tally, rfl⟩

/-- The lexemes of an accepted body are those that are compiled. -/
theorem body_of_check {text : String} {offset : Nat} {tally : Tally}
    (h : check text offset = .ok tally) :
    Check.Accepted (Lexeme.ofBody text offset) ∧
      ∀ env, ∃ formula, compile (Token.body text offset) env =
        ((Draft.start env).takeAll (Lexeme.ofBody text offset)).finish formula := by
  obtain ⟨pre, t, rest, hstream, ht, hpre, hthreads⟩ := exists_of_check h
  have hchain := Token.isChain_stream (Cursor.seek text offset)
  have hlexeme : t.lexeme = .close := by rw [Token.lexeme, ht]
  have hinner : ∀ l ∈ pre.map Token.lexeme, l.isEnd = false := by
    intro l hl
    obtain ⟨u, hu, rfl⟩ := List.mem_map.mp hl
    rw [isEnd_lexeme, hpre u hu]
  rw [Lexeme.ofBody_of_stream hstream ht hpre]
  refine ⟨⟨?_, ?_, ?_, hinner, hthreads⟩, fun env => ?_⟩
  · rw [check, hstream] at h
    exact Check.steps_of_run ht (fun u hu hclose => by simpa [hclose] using hpre u hu) h
  · rw [hstream, List.map_append, List.map_cons, hlexeme, List.append_cons] at hchain
    exact (List.isChain_append.mp hchain).1
  · intro l hl
    obtain ⟨u, hu, rfl⟩ := List.mem_map.mp hl
    exact Token.spelled_of_mem_stream (hstream ▸ List.mem_append_left _ hu)
  · refine ⟨String.join ((significant (Token.body text offset)).map Token.text), ?_⟩
    rw [compile, Token.body, hstream, foldl_significant_append ht hpre]

end FractalFormula
