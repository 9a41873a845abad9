/-
Brackets that are paired.

A bar pairs up with another between the same two parentheses (`Lexeme.Paired`), and what is left open
by a part of a statement is told by a flag for each level of parentheses (`Lexeme.Ajar`).  The check
has these flags in parentheses (`Check.Hung`), but it may forget the one outside all of them, so that
a bar there can be left alone (`paired_brackets`, `exists_lone_bar`).
-/
import FractalFormula.Proofs.Depth
import FractalFormula.Proofs.Ordinary

namespace FractalFormula

namespace Lexeme

/-- Every parenthesis is closed, and so is every bar where it was opened: in the same parentheses. -/
inductive Paired : List Lexeme → Prop
  | nil : Paired []
  | other {l : Lexeme} {a : List Lexeme} : l ≠ .leftParen → l ≠ .rightParen →
    l ≠ .operator .modulus → Paired a → Paired (l :: a)
  | parens {a b : List Lexeme} : Paired a → Paired b →
    Paired (.leftParen :: a ++ .rightParen :: b)
  | bars {a b : List Lexeme} : Paired a → Paired b →
    Paired (.operator .modulus :: a ++ .operator .modulus :: b)

/-- What is open at the end of `p`, an opening parenthesis or bar that has no partner: for each level
of parentheses, the innermost first, whether a bar is. -/
inductive Ajar : List Lexeme → List Bool → Prop
  | nil : Ajar [] [false]
  | paren {p q : List Lexeme} {f : Bool} {fs : List Bool} : Ajar p (f :: fs) → Paired q →
    Ajar (p ++ q ++ [.leftParen]) (false :: f :: fs)
  | bar {p q : List Lexeme} {fs : List Bool} : Ajar p (false :: fs) → Paired q →
    Ajar (p ++ q ++ [.operator .modulus]) (true :: fs)

variable {a b p q : List Lexeme} {fs : List Bool}

theorem Paired.append (ha : Paired a) (hb : Paired b) : Paired (a ++ b) := by
  induction ha with
  | nil => exact hb
  | other hleft hright hbar _ ih => exact .other hleft hright hbar ih
  | parens h _ _ ih =>
    rw [List.append_assoc, List.cons_append]
    exact .parens h ih
  | bars h _ _ ih =>
    rw [List.append_assoc, List.cons_append]
    exact .bars h ih

theorem Paired.concat {l : Lexeme} (ha : Paired a) (hleft : l ≠ .leftParen)
    (hright : l ≠ .rightParen) (hbar : l ≠ .operator .modulus) : Paired (a ++ [l]) :=
  ha.append (.other hleft hright hbar .nil)

theorem Ajar.openParen (h : Ajar p fs) (hq : Paired q) :
    Ajar (p ++ q ++ [.leftParen]) (false :: fs) := by
  cases h with
  | nil => exact .paren .nil hq
  | paren h hq' => exact .paren (.paren h hq') hq
  | bar h hq' => exact .paren (.bar h hq') hq

theorem Ajar.closeParen (h : Ajar p (false :: fs)) (hfs : fs ≠ []) (hq : Paired q) :
    ∃ p' q', p ++ q ++ [.rightParen] = p' ++ q' ∧ Paired q' ∧ Ajar p' fs := by
  cases h with
  | nil => exact absurd rfl hfs
  | paren hp hq' =>
    rename_i p q' f fs
    exact ⟨p, q' ++ (.leftParen :: q ++ [.rightParen]), by simp, hq'.append (.parens hq .nil), hp⟩

/-- A bar closes what another has opened in the same parentheses, or it opens something itself. -/
theorem Ajar.toggle {f : Bool} (h : Ajar p (f :: fs)) (hq : Paired q) :
    ∃ p' q', p ++ q ++ [.operator .modulus] = p' ++ q' ∧ Paired q' ∧ Ajar p' ((!f) :: fs) := by
  cases f with
  | false => exact ⟨_, [], (List.append_nil _).symm, .nil, .bar h hq⟩
  | true =>
    cases h with
    | bar hp hq' =>
      rename_i p q'
      exact ⟨p, q' ++ (.operator .modulus :: q ++ [.operator .modulus]), by simp,
        hq'.append (.bars hq .nil), hp⟩

theorem outside_cons {l : Lexeme} (hleft : l ≠ .leftParen) (hright : l ≠ .rightParen) (n : Nat)
    (ls : List Lexeme) : outside n (l :: ls) = (if n = 0 then [l] else []) ++ outside n ls := by
  cases n <;> cases l <;> first | rfl | exact absurd rfl hleft | exact absurd rfl hright

/-- In what is paired the bars outside parentheses are even in number, wherever it stands. -/
theorem Paired.outside_even (h : Paired a) (n : Nat) (b : List Lexeme) :
    (outside n (a ++ b)).count (.operator .modulus) % 2 =
      (outside n b).count (.operator .modulus) % 2 := by
  induction h generalizing n b with
  | nil => rfl
  | other hleft hright hbar _ ih =>
    rename_i l a _
    have hnone : (if n = 0 then [l] else []).count (.operator .modulus) = 0 := by
      split
      · rw [List.count_cons_of_ne hbar, List.count_nil]
      · rfl
    rw [List.cons_append, outside_cons hleft hright, List.count_append, hnone, Nat.zero_add, ih]
  | parens _ _ iha ihb =>
    rw [List.append_assoc, List.cons_append, outside, iha, List.cons_append, outside,
      Nat.add_sub_cancel, ihb]
  | bars _ _ iha ihb =>
    rename_i a b' _ _
    have hbar (ls : List Lexeme) : outside n (.operator .modulus :: ls) =
        (if n = 0 then [.operator .modulus] else []) ++ outside n ls :=
      outside_cons (by simp) (by simp) n ls
    have ha := iha n (.operator .modulus :: (b' ++ b))
    rw [hbar, List.count_append] at ha
    rw [List.append_assoc, List.cons_append, List.cons_append, hbar, List.count_append]
    have hb := ihb n b
    omega

end Lexeme

namespace Check

open Lexeme Stance

/-- What the lexemes `ls` of a statement leave open the check has flags for, but for the outermost
one. -/
structure Hung (ls : List Lexeme) (t : Stance) : Prop where
  roomy : t.Roomy
  parts : ∃ p q, ls = p ++ q ∧ Paired q ∧
    Ajar p (t.innerLevels ++ [decide ((outside 0 ls).count (.operator .modulus) % 2 = 1)])

namespace Hung

variable {ls : List Lexeme} {t t' : Stance} {l : Lexeme}

theorem start : Hung [] {} :=
  ⟨Nat.zero_le _, [], [], rfl, .nil, .nil⟩

theorem step (h : Hung ls t) (hstep : t.Step t' l) (hcomma : l ≠ .operator .comma)
    (hcolon : l ≠ .operator .colon)
    (houter : outside 0 (ls ++ [l]) = outside 0 ls ++ outside t.openParens [l]) :
    Hung (ls ++ [l]) t' := by
  obtain ⟨hroomy, p, q, rfl, hq, hajar⟩ := h
  -- The 64th parenthesis makes the check forget a flag, but none that is in parentheses.
  by_cases hopen : l = .leftParen
  · subst hopen
    obtain ⟨-, hlimit, rfl⟩ := hstep
    refine ⟨length_enter_le hroomy, _, [], (List.append_nil _).symm, .nil, ?_⟩
    have hinner := inner_enter hroomy hlimit
    rw [innerLevels, levels, hinner, houter, outside, outside, List.append_nil]
    exact hajar.openParen hq
  obtain ⟨hshift, hroomy'⟩ := shift_of_kept hstep hroomy (fun hl => absurd hl hopen) hcomma hcolon
  refine ⟨hroomy', ?_⟩
  rw [houter, List.count_append]
  cases hshift with
  | «open» => exact absurd rfl hopen
  | «close» hlevels _ =>
    rw [innerLevels, hlevels, List.dropLast_cons_of_ne_nil (levels_ne_nil hroomy')] at hajar
    rw [outside, outside, List.count_nil, Nat.add_zero]
    exact hajar.closeParen (List.append_ne_nil_of_right_ne_nil _ (List.cons_ne_nil _ _)) hq
  | bar hlevels _ =>
    have hcons := levels_eq_cons hroomy
    have hlength := length_levels hroomy
    rw [innerLevels, hlevels]
    rw [innerLevels, hcons] at hajar
    rw [hcons] at hlength
    cases htail : t.levels.tail with
    | nil =>
      rw [htail] at hajar hlength
      have hground : t.openParens = 0 := by simpa using hlength.symm
      have hodd (n : Nat) : decide ((n + 1) % 2 = 1) = !decide (n % 2 = 1) := by
        rcases Nat.mod_two_eq_zero_or_one n with hn | hn <;> simp [Nat.add_mod, hn]
      have hone : (outside 0 [Lexeme.operator .modulus]).count (.operator .modulus) = 1 := rfl
      rw [hground, hone, hodd]
      exact hajar.toggle hq
    | cons f fs =>
      rw [htail] at hajar hlength
      obtain ⟨m, hdeep⟩ : ∃ m, t.openParens = m + 1 := ⟨fs.length, by simpa using hlength.symm⟩
      rw [hdeep]
      exact hajar.toggle hq
  | other hleft hright hbar hlevels _ =>
    have hnone : (outside t.openParens [l]).count (.operator .modulus) = 0 := by
      rw [outside_cons hleft hright, outside, List.append_nil]
      split
      · exact List.count_eq_zero.mpr fun hmem => hbar (List.mem_singleton.mp hmem).symm
      · rfl
    rw [hnone, Nat.add_zero, innerLevels, hlevels]
    exact ⟨p, q ++ [l], List.append_assoc .., hq.concat hleft hright hbar, hajar⟩

/-- Over all lexemes of a statement. -/
theorem run (h : Stance.Steps {} ls t) (hsep : ∀ l ∈ ls, ¬ l.Separates) : Hung ls t := by
  induction ls using List.reverseRecOn generalizing t with
  | nil =>
    cases h
    exact start
  | append_singleton pre l ih =>
    obtain ⟨v, hpre, hstep⟩ := h.concat
    have hl := hsep l (by simp)
    exact (ih hpre fun m hm => hsep m (List.mem_append_left _ hm)).step hstep
      (fun h => hl (h ▸ rfl)) (fun h => hl (h ▸ rfl)) (outside_of_steps hpre [l])

/-- At the end of a statement the only bar that can be left alone stands outside parentheses. -/
theorem paired_iff (h : Hung ls t) (hends : t.Ends) :
    Paired ls ↔ (outside 0 ls).count (.operator .modulus) % 2 = 0 := by
  constructor
  · intro hls
    have heven := hls.outside_even 0 []
    rwa [List.append_nil] at heven
  · intro heven
    obtain ⟨p, q, rfl, hq, hajar⟩ := h.parts
    rw [innerLevels, levels_of_ends hends h.roomy, heven] at hajar
    cases hajar
    exact hq

end Hung

namespace Stance

theorem Step.openParens_le {t t' : Stance} {l : Lexeme} (h : t.Step t' l)
    (ht : t.openParens ≤ parenLimit) : t'.openParens ≤ parenLimit := by
  cases l with
  | leftParen =>
    obtain ⟨-, hlimit, rfl⟩ := h
    exact hlimit
  | rightParen =>
    obtain ⟨-, -, -, rfl⟩ := h
    exact Nat.le_trans (Nat.sub_le _ _) ht
  | operator o =>
    cases o with
    | comma | colon =>
      obtain ⟨-, rfl⟩ := h
      exact Nat.zero_le _
    | _ =>
      obtain ⟨-, rfl⟩ := h
      exact ht
  | fault => exact h.elim
  | _ =>
    obtain ⟨-, rfl⟩ := h
    exact ht

theorem Steps.openParens_le {t t' : Stance} {ls : List Lexeme} (h : t.Steps ls t')
    (ht : t.openParens ≤ parenLimit) : t'.openParens ≤ parenLimit := by
  induction h with
  | nil => exact ht
  | cons hstep _ ih => exact ih (hstep.openParens_le ht)

/-- The outermost flag tells of the bars outside parentheses if none is forgotten. -/
theorem Steps.outer {ls : List Lexeme} {t : Stance} (h : Steps {} ls t)
    (hsep : ∀ l ∈ ls, ¬ l.Separates) (hkept : Remembered ls) : t.Roomy ∧
      t.levels.getLast? = some (decide ((outside 0 ls).count (.operator .modulus) % 2 = 1)) := by
  induction ls using List.reverseRecOn generalizing t with
  | nil =>
    cases h
    exact ⟨Nat.zero_le _, rfl⟩
  | append_singleton pre l ih =>
    obtain ⟨v, hpre, hstep⟩ := h.concat
    have hl := hsep l (by simp)
    obtain ⟨hroomy, houter⟩ := ih hpre (fun m hm => hsep m (List.mem_append_left _ hm))
      fun a ha => hkept a (ha.trans (List.prefix_append _ _))
    obtain ⟨hshift, hroomy'⟩ := shift_of_kept hstep hroomy
      (fun hopen => by
        subst hopen
        exact Phrase.kept_of_remembered hpre rfl hkept houter hstep.2.1)
      (fun h => hl (h ▸ rfl)) (fun h => hl (h ▸ rfl))
    refine ⟨hroomy', ?_⟩
    rw [outside_of_steps hpre [l], List.count_append]
    exact Phrase.outer_step hshift hroomy hroomy' houter

end Stance
end Check

open Lexeme Check

/-- In each statement of an accepted body parentheses are closed, at most 64 of them are open at a
time, and each bar is closed in the parentheses where it was opened, but perhaps for one outside all
of them.  That one is closed as well if no bar is open outside 64 parentheses. -/
theorem paired_brackets {text : String} {offset : Nat} {tally : Tally}
    (h : check text offset = .ok tally) {pre st post : List Lexeme}
    (hst : Delimits pre st post (Lexeme.ofBody text offset)) :
    (st.count .leftParen = st.count .rightParen ∧ ∀ p, p <+: st →
      p.count .rightParen ≤ p.count .leftParen ∧
        p.count .leftParen ≤ p.count .rightParen + parenLimit) ∧
      (Paired st ↔ (outside 0 st).count (.operator .modulus) % 2 = 0) ∧
      (Remembered st → Paired st) := by
  obtain ⟨haccepted, -⟩ := body_of_check h
  obtain ⟨-, ⟨u, hsteps, hends⟩, -⟩ := haccepted.delimits hst
  have hpaired := (Hung.run hsteps hst.inner).paired_iff hends
  have hcount {p : List Lexeme} {v : Stance} (hp : Stance.Steps {} p v) :
      v.openParens + p.count .rightParen = p.count .leftParen := by
    have hopen := Stance.openParens_of_steps hp
    rwa [show ({} : Stance).openParens = 0 from rfl, Nat.zero_add] at hopen
  refine ⟨⟨?_, ?_⟩, hpaired, fun hkept => hpaired.mpr ?_⟩
  · have hall := hcount hsteps
    rw [hends.1, Nat.zero_add] at hall
    exact hall.symm
  · rintro p ⟨q, rfl⟩
    obtain ⟨v, hp, -⟩ := hsteps.append
    have hpart := hcount hp
    have hlimit := hp.openParens_le (Nat.zero_le _)
    omega
  · obtain ⟨hroomy, houter⟩ := hsteps.outer hst.inner hkept
    rw [Stance.levels_of_ends hends hroomy] at houter
    have heven := Option.some.inj houter
    simp at heven
    exact heven

theorem paired_brackets_nested : ∃ text tally pre st post, check text 0 = .ok tally ∧
    Delimits pre st post (Lexeme.ofBody text 0) ∧
      st.count (.operator .modulus) = 4 ∧ Paired st := by
  let text := "z=c,|z+(|c|-z)|*2\x7d"
  let st : List Lexeme :=
    [.operator .modulus, .name "z", .operator .plus, .leftParen, .operator .modulus, .name "c",
      .operator .modulus, .operator .minus, .name "z", .rightParen, .operator .modulus,
      .operator .star, .literal "2" ⟨2, 0⟩ false]
  have hstream : Token.stream (Cursor.seek text 0) = Token.firstTokens 40 (Cursor.seek text 0) :=
    Token.stream_eq_firstTokens (by decide +kernel)
  obtain ⟨tally, h⟩ : ∃ tally, check text 0 = .ok tally := by
    refine exists_check ?_
    rw [check, hstream]
    decide +kernel
  let pre : List Lexeme := [.name "z", .operator .assign, .name "c", .operator .comma]
  have hlexemes : Lexeme.ofBody text 0 = pre ++ st ++ [] := by
    rw [Lexeme.ofBody, hstream]
    decide +kernel
  have hst : Delimits pre st [] (Lexeme.ofBody text 0) := by
    refine ⟨hlexemes, ?_, ?_, nofun⟩
    · simp [pre, Separates, Operator.endsStatement]
    · simp [st, Separates, Operator.endsStatement]
  exact ⟨text, tally, pre, st, _, h, hst, by decide +kernel,
    (paired_brackets h hst).2.2 (remembered_of_count (by decide +kernel))⟩

/-- One bar in front of 64 parentheses. -/
theorem exists_lone_bar : ∃ text tally pre st post, check text 0 = .ok tally ∧
    Delimits pre st post (Lexeme.ofBody text 0) ∧ ¬ Paired st := by
  let chars := '|' :: List.replicate 64 '(' ++ 'z' :: List.replicate 64 ')' ++ ['\x7d']
  let text := String.ofList chars
  let st : List Lexeme := .operator .modulus :: List.replicate 64 .leftParen ++
    .name "z" :: List.replicate 64 .rightParen
  have hstream : Token.stream (Cursor.seek text 0) = Token.firstTokens 200 _ :=
    Token.stream_ofList (by decide +kernel)
  obtain ⟨tally, h⟩ : ∃ tally, check text 0 = .ok tally := by
    refine exists_check ?_
    rw [check, hstream]
    decide +kernel
  have hlexemes : Lexeme.ofBody text 0 = [] ++ st ++ [] := by
    rw [Lexeme.ofBody, hstream]
    decide +kernel
  refine ⟨text, tally, [], st, [], h, ⟨hlexemes, nofun, ?_, nofun⟩, fun hpaired => ?_⟩
  · simp [st, Separates, Operator.endsStatement]
  · have heven := hpaired.outside_even 0 []
    revert heven
    decide +kernel

end FractalFormula
