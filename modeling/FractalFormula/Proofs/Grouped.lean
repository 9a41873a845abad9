/-
Branches in groups.

The branches of a section form groups: an `if`, any number of `elseif`, at most one `else` and an
`endif`, with whole groups between them (`FlowWord.Grouped`).  The check remembers of 64 open groups
whether their `else` has come, so of an accepted section this is true unless an `else` or `elseif`
comes after the `else` of its group with 64 groups in between, each in the one before
(`grouped_branches`, `exists_second_else`).
-/
import FractalFormula.Proofs.Body
import FractalFormula.Proofs.Section

namespace FractalFormula

namespace FlowWord

/-- What words make up: whole groups, or what remains of a group whose `else` has come or not. -/
inductive Part where
  | groups
  | rest (elseSeen : Bool)

inductive Shape : Part → List FlowWord → Prop
  | nil : Shape .groups []
  | group {r g : List FlowWord} : Shape (.rest false) r → Shape .groups g →
    Shape .groups (.if :: r ++ g)
  | elseIf {g r : List FlowWord} : Shape .groups g → Shape (.rest false) r →
    Shape (.rest false) (g ++ .elseIf :: r)
  | else {g r : List FlowWord} : Shape .groups g → Shape (.rest true) r →
    Shape (.rest false) (g ++ .else :: r)
  | endIf {elseSeen : Bool} {g : List FlowWord} : Shape .groups g →
    Shape (.rest elseSeen) (g ++ [.endIf])

/-- Groups one after another: an `if`, any number of `elseif`, at most one `else` and an `endif`, with
groups in every branch. -/
def Grouped (ws : List FlowWord) : Prop :=
  Shape .groups ws

/-- The words close all groups that they open, and `n` more. -/
def Closing : List FlowWord → Nat → Prop
  | [], n => n = 0
  | .if :: ws, n => Closing ws (n + 1)
  | .endIf :: ws, n + 1 => Closing ws n
  | .endIf :: _, 0 => False
  | .elseIf :: ws, n | .else :: ws, n => Closing ws n

/-- An `else` or `elseif` comes right after the words `b`, and the `else` of its group right before
them. -/
def Late (ws b : List FlowWord) : Prop :=
  ∃ a w c, ws = a ++ .else :: b ++ w :: c ∧ (w = .else ∨ w = .elseIf) ∧ Closing b 0

/-- No `else` or `elseif` comes after the `else` of its group with 64 groups open in between. -/
def Recalled (ws : List FlowWord) : Prop :=
  ∀ b, Late ws b → ∀ p, p <+: b → p.count .if < p.count .endIf + Nesting.depth

theorem recalled_of_count {ws : List FlowWord} (h : ws.count .if < Nesting.depth) :
    Recalled ws := by
  rintro b ⟨a, w, c, rfl, -, -⟩ p hp
  have hle := hp.sublist.count_le .if
  rw [List.count_append, List.count_append, List.count_cons] at h
  omega

/-! ## Groups -/

variable {ws p q r a b c : List FlowWord} {fs : List Bool}

theorem closing_append {m n : Nat} (ha : Closing a m) (hb : Closing b n) :
    Closing (a ++ b) (m + n) := by
  induction a generalizing m with
  | nil =>
    obtain rfl : m = 0 := ha
    rwa [Nat.zero_add]
  | cons w a ih =>
    cases w with
    | «if» =>
      have hopen : Closing (a ++ b) (m + 1 + n) := ih ha
      rwa [Nat.add_right_comm] at hopen
    | endIf =>
      cases m with
      | zero => exact ha.elim
      | succ m =>
        rw [Nat.add_right_comm]
        exact ih (m := m) ha
    | elseIf | «else» => exact ih ha

/-- How many groups are open before what remains of them. -/
def Part.flags : Part → List Bool
  | groups => []
  | rest elseSeen => [elseSeen]

theorem Shape.closing {part : Part} (h : Shape part ws) : Closing ws part.flags.length := by
  induction h with
  | nil => rfl
  | group _ _ ihr ihg => exact closing_append (a := .if :: _) (m := 0) ihr ihg
  | elseIf _ _ ihg ihr => exact closing_append (b := .elseIf :: _) ihg ihr
  | «else» _ _ ihg ihr => exact closing_append (b := .else :: _) ihg ihr
  | endIf _ ihg => exact closing_append (b := [.endIf]) ihg rfl

/-- `fs` tells of each open group, the innermost first, whether its `else` has come, and after `ws`
no group is open. -/
def Ends : List Bool → List FlowWord → Prop
  | fs, [] => fs = []
  | fs, .if :: ws => Ends (false :: fs) ws
  | false :: fs, .elseIf :: ws => Ends (false :: fs) ws
  | false :: fs, .else :: ws => Ends (true :: fs) ws
  | _ :: fs, .endIf :: ws => Ends fs ws
  | _, _ => False

theorem Shape.ends {part : Part} (h : Shape part ws) (hr : Ends fs r) :
    Ends (part.flags ++ fs) (ws ++ r) := by
  induction h generalizing fs r with
  | nil => exact hr
  | group _ _ ihr ihg =>
    rw [List.append_assoc]
    exact ihr (ihg hr)
  | elseIf _ _ ihg ihr =>
    rw [List.append_assoc]
    exact ihg (ihr hr)
  | «else» _ _ ihg ihr =>
    rw [List.append_assoc]
    exact ihg (ihr hr)
  | endIf _ ihg =>
    rename_i elseSeen g _
    rw [List.append_assoc]
    exact ihg (by cases elseSeen <;> exact hr)

theorem Ends.suffix (h : Ends fs (a ++ b)) : ∃ gs, Ends gs b := by
  induction a generalizing fs with
  | nil => exact ⟨fs, h⟩
  | cons w a ih =>
    cases w with
    | «if» => exact ih h
    | elseIf | «else» | endIf =>
      cases fs with
      | nil => exact h.elim
      | cons f fs => cases f <;> first | exact h.elim | exact ih h

/-- What closes no group but its own leaves a group whose `else` has come as it is. -/
theorem Ends.closing {u : List Bool} (h : Ends (u ++ true :: fs) (b ++ r))
    (hb : Closing b u.length) : Ends (true :: fs) r := by
  induction b generalizing u with
  | nil =>
    obtain rfl := List.length_eq_zero_iff.mp hb
    exact h
  | cons w b ih =>
    cases w with
    | «if» => exact ih (u := false :: u) h hb
    | elseIf | «else» | endIf =>
      cases u with
      | nil => first | exact h.elim | exact hb.elim
      | cons f u =>
        cases f <;> first
          | exact h.elim
          | exact ih (u := false :: u) h hb
          | exact ih (u := true :: u) h hb
          | exact ih (u := u) h hb

theorem Grouped.append (ha : Grouped a) (hb : Grouped b) : Grouped (a ++ b) := by
  unfold Grouped at ha
  generalize hpart : Part.groups = part at ha
  induction ha with
  | nil => exact hb
  | group hr _ _ ih =>
    rw [List.append_assoc]
    exact .group hr (ih hpart)
  | elseIf | «else» | endIf => cases hpart

/-- In groups nothing is late. -/
theorem Grouped.not_late (h : Grouped ws) : ¬ Late ws b := by
  rintro ⟨a, w, c, rfl, hw, hb⟩
  have hall : Ends [] (a ++ .else :: b ++ w :: c) := by
    have hends : Ends [] [] := rfl
    have hall : Ends [] (_ ++ []) := Shape.ends h hends
    rwa [List.append_nil] at hall
  rw [List.append_assoc] at hall
  obtain ⟨gs, hgs⟩ := hall.suffix
  cases gs with
  | nil => exact hgs.elim
  | cons g gs =>
    cases g with
    | true => exact hgs.elim
    | false =>
      have hlate : Ends (true :: gs) (w :: c) := Ends.closing (u := []) hgs hb
      rcases hw with rfl | rfl <;> exact hlate

/-- What is open at the end of `p`, where a branch begins: for each group, the innermost first,
whether its `else` has come. -/
inductive Opened : List FlowWord → List Bool → Prop
  | nil : Opened [] []
  | if {p g : List FlowWord} {fs : List Bool} : Opened p fs → Grouped g →
    Opened (p ++ g ++ [.if]) (false :: fs)
  | elseIf {p g : List FlowWord} {fs : List Bool} : Opened p (false :: fs) → Grouped g →
    Opened (p ++ g ++ [.elseIf]) (false :: fs)
  | else {p g : List FlowWord} {fs : List Bool} : Opened p (false :: fs) → Grouped g →
    Opened (p ++ g ++ [.else]) (true :: fs)

/-- With what remains of the innermost group it is whole. -/
theorem Opened.close {f : Bool} (h : Opened p (f :: fs)) (hr : Shape (.rest f) r) :
    ∃ p' g, p ++ r = p' ++ g ∧ Opened p' fs ∧ Grouped g := by
  generalize hgs : f :: fs = gs at h
  induction h generalizing f r with
  | nil => cases hgs
  | «if» hp hg =>
    rename_i p g fs _
    obtain ⟨rfl, rfl⟩ := List.cons.inj hgs
    exact ⟨p, g ++ (.if :: r ++ []), by simp, hp, hg.append (.group hr .nil)⟩
  | elseIf hp hg ih =>
    obtain ⟨rfl, rfl⟩ := List.cons.inj hgs
    obtain ⟨p', g', hsplit, hopened, hg'⟩ := ih (.elseIf hg hr) rfl
    exact ⟨p', g', by rw [← hsplit]; simp, hopened, hg'⟩
  | «else» hp hg ih =>
    obtain ⟨rfl, rfl⟩ := List.cons.inj hgs
    obtain ⟨p', g', hsplit, hopened, hg'⟩ := ih (.else hg hr) rfl
    exact ⟨p', g', by rw [← hsplit]; simp, hopened, hg'⟩

end FlowWord

/-- The branches among lexemes. -/
def Lexeme.branches : List Lexeme → List FlowWord
  | [] => []
  | .flow w :: ls => w :: branches ls
  | _ :: ls => branches ls

namespace FlowWord

/-- Where the `else` of the innermost group has come, another branch of it is late. -/
theorem Opened.late {p q : List FlowWord} {fs : List Bool} (h : Opened p (true :: fs))
    (hq : Grouped q) {w : FlowWord} (hw : w = .else ∨ w = .elseIf) (c : List FlowWord) :
    Late (p ++ q ++ [w] ++ c) q := by
  cases h with
  | «else» hp hg =>
    rename_i p g
    exact ⟨p ++ g, w, c, by simp, hw, Shape.closing hq⟩

/-- Branches that balance are groups if none is late. -/
theorem Opened.grouped {p q : List FlowWord} {fs : List Bool} (h : Opened p fs) (hq : Grouped q)
    {ls : List Lexeme} (hls : Balanced fs.length (ls.flatMap Lexeme.words))
    (hlate : ∀ b, ¬ Late (p ++ q ++ Lexeme.branches ls) b) :
    Grouped (p ++ q ++ Lexeme.branches ls) := by
  induction ls generalizing p q fs with
  | nil =>
    obtain rfl := List.length_eq_zero_iff.mp hls
    cases h
    simpa [Lexeme.branches]
  | cons l ls ih =>
    cases l with
    | flow w =>
      -- The words of the whole section, with what comes next behind what has been read.
      have happend : p ++ q ++ Lexeme.branches (.flow w :: ls) =
          p ++ q ++ [w] ++ Lexeme.branches ls := by simp [Lexeme.branches]
      rw [happend] at hlate ⊢
      cases w with
      | «if» =>
        have hopened := ih (.if h hq) .nil hls
        rw [List.append_nil] at hopened
        exact hopened hlate
      | elseIf =>
        cases fs with
        | nil => exact hls.elim
        | cons f fs =>
          cases f with
          | false =>
            have hopened := ih (.elseIf h hq) .nil hls
            rw [List.append_nil] at hopened
            exact hopened hlate
          | true => exact absurd (h.late hq (.inr rfl) _) (hlate q)
      | «else» =>
        cases fs with
        | nil => exact hls.elim
        | cons f fs =>
          cases f with
          | false =>
            have hopened := ih (.else h hq) .nil hls
            rw [List.append_nil] at hopened
            exact hopened hlate
          | true => exact absurd (h.late hq (.inl rfl) _) (hlate q)
      | endIf =>
        cases fs with
        | nil => exact hls.elim
        | cons f fs =>
          obtain ⟨p', g, hsplit, hopened, hg⟩ := h.close (.endIf hq)
          rw [← List.append_assoc] at hsplit
          rw [hsplit] at hlate ⊢
          exact ih hopened hg hls hlate
    | _ => exact ih h hq hls hlate

theorem grouped_iff {ls : List Lexeme} (h : Balanced 0 (ls.flatMap Lexeme.words)) :
    Grouped (Lexeme.branches ls) ↔ ∀ b, ¬ Late (Lexeme.branches ls) b :=
  ⟨fun hgrouped _ => hgrouped.not_late, fun hlate => Opened.grouped .nil .nil h hlate⟩

end FlowWord

/-! ## What the check remembers of `else` -/

namespace Check

open FlowWord

/-- What a branch that is not complained about does to the flags of the open groups. -/
def Turn (n n' : Nesting) : FlowWord → Prop
  | .if => n' = n.enter
  | .elseIf => n.isUp = false ∧ n' = n
  | .else => n.isUp = false ∧ n' = n.set true
  | .endIf => n' = n.leave

inductive Turns : Nesting → List FlowWord → Nesting → Prop
  | nil (n : Nesting) : Turns n [] n
  | cons {n n' n'' : Nesting} {w : FlowWord} {ws : List FlowWord} :
    Turn n n' w → Turns n' ws n'' → Turns n (w :: ws) n''

theorem Turns.append {n m : Nesting} {a b : List FlowWord} (h : Turns n (a ++ b) m) :
    ∃ u, Turns n a u ∧ Turns u b m := by
  induction a generalizing n with
  | nil => exact ⟨n, .nil n, h⟩
  | cons w a ih =>
    cases h with
    | cons hw hws =>
      obtain ⟨u, ha, hb⟩ := ih hws
      exact ⟨u, .cons hw ha, hb⟩

/-- A raised flag is found again after fewer than 64 groups in one another, so its group gets no
second `else`. -/
theorem Turns.not_late {n m : Nesting} {b c : List FlowWord} {w : FlowWord} {k : Nat}
    (h : Turns n (b ++ w :: c) m) (hw : w = .else ∨ w = .elseIf) (hb : FlowWord.Closing b k)
    (hup : n.flags[k]? = some true)
    (hroom : ∀ p, p <+: b → k + p.count .if < p.count .endIf + Nesting.depth) : False := by
  have hzero {n : Nesting} (hup : n.flags[0]? = some true) : n.isUp = true := by
    unfold Nesting.isUp
    rw [List.headD_eq_head?_getD, List.head?_eq_getElem?, hup]
    rfl
  induction b generalizing n k with
  | nil =>
    obtain rfl : k = 0 := hb
    cases h with
    | cons hturn _ =>
      have hdown : n.isUp = false := by rcases hw with rfl | rfl <;> exact hturn.1
      exact Bool.false_ne_true (hdown.symm.trans (hzero hup))
  | cons v b ih =>
    obtain ⟨n', hturn, hrest⟩ : ∃ n', Turn n n' v ∧ Turns n' (b ++ w :: c) m := by
      cases h with
      | cons hturn hrest => exact ⟨_, hturn, hrest⟩
    have hroom' (p : List FlowWord) (hp : p <+: b) := hroom (v :: p) (List.prefix_cons_inj v |>.mpr hp)
    cases v with
    | «if» =>
      subst hturn
      have hlt : k + 1 < Nesting.depth := by
        have hone := hroom' [] List.nil_prefix
        simpa using hone
      refine ih hrest hb ?_ fun p hp => ?_
      · show ((false :: n.flags).take Nesting.depth)[k + 1]? = some true
        rw [List.getElem?_take_of_lt hlt, List.getElem?_cons_succ]
        exact hup
      · have hmore := hroom' p hp
        rw [List.count_cons_self, List.count_cons_of_ne (by decide)] at hmore
        omega
    | elseIf =>
      obtain ⟨hdown, rfl⟩ := hturn
      refine ih hrest hb hup fun p hp => ?_
      have hmore := hroom' p hp
      rwa [List.count_cons_of_ne (by decide), List.count_cons_of_ne (by decide)] at hmore
    | «else» =>
      obtain ⟨hdown, rfl⟩ := hturn
      cases k with
      | zero => exact Bool.false_ne_true (hdown.symm.trans (hzero hup))
      | succ k =>
        refine ih hrest hb ?_ fun p hp => ?_
        · show (true :: n.flags.tail)[k + 1]? = some true
          rw [List.getElem?_cons_succ, List.getElem?_tail]
          exact hup
        · have hmore := hroom' p hp
          rwa [List.count_cons_of_ne (by decide), List.count_cons_of_ne (by decide)] at hmore
    | endIf =>
      subst hturn
      cases k with
      | zero => exact hb.elim
      | succ k =>
        refine ih hrest hb ?_ fun p hp => ?_
        · show n.flags.tail[k]? = some true
          rw [List.getElem?_tail]
          exact hup
        · have hmore := hroom' p hp
          rw [List.count_cons_self, List.count_cons_of_ne (by decide)] at hmore
          omega

/-- A late branch has 64 groups between it and the `else` of its group. -/
theorem Turns.exists_deep {n m : Nesting} {ws b : List FlowWord} (h : Turns n ws m)
    (hlate : Late ws b) : ∃ p, p <+: b ∧ p.count .endIf + Nesting.depth ≤ p.count .if := by
  obtain ⟨a, w, c, rfl, hw, hb⟩ := hlate
  rw [List.append_assoc] at h
  obtain ⟨u, -, hb'⟩ := h.append
  cases hb' with
  | cons helse hrest =>
    by_contra hno
    obtain ⟨-, rfl⟩ := helse
    refine hrest.not_late hw hb rfl fun p hp => ?_
    have hroom : ¬ p.count .endIf + Nesting.depth ≤ p.count .if := fun hle => hno ⟨p, hp, hle⟩
    omega

theorem elses_note (s : State) (c : Complaint) (place : Span) :
    (s.note c place).elses = s.elses := by
  unfold State.note
  repeat' split
  all_goals rfl

theorem elses_noteIf (s : State) (b : Bool) (c : Complaint) (place : Span) :
    (s.noteIf b c place).elses = s.elses := by
  cases b with
  | false => rfl
  | true => exact elses_note s c place

theorem elses_leftParen (s : State) (place : Span) : (s.leftParen place).elses = s.elses := by
  unfold State.leftParen
  dsimp only
  split
  · exact elses_note _ _ _
  · exact elses_noteIf _ _ _ _

theorem elses_rightParen (s : State) (place : Span) : (s.rightParen place).elses = s.elses := by
  unfold State.rightParen
  rw [elses_noteIf]
  dsimp only
  split <;> split <;> simp only [elses_note]

theorem elses_modulus (s : State) (place : Span) : (s.modulus place).elses = s.elses := by
  unfold State.modulus
  dsimp only
  split <;> exact elses_noteIf _ _ _ _

theorem elses_closeGroups (s : State) (place : Span) : (s.closeGroups place).elses = s.elses :=
  (elses_noteIf _ _ _ _).trans (elses_noteIf _ _ _ _)

theorem elses_colon (s : State) (place : Span) : (s.colon place).elses = s.elses :=
  (elses_noteIf _ _ _ _).trans (elses_noteIf _ _ _ _)

theorem elses_endOfStatement (s : State) (isColon : Bool) (place : Span) :
    (endOfStatement s isColon place).elses = s.elses := by
  unfold endOfStatement
  dsimp only
  split
  · exact elses_closeGroups _ _
  · exact (elses_noteIf _ _ _ _).trans (elses_closeGroups _ _)

theorem elses_separator (s : State) (isColon : Bool) (place : Span) :
    (s.separator isColon place).elses = s.elses := by
  have hend := elses_endOfStatement s isColon place
  cases isColon with
  | false => exact hend
  | true => exact (elses_colon _ _).trans hend

theorem elses_close (s : State) (place : Span) : (s.close place).elses = s.elses := by
  unfold State.close
  dsimp only
  rw [elses_noteIf]
  split
  · exact (elses_note _ _ _).trans ((elses_noteIf _ _ _ _).trans (elses_closeGroups _ _))
  · exact (elses_noteIf _ _ _ _).trans (elses_closeGroups _ _)

theorem elses_take {l : Lexeme} (hl : ∀ w, l ≠ .flow w) (s : State) (size : Nat) (place : Span) :
    (s.take l size place).elses = s.elses := by
  unfold State.take
  split
  · exact elses_note _ _ _
  · dsimp only
    have hsame : ({ s with afterCaret := false }.addChars size).elses = s.elses := rfl
    generalize { s with afterCaret := false }.addChars size = t at hsame
    rw [← hsame]
    cases l with
    | flow w => exact absurd rfl (hl w)
    | leftParen => exact elses_leftParen t place
    | rightParen => exact elses_rightParen t place
    | close => exact elses_close t place
    | fault => exact elses_note _ _ _
    | name | literal | call => exact elses_noteIf _ _ _ _
    | operator o =>
      cases o with
      | comma | colon => exact elses_separator t _ place
      | modulus => exact elses_modulus t place
      | minus => rfl
      | _ => exact elses_noteIf _ _ _ _

theorem turn_flow {s : State} {w : FlowWord} {place : Span} (h : (s.flow w place).findings = []) :
    Turn s.elses (s.flow w place).elses w := by
  have branch {s : State} (h : (s.branch place).findings = []) :
      s.elses.isUp = false ∧ (s.branch place).elses = s.elses := by
    unfold State.branch at h ⊢
    split at h
    · exact absurd h (Keeps.note_ne_nil _ _ _)
    · rename_i hup
      rw [if_neg hup]
      exact ⟨Bool.eq_false_iff.mpr hup, elses_noteIf _ _ _ _⟩
  by_cases hfresh : (!s.fresh) = true
  · have hnote : s.flow w place = _ := if_pos hfresh
    rw [hnote] at h
    exact absurd h (Keeps.note_ne_nil _ _ _)
  · have hflow : s.flow w place = _ := if_neg hfresh
    rw [hflow] at h ⊢
    cases w with
    | «if» => rfl
    | elseIf => exact branch h
    | «else» =>
      obtain ⟨hdown, hsame⟩ := branch h
      exact ⟨hdown, congrArg (·.set true) hsame⟩
    | endIf =>
      dsimp only
      split
      · exact elses_note _ _ _
      · rfl

theorem turn_take {s : State} {w : FlowWord} {size : Nat} {place : Span}
    (h : (s.take (.flow w) size place).findings = []) :
    Turn s.elses (s.take (.flow w) size place).elses w := by
  unfold State.take at h ⊢
  split at h
  · exact absurd h (Keeps.note_ne_nil _ _ _)
  · rename_i hcaret
    rw [if_neg hcaret]
    exact turn_flow h

/-- The flags of the open groups over the tokens of an accepted body. -/
theorem turns_of_run {pre rest : List Token} {t : Token} (hpre : ∀ u ∈ pre, u.kind ≠ .close)
    {tally : Tally} : ∀ {s : State}, run s (pre ++ t :: rest) = .ok tally →
      ∃ n, Turns s.elses (Lexeme.branches (pre.map Token.lexeme)) n := by
  induction pre with
  | nil => exact fun _ => ⟨_, .nil _⟩
  | cons v pre ih =>
    intro s hrun
    rcases run_cons_ok hrun with ⟨hclose, -⟩ | ⟨-, -, hrun⟩
    · exact absurd hclose (hpre v List.mem_cons_self)
    · obtain ⟨n, hturns⟩ := ih (fun u hu => hpre u (List.mem_cons_of_mem _ hu)) hrun
      have hnil := findings_of_run hrun
      rw [List.map_cons]
      cases hl : v.lexeme with
      | flow w =>
        rw [hl] at hturns hnil
        exact ⟨n, .cons (turn_take hnil) hturns⟩
      | _ =>
        rw [hl, elses_take (by simp)] at hturns
        exact ⟨n, hturns⟩

end Check

/-! ## Sections -/

namespace Lexeme

/-- `st` stands between two colons in `ls`, or between one of them and an end of `ls`. -/
structure Sections (pre st post ls : List Lexeme) : Prop where
  split : ls = pre ++ st ++ post
  before : ∀ l ∈ pre.getLast?, l = .operator .colon
  after : ∀ l ∈ post.head?, l = .operator .colon

theorem branches_append (a b : List Lexeme) : branches (a ++ b) = branches a ++ branches b := by
  induction a with
  | nil => rfl
  | cons l a ih =>
    cases l with
    | flow w => exact congrArg (w :: ·) ih
    | _ => exact ih

/-- No branch is open at either end of a section. -/
theorem Sections.balanced {pre st post ls : List Lexeme} (h : Sections pre st post ls)
    (hthreads : Check.Threads 0 false ls) : Balanced 0 (st.flatMap words) := by
  have tail {seen : Bool} (hst : Check.Threads 0 seen (st ++ post)) :
      Balanced 0 (st.flatMap words) := by
    cases hpost : post with
    | nil =>
      rw [hpost, List.append_nil] at hst
      exact Check.balanced_of_threads hst
    | cons l post' =>
      obtain rfl := h.after l (by rw [hpost]; rfl)
      rw [hpost] at hst
      exact Check.balanced_of_threads (Check.threads_colon hst).1
  rw [h.split] at hthreads
  rcases List.eq_nil_or_concat pre with hnil | ⟨a, l, hconcat⟩
  · rw [hnil] at hthreads
    exact tail hthreads
  · rw [List.concat_eq_append] at hconcat
    obtain rfl := h.before l (by rw [hconcat]; simp)
    rw [hconcat, List.append_assoc, List.append_assoc] at hthreads
    exact tail (Check.threads_colon hthreads).2

end Lexeme

open Lexeme FlowWord

/-- In each section of an accepted body `if` and `endif` are balanced, and `else` and `elseif` stand
between them.  The branches form groups exactly if no `else` or `elseif` comes after the `else` of
its group with 64 groups open in between. -/
theorem grouped_branches {text : String} {offset : Nat} {tally : Tally}
    (h : check text offset = .ok tally) {pre st post : List Lexeme}
    (hst : Sections pre st post (Lexeme.ofBody text offset)) :
    Balanced 0 (st.flatMap words) ∧ (Grouped (branches st) ↔ Recalled (branches st)) := by
  obtain ⟨body, t, rest, hstream, ht, hbody, hthreads⟩ := exists_of_check h
  have hclose : ∀ u ∈ body, u.kind ≠ .close := fun u hu hkind => by
    simpa [hkind] using hbody u hu
  rw [Lexeme.ofBody_of_stream hstream ht hbody] at hst
  have hbalanced := hst.balanced hthreads
  refine ⟨hbalanced, (grouped_iff hbalanced).trans ⟨fun hno b hb => absurd hb (hno b), ?_⟩⟩
  intro hrecalled b hlate
  rw [check, hstream] at h
  obtain ⟨n, hturns⟩ := Check.turns_of_run hclose h
  rw [hst.split, branches_append, branches_append, List.append_assoc] at hturns
  obtain ⟨u, -, hturns⟩ := hturns.append
  obtain ⟨v, hturns, -⟩ := hturns.append
  obtain ⟨p, hp, hdeep⟩ := hturns.exists_deep hlate
  exact absurd (hrecalled b hlate p hp) (Nat.not_lt.mpr hdeep)

theorem grouped_branches_nested : ∃ text tally pre st post, check text 0 = .ok tally ∧
    Sections pre st post (Lexeme.ofBody text 0) ∧
      branches st = [.if, .elseIf, .else, .if, .endIf, .endIf] ∧ Grouped (branches st) := by
  let text := "if(z),endif:if(c),z=c,elseif(z),else,if(c),endif,endif,\x7d"
  let pre : List Lexeme :=
    [.flow .if, .leftParen, .name "z", .rightParen, .operator .comma, .flow .endIf,
      .operator .colon]
  let st : List Lexeme :=
    [.flow .if, .leftParen, .name "c", .rightParen, .operator .comma, .name "z",
      .operator .assign, .name "c", .operator .comma, .flow .elseIf, .leftParen, .name "z",
      .rightParen, .operator .comma, .flow .else, .operator .comma, .flow .if, .leftParen,
      .name "c", .rightParen, .operator .comma, .flow .endIf, .operator .comma, .flow .endIf]
  have hstream : Token.stream (Cursor.seek text 0) = Token.firstTokens 60 (Cursor.seek text 0) :=
    Token.stream_eq_firstTokens (by decide +kernel)
  obtain ⟨tally, h⟩ : ∃ tally, check text 0 = .ok tally := by
    refine exists_check ?_
    rw [check, hstream]
    decide +kernel
  have hlexemes : Lexeme.ofBody text 0 = pre ++ st ++ [] := by
    rw [Lexeme.ofBody, hstream]
    decide +kernel
  have hst : Sections pre st [] (Lexeme.ofBody text 0) := ⟨hlexemes, by simp [pre], by simp⟩
  exact ⟨text, tally, pre, st, [], h, hst, rfl,
    (grouped_branches h hst).2.mpr (recalled_of_count (by decide))⟩

/-- One group has an `else` on either side of 64 groups. -/
theorem exists_second_else : ∃ text tally pre st post, check text 0 = .ok tally ∧
    Sections pre st post (Lexeme.ofBody text 0) ∧ ¬ Grouped (branches st) := by
  let chars := "if(z),else,".toList ++ (List.replicate 64 "if(z),".toList).flatten ++
    (List.replicate 64 "endif,".toList).flatten ++ "else,endif,\x7d".toList
  let text := String.ofList chars
  let opening : List Lexeme :=
    [.flow .if, .leftParen, .name "z", .rightParen, .operator .comma]
  let st : List Lexeme :=
    opening ++ [.flow .else, .operator .comma] ++ (List.replicate 64 opening).flatten ++
      (List.replicate 64 [Lexeme.flow .endIf, .operator .comma]).flatten ++
        [.flow .else, .operator .comma, .flow .endIf]
  have hstream : Token.stream (Cursor.seek text 0) = Token.firstTokens 800 _ :=
    Token.stream_ofList (by decide +kernel)
  -- both at once, so that the tokens are read only once
  obtain ⟨haccepted, hlexemes⟩ :
      (check text 0).toOption.isSome = true ∧ Lexeme.ofBody text 0 = [] ++ st ++ [] := by
    rw [check, Lexeme.ofBody, hstream]
    decide +kernel
  obtain ⟨tally, h⟩ := exists_check haccepted
  refine ⟨text, tally, [], st, [], h, ⟨hlexemes, by simp, by simp⟩, fun hgrouped => ?_⟩
  let b : List FlowWord := List.replicate 64 .if ++ List.replicate 64 .endIf
  have hbranches : branches st = [.if] ++ .else :: b ++ .else :: [.endIf] := by decide +kernel
  exact hgrouped.not_late ⟨[.if], .else, [.endIf], hbranches, .inl rfl, rfl⟩

end FractalFormula
