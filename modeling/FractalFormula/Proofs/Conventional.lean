/-
Every text has a conventional reading.

A tree that was put together without regard to precedence is rebuilt, operator by operator, into a
conventional one with the same lexemes (`Source.exists_conventional`).  So nothing is lost by
speaking of conventional trees only.
-/
import FractalFormula.Proofs.Syntax

namespace FractalFormula
namespace Expr

/-! ## Appending an operator -/

/-- The tree of `t o p`, where `p` binds tighter than `o`: the operator goes down the right side of
`t` to the first operator that binds no looser. -/
def attach (o : Infix) (p : Expr) : Expr → Expr
  | binary o' l r => if o'.rank ≤ o.rank then binary o (binary o' l r) p
    else binary o' l (attach o p r)
  | t => binary o t p

theorem attach_of_rank_le {o o' : Infix} {p l r : Expr} (h : o'.rank ≤ o.rank) :
    attach o p (binary o' l r) = binary o (binary o' l r) p :=
  if_pos h

theorem attach_of_lt_rank {o o' : Infix} {p l r : Expr} (h : o.rank < o'.rank) :
    attach o p (binary o' l r) = binary o' l (attach o p r) :=
  if_neg (Nat.not_le.mpr h)

theorem rank_attach_lt {o : Infix} {p t : Expr} {n : Nat} (ho : o.rank < n) (ht : t.rank < n) :
    (attach o p t).rank < n := by
  cases t with
  | binary o' l r =>
    by_cases h : o'.rank ≤ o.rank
    · rw [attach_of_rank_le h]
      exact ho
    · rw [attach_of_lt_rank (Nat.not_le.mp h)]
      exact ht
  | _ => exact ho

theorem lexemes_attach (o : Infix) (p t : Expr) :
    (attach o p t).lexemes = t.lexemes ++ .operator o.operator :: p.lexemes := by
  induction t with
  | binary o' l r _ ihr =>
    by_cases h : o'.rank ≤ o.rank
    · rw [attach_of_rank_le h]; rfl
    · rw [attach_of_lt_rank (Nat.not_le.mp h), lexemes, ihr, lexemes, List.append_assoc,
        List.cons_append]
  | _ => rfl

theorem depth_attach (o : Infix) (p t : Expr) : (attach o p t).depth = max t.depth p.depth := by
  induction t with
  | binary o' l r _ ihr =>
    by_cases h : o'.rank ≤ o.rank
    · rw [attach_of_rank_le h]; rfl
    · rw [attach_of_lt_rank (Nat.not_le.mp h), depth, ihr, depth, Nat.max_assoc]
  | _ => rfl

theorem Plain.attach {o : Infix} {p t : Expr} (hp : p.Plain) (ht : t.Plain) :
    (attach o p t).Plain := by
  induction t with
  | binary o' l r _ ihr =>
    by_cases h : o'.rank ≤ o.rank
    · rw [attach_of_rank_le h]
      exact ⟨ht, hp⟩
    · rw [attach_of_lt_rank (Nat.not_le.mp h)]
      exact ⟨ht.1, ihr ht.2⟩
  | _ => exact ⟨ht, hp⟩

theorem Conventional.attach {o : Infix} {p t : Expr} (hp : p.Conventional) (ht : t.Conventional)
    (hrank : p.rank < o.rank) : (attach o p t).Conventional := by
  induction t with
  | binary o' l r _ ihr =>
    by_cases h : o'.rank ≤ o.rank
    · rw [attach_of_rank_le h]
      exact ⟨h, hrank, ht, hp⟩
    · rw [attach_of_lt_rank (Nat.not_le.mp h)]
      obtain ⟨hl, hr, htl, htr⟩ := ht
      exact ⟨hl, rank_attach_lt (Nat.not_le.mp h) hr, htl, ihr htr⟩
  | _ => exact ⟨Nat.zero_le _, hrank, ht, hp⟩

/-! ## Joining two trees -/

/-- The tree of `l o r`, operator by operator of `r`. -/
def join (l : Expr) (o : Infix) : Expr → Expr
  | binary o' a b => attach o' b (join l o a)
  | p => attach o p l

theorem lexemes_join (l : Expr) (o : Infix) (r : Expr) :
    (join l o r).lexemes = l.lexemes ++ .operator o.operator :: r.lexemes := by
  induction r with
  | binary o' a b iha _ =>
    rw [join, lexemes_attach, iha, lexemes, List.append_assoc, List.cons_append]
  | _ => exact lexemes_attach _ _ _

theorem depth_join (l : Expr) (o : Infix) (r : Expr) :
    (join l o r).depth = max l.depth r.depth := by
  induction r with
  | binary o' a b iha _ => rw [join, depth_attach, iha, depth, Nat.max_assoc]
  | _ => exact depth_attach _ _ _

theorem Plain.join {l r : Expr} {o : Infix} (hl : l.Plain) (hr : r.Plain) :
    (join l o r).Plain := by
  induction r with
  | binary o' a b iha _ => exact Plain.attach hr.2 (iha hr.1)
  | _ => exact Plain.attach hr hl

theorem Conventional.join {l r : Expr} {o : Infix} (hl : l.Conventional) (hr : r.Conventional) :
    (join l o r).Conventional := by
  induction r with
  | binary o' a b iha _ =>
    obtain ⟨_, hb, hca, hcb⟩ := hr
    exact Conventional.attach hcb (iha hca) hb
  | _ => exact Conventional.attach hr hl o.rank_pos

/-! ## Rebuilding -/

/-- The conventional tree with the lexemes of a plain one. -/
def rebuild : Expr → Expr
  | name text => name text
  | literal text value isPair => literal text value isPair
  | group e => group e.rebuild
  | call f e => call f e.rebuild
  | binary o l r => join l.rebuild o r.rebuild
  | minus e => minus e.rebuild
  | modulus e => modulus e.rebuild

theorem lexemes_rebuild (e : Expr) : e.rebuild.lexemes = e.lexemes := by
  induction e with
  | name | literal => rfl
  | group e ih | call f e ih | minus e ih | modulus e ih => simp only [rebuild, lexemes, ih]
  | binary o l r ihl ihr => rw [rebuild, lexemes_join, ihl, ihr, lexemes]

theorem depth_rebuild (e : Expr) : e.rebuild.depth = e.depth := by
  induction e with
  | name | literal => rfl
  | group e ih | call f e ih | minus e ih | modulus e ih => simp only [rebuild, depth, ih]
  | binary o l r ihl ihr => rw [rebuild, depth_join, ihl, ihr, depth]

theorem isBracketed_rebuild {e : Expr} (h : e.isBracketed = true) :
    e.rebuild.isBracketed = true := by
  cases e <;> first | exact h | simp [isBracketed] at h

theorem Plain.rebuild {e : Expr} (h : e.Plain) : e.rebuild.Plain := by
  induction e with
  | name | literal => trivial
  | group e ih => exact ih h
  | call f e ih => exact ⟨isBracketed_rebuild h.1, ih h.2⟩
  | binary o l r ihl ihr => exact Plain.join (ihl h.1) (ihr h.2)
  | minus | modulus => exact h.elim

theorem Plain.conventional_rebuild {e : Expr} (h : e.Plain) : e.rebuild.Conventional := by
  induction e with
  | name | literal => trivial
  | group e ih => exact ih h
  | call f e ih => exact ⟨isBracketed_rebuild h.1, ih h.2⟩
  | binary o l r ihl ihr => exact Conventional.join (ihl h.1) (ihr h.2)
  | minus | modulus => exact h.elim

end Expr

/-! ## Blocks -/

mutual

/-- The same block with other expressions. -/
def Block.map (f : Expr → Expr) : Block → Block
  | .nil => .nil
  | .statement s next => .statement { s with value := f s.value } (next.map f)
  | .branch c body rest next => .branch (f c) (body.map f) (rest.map f) (next.map f)

def Tail.map (f : Expr → Expr) : Tail → Tail
  | .endIf => .endIf
  | .else body => .else (body.map f)
  | .elseIf c body rest => .elseIf (f c) (body.map f) (rest.map f)

end

theorem Block.map_eq_nil {f : Expr → Expr} {b : Block} : b.map f = .nil ↔ b = .nil := by
  cases b <;> simp [Block.map]

section

variable {f : Expr → Expr}

mutual

theorem Block.lexemes_map (hf : ∀ e, (f e).lexemes = e.lexemes) (b : Break) :
    ∀ x : Block, (x.map f).lexemes b = x.lexemes b
  | .nil => rfl
  | .statement s next => by
    simp only [Block.map, Block.lexemes, Statement.lexemes, hf, Block.lexemes_map hf .comma next]
  | .branch c body rest next => by
    simp only [Block.map, Block.lexemes, hf, Block.lexemes_map hf .comma body,
      Tail.lexemes_map hf rest, Block.lexemes_map hf .comma next]

theorem Tail.lexemes_map (hf : ∀ e, (f e).lexemes = e.lexemes) :
    ∀ x : Tail, (x.map f).lexemes = x.lexemes
  | .endIf => rfl
  | .else body => by simp only [Tail.map, Tail.lexemes, Block.lexemes_map hf .comma body]
  | .elseIf c body rest => by
    simp only [Tail.map, Tail.lexemes, hf, Block.lexemes_map hf .comma body,
      Tail.lexemes_map hf rest]

end

mutual

theorem Block.words_map : ∀ x : Block, (x.map f).words = x.words
  | .nil => rfl
  | .statement s next => by simp only [Block.map, Block.words, Block.words_map next]
  | .branch c body rest next => by
    simp only [Block.map, Block.words, Block.words_map body, Tail.words_map rest,
      Block.words_map next]

theorem Tail.words_map : ∀ x : Tail, (x.map f).words = x.words
  | .endIf => rfl
  | .else body => by simp only [Tail.map, Tail.words, Block.words_map body]
  | .elseIf c body rest => by
    simp only [Tail.map, Tail.words, Block.words_map body, Tail.words_map rest]

end

variable {P Q : Expr → Prop}

mutual

theorem Block.All.map (hf : ∀ e, P e → Q (f e))
    (hbracket : ∀ e : Expr, e.isBracketed = true → (f e).isBracketed = true) :
    ∀ {x : Block}, x.All P → (x.map f).All Q
  | .nil, _ => trivial
  | .statement _ _, h => ⟨hf _ h.1, Block.All.map hf hbracket h.2⟩
  | .branch _ _ _ _, h =>
    ⟨⟨hbracket _ h.1.1, hf _ h.1.2⟩, Block.All.map hf hbracket h.2.1, Tail.All.map hf hbracket h.2.2.1,
      Block.All.map hf hbracket h.2.2.2⟩

theorem Tail.All.map (hf : ∀ e, P e → Q (f e))
    (hbracket : ∀ e : Expr, e.isBracketed = true → (f e).isBracketed = true) :
    ∀ {x : Tail}, x.All P → (x.map f).All Q
  | .endIf, _ => trivial
  | .else _, h => Block.All.map (x := _) hf hbracket h
  | .elseIf _ _ _, h =>
    ⟨⟨hbracket _ h.1.1, hf _ h.1.2⟩, Block.All.map hf hbracket h.2.1, Tail.All.map hf hbracket h.2.2⟩

end

end

namespace Source

def map (f : Expr → Expr) (s : Source) : Source :=
  ⟨s.init.map (Block.map f), s.loop.map f⟩

theorem lexemes_map {f : Expr → Expr} (hf : ∀ e, (f e).lexemes = e.lexemes) (s : Source) :
    (s.map f).lexemes = s.lexemes := by
  obtain ⟨init, loop⟩ := s
  cases init <;> simp only [map, lexemes, Option.map, Block.lexemes_map hf]

theorem words_map (f : Expr → Expr) (s : Source) : (s.map f).words = s.words := by
  obtain ⟨init, loop⟩ := s
  cases init <;> simp only [map, words, Option.map, Block.words_map]

/-- What is rendered without minus signs and bars has a conventional reading, with parentheses and
branches nested as they were. -/
theorem exists_conventional {s : Source} {n : Nat} (h : s.All fun e => e.Plain ∧ e.depth < n) :
    ∃ s' : Source, s'.All (fun e => e.Plain ∧ e.Conventional ∧ e.depth < n) ∧
      s'.lexemes = s.lexemes ∧ s'.words = s.words := by
  have hf : ∀ e : Expr, e.Plain ∧ e.depth < n →
      e.rebuild.Plain ∧ e.rebuild.Conventional ∧ e.rebuild.depth < n := by
    intro e he
    rw [e.depth_rebuild]
    exact ⟨he.1.rebuild, he.1.conventional_rebuild, he.2⟩
  have hbracket := fun e : Expr => e.isBracketed_rebuild
  refine ⟨s.map Expr.rebuild, ⟨?_, h.2.map hf hbracket⟩, s.lexemes_map Expr.lexemes_rebuild,
    s.words_map _⟩
  intro b hb
  obtain ⟨b', hb', rfl⟩ := Option.map_eq_some_iff.mp hb
  obtain ⟨hnil, hloop, hall⟩ := h.1 b' hb'
  exact ⟨mt Block.map_eq_nil.mp hnil, mt Block.map_eq_nil.mp hloop, hall.map hf hbracket⟩

end Source
end FractalFormula
