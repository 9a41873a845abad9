/-
Formula bodies with empty statements.

Between two separators there may be nothing at all, and a colon may have nothing on either side.  A
`Passage` is a `Block` in which such statements are items of their own, and a `Script` a `Source`
made of passages; blocks are the passages without empty statements (`Block.passage`).
-/
import FractalFormula.Proofs.Syntax

namespace FractalFormula

mutual

/-- Statements and branches one after another, some statements empty. -/
inductive Passage where
  | nil
  | blank (next : Passage)
  | statement (s : Statement) (next : Passage)
  | branch (condition : Expr) (body : Passage) (rest : Closing) (next : Passage)

/-- What follows the first passage of a branch, up to its `endif`. -/
inductive Closing where
  | endIf
  | «else» (body : Passage)
  | elseIf (condition : Expr) (body : Passage) (rest : Closing)

end

mutual

/-- The lexemes of a passage whose first item comes after the separator `b`. -/
def Passage.lexemes (b : Break) : Passage → List Lexeme
  | .nil => []
  | .blank next => b.lexemes ++ next.lexemes .comma
  | .statement s next => b.lexemes ++ s.lexemes ++ next.lexemes .comma
  | .branch c body rest next =>
    b.lexemes ++ .flow .if :: c.lexemes ++ body.lexemes .comma ++ rest.lexemes
      ++ next.lexemes .comma

def Closing.lexemes : Closing → List Lexeme
  | .endIf => [.operator .comma, .flow .endIf]
  | .else body =>
    .operator .comma :: .flow .else :: body.lexemes .comma ++ [.operator .comma, .flow .endIf]
  | .elseIf c body rest =>
    .operator .comma :: .flow .elseIf :: c.lexemes ++ body.lexemes .comma ++ rest.lexemes

end

mutual

/-- The entries of the jump table, two for an `elseif`. -/
def Passage.words : Passage → List FlowWord
  | .nil => []
  | .blank next | .statement _ next => next.words
  | .branch _ body rest next => .if :: body.words ++ rest.words ++ next.words

def Closing.words : Closing → List FlowWord
  | .endIf => [.endIf]
  | .else body => .else :: body.words ++ [.endIf]
  | .elseIf _ body rest => .elseIf :: .elseIf :: body.words ++ rest.words

end

mutual

/-- Every expression satisfies `P`, and every condition stands in parentheses. -/
def Passage.All (P : Expr → Prop) : Passage → Prop
  | .nil => True
  | .blank next => next.All P
  | .statement s next => P s.value ∧ next.All P
  | .branch c body rest next =>
    (c.isBracketed = true ∧ P c) ∧ body.All P ∧ rest.All P ∧ next.All P

def Closing.All (P : Expr → Prop) : Closing → Prop
  | .endIf => True
  | .else body => body.All P
  | .elseIf c body rest => (c.isBracketed = true ∧ P c) ∧ body.All P ∧ rest.All P

end

/-- A formula body, with or without an init section, either of which may be empty. -/
structure Script where
  init : Option Passage
  loop : Passage

namespace Script

def lexemes (s : Script) : List Lexeme :=
  match s.init with
  | none => s.loop.lexemes .none ++ [.close]
  | some p => p.lexemes .none ++ .operator .colon :: s.loop.lexemes .none ++ [.close]

def words (s : Script) : List FlowWord :=
  match s.init with
  | none => s.loop.words
  | some p => p.words ++ s.loop.words

def All (P : Expr → Prop) (s : Script) : Prop :=
  (∀ p ∈ s.init, p.All P) ∧ s.loop.All P

end Script

/-! ## Blocks -/

mutual

def Block.passage : Block → Passage
  | .nil => .nil
  | .statement s next => .statement s next.passage
  | .branch c body rest next => .branch c body.passage rest.closing next.passage

def Tail.closing : Tail → Closing
  | .endIf => .endIf
  | .else body => .else body.passage
  | .elseIf c body rest => .elseIf c body.passage rest.closing

end

mutual

theorem Block.lexemes_passage (b : Break) : ∀ x : Block, x.passage.lexemes b = x.lexemes b
  | .nil => rfl
  | .statement s next => by
    simp only [Block.passage, Passage.lexemes, Block.lexemes, Block.lexemes_passage .comma next]
  | .branch c body rest next => by
    simp only [Block.passage, Passage.lexemes, Block.lexemes, Block.lexemes_passage .comma body,
      Tail.lexemes_closing rest, Block.lexemes_passage .comma next]

theorem Tail.lexemes_closing : ∀ x : Tail, x.closing.lexemes = x.lexemes
  | .endIf => rfl
  | .else body => by
    simp only [Tail.closing, Closing.lexemes, Tail.lexemes, Block.lexemes_passage .comma body]
  | .elseIf c body rest => by
    simp only [Tail.closing, Closing.lexemes, Tail.lexemes, Block.lexemes_passage .comma body,
      Tail.lexemes_closing rest]

end

mutual

theorem Block.words_passage : ∀ x : Block, x.passage.words = x.words
  | .nil => rfl
  | .statement _ next => Block.words_passage next
  | .branch c body rest next => by
    simp only [Block.passage, Passage.words, Block.words, Block.words_passage body,
      Tail.words_closing rest, Block.words_passage next]

theorem Tail.words_closing : ∀ x : Tail, x.closing.words = x.words
  | .endIf => rfl
  | .else body => by
    simp only [Tail.closing, Closing.words, Tail.words, Block.words_passage body]
  | .elseIf c body rest => by
    simp only [Tail.closing, Closing.words, Tail.words, Block.words_passage body,
      Tail.words_closing rest]

end

mutual

theorem Block.all_passage {P : Expr → Prop} : ∀ {x : Block}, x.All P → x.passage.All P
  | .nil, h => h
  | .statement _ _, h => ⟨h.1, Block.all_passage h.2⟩
  | .branch _ _ _ _, h =>
    ⟨h.1, Block.all_passage h.2.1, Tail.all_closing h.2.2.1, Block.all_passage h.2.2.2⟩

theorem Tail.all_closing {P : Expr → Prop} : ∀ {x : Tail}, x.All P → x.closing.All P
  | .endIf, h => h
  | .else _, h => Block.all_passage h
  | .elseIf _ _ _, h => ⟨h.1, Block.all_passage h.2.1, Tail.all_closing h.2.2⟩

end

namespace Source

def script (s : Source) : Script :=
  ⟨s.init.map Block.passage, s.loop.passage⟩

theorem all_script {P : Expr → Prop} {s : Source} (h : s.All P) : s.script.All P := by
  refine ⟨fun p hp => ?_, Block.all_passage h.2⟩
  obtain ⟨x, hx, rfl⟩ := Option.map_eq_some_iff.mp hp
  exact Block.all_passage (h.1 x hx).2.2

theorem words_script (s : Source) : s.script.words = s.words := by
  obtain ⟨init, loop⟩ := s
  cases init with
  | none => exact loop.words_passage
  | some x => simp only [script, Script.words, words, Option.map, Block.words_passage]

/-- The separator before a block with something in it comes before its first item. -/
theorem lexemes_colon {x : Block} (h : x ≠ .nil) :
    x.lexemes .colon = .operator .colon :: x.lexemes .none := by
  cases x with
  | nil => exact absurd rfl h
  | _ => rfl

theorem lexemes_script {P : Expr → Prop} {s : Source} (h : s.All P) :
    s.script.lexemes = s.lexemes := by
  obtain ⟨init, loop⟩ := s
  cases init with
  | none => simp only [script, Script.lexemes, lexemes, Option.map, Block.lexemes_passage]
  | some x =>
    have hloop : loop ≠ .nil := (h.1 x rfl).2.1
    simp only [script, Script.lexemes, lexemes, Option.map, Block.lexemes_passage,
      lexemes_colon hloop, List.append_assoc, List.cons_append]

end Source
end FractalFormula
