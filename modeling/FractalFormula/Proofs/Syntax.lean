/-
Formula bodies as trees.

A tree is an account of a list of lexemes: `lexemes` writes it down, and nothing of the tree that
cannot be seen there matters to the text.  What the tree adds is which operands an operator has,
which branch a statement stands in, and in which order things are carried out (`postorder`, `code`).

Parentheses are nodes of their own, so that a tree is conventional if every operator has the
operands that the usual precedences give it; see `Expr.Conventional`.
-/
import FractalFormula.Proofs.Lexeme

namespace FractalFormula

/-! ## Operators -/

/-- The operators that stand between two operands. -/
inductive Infix where
  | pow | mul | div | add | sub | lt | le | gt | ge | eq | ne | and | or
  deriving DecidableEq, Repr

namespace Infix

def operator : Infix → Operator
  | pow => .caret
  | mul => .star
  | div => .slash
  | add => .plus
  | sub => .minus
  | lt => .lt
  | le => .le
  | gt => .gt
  | ge => .ge
  | eq => .eq
  | ne => .ne
  | and => .and
  | or => .or

def opcode : Infix → Opcode
  | pow => .pow
  | mul => .mul
  | div => .div
  | add => .add
  | sub => .sub
  | lt => .lt
  | le => .le
  | gt => .gt
  | ge => .ge
  | eq => .eq
  | ne => .ne
  | and => .and
  | or => .or

/-- The levels of precedence, the tightest first. -/
def rank : Infix → Nat
  | pow => 1
  | mul | div => 2
  | add | sub => 3
  | lt | le | gt | ge | eq | ne => 4
  | and | or => 5

theorem rank_pos (o : Infix) : 0 < o.rank := by
  cases o <;> decide

end Infix

/-! ## Expressions -/

/-- What a load refers to: a variable by its name, or a literal by its text and value. -/
inductive Operand where
  | name (text : String)
  | literal (text : String) (value : Complex Float)
  deriving DecidableEq, Repr

inductive Expr where
  | name (text : String)
  | literal (text : String) (value : Complex Float) (isPair : Bool)
  | group (e : Expr)
  | call (f : Func) (argument : Expr)
  | binary (o : Infix) (left right : Expr)
  | minus (e : Expr)
  | modulus (e : Expr)
  deriving DecidableEq, Repr

namespace Expr

def lexemes : Expr → List Lexeme
  | name text => [.name text]
  | literal text value isPair => [.literal text value isPair]
  | group e => .leftParen :: e.lexemes ++ [.rightParen]
  | call f e => .call f :: e.lexemes
  | binary o l r => l.lexemes ++ .operator o.operator :: r.lexemes
  | minus e => .operator .minus :: e.lexemes
  | modulus e => .operator .modulus :: e.lexemes ++ [.operator .modulus]

/-- The instructions of an expression: an operator after its operands. -/
def postorder : Expr → List Opcode
  | name _ | literal _ _ _ => [.load]
  | group e => e.postorder
  | call f e => e.postorder ++ [.call f]
  | binary o l r => l.postorder ++ r.postorder ++ [o.opcode]
  | minus e => e.postorder ++ [.neg]
  | modulus e => e.postorder ++ [.mod]

/-- What the loads of an expression refer to, in the order of the text. -/
def operands : Expr → List Operand
  | name text => [.name text]
  | literal text value _ => [.literal text value]
  | group e | call _ e | minus e | modulus e => e.operands
  | binary _ l r => l.operands ++ r.operands

/-- How deep the parentheses are nested.  Those of a pair do not count. -/
def depth : Expr → Nat
  | name _ | literal _ _ _ => 0
  | group e => e.depth + 1
  | call _ e | minus e | modulus e => e.depth
  | binary _ l r => max l.depth r.depth

/-- The argument of a function stands in parentheses. -/
def isBracketed : Expr → Bool
  | group _ | literal _ _ true => true
  | _ => false

/-- The level of the outermost operator; zero for a single operand. -/
def rank : Expr → Nat
  | binary o _ _ => o.rank
  | _ => 0

/-- Neither a minus sign nor a bar; functions are applied to arguments in parentheses. -/
def Plain : Expr → Prop
  | name _ | literal _ _ _ => True
  | group e => e.Plain
  | call _ e => e.isBracketed = true ∧ e.Plain
  | binary _ l r => l.Plain ∧ r.Plain
  | minus _ | modulus _ => False

/-- Every operator has the operands that precedence and association to the left give it.  A minus
sign before an operand belongs to that operand alone, as a function does. -/
def Conventional : Expr → Prop
  | name _ | literal _ _ _ => True
  | group e | modulus e => e.Conventional
  | call _ e => e.isBracketed = true ∧ e.Conventional
  | binary o l r => l.rank ≤ o.rank ∧ r.rank < o.rank ∧ l.Conventional ∧ r.Conventional
  | minus e => e.rank = 0 ∧ e.Conventional

end Expr

/-! ## Statements and blocks -/

/-- An expression and the variables its value is assigned to, in the order of the text. -/
structure Statement where
  targets : List String
  value : Expr
  deriving DecidableEq, Repr

namespace Statement

def lexemes (s : Statement) : List Lexeme :=
  s.targets.flatMap (fun v => [.name v, .operator .assign]) ++ s.value.lexemes

def code (s : Statement) : List Opcode :=
  s.value.postorder ++ List.replicate s.targets.length .store

end Statement

/-- What stands before a statement. -/
inductive Break where
  | none | comma | colon
  deriving DecidableEq, Repr

namespace Break

def lexemes : Break → List Lexeme
  | none => []
  | comma => [.operator .comma]
  | colon => [.operator .colon]

def code : Break → List Opcode
  | none => []
  | comma => [.clear]
  | colon => [.endInit]

end Break

mutual

/-- Statements and branches one after another. -/
inductive Block where
  | nil
  | statement (s : Statement) (next : Block)
  | branch (condition : Expr) (body : Block) (rest : Tail) (next : Block)

/-- What follows the first block of a branch, up to its `endif`. -/
inductive Tail where
  | endIf
  | «else» (body : Block)
  | elseIf (condition : Expr) (body : Block) (rest : Tail)

end

mutual

/-- The lexemes of a block whose first item comes after the separator `b`. -/
def Block.lexemes (b : Break) : Block → List Lexeme
  | .nil => []
  | .statement s next => b.lexemes ++ s.lexemes ++ next.lexemes .comma
  | .branch c body rest next =>
    b.lexemes ++ .flow .if :: c.lexemes ++ body.lexemes .comma ++ rest.lexemes
      ++ next.lexemes .comma

def Tail.lexemes : Tail → List Lexeme
  | .endIf => [.operator .comma, .flow .endIf]
  | .else body =>
    .operator .comma :: .flow .else :: body.lexemes .comma ++ [.operator .comma, .flow .endIf]
  | .elseIf c body rest =>
    .operator .comma :: .flow .elseIf :: c.lexemes ++ body.lexemes .comma ++ rest.lexemes

end

mutual

def Block.code (b : Break) : Block → List Opcode
  | .nil => []
  | .statement s next => b.code ++ s.code ++ next.code .comma
  | .branch c body rest next =>
    b.code ++ c.postorder ++ .jumpOnFalse :: body.code .comma ++ rest.code ++ next.code .comma

/-- The jump at the end of the block before stands in front of an `else` or `elseif`, and the
instructions of a condition in front of the jump that tests it. -/
def Tail.code : Tail → List Opcode
  | .endIf => [.clear, .label]
  | .else body => .clear :: .jump :: body.code .comma ++ [.clear, .label]
  | .elseIf c body rest =>
    .clear :: .jump :: .clear :: c.postorder ++ .jumpOnFalse :: body.code .comma ++ rest.code

end

mutual

/-- The entries of the jump table, two for an `elseif`. -/
def Block.words : Block → List FlowWord
  | .nil => []
  | .statement _ next => next.words
  | .branch _ body rest next => .if :: body.words ++ rest.words ++ next.words

def Tail.words : Tail → List FlowWord
  | .endIf => [.endIf]
  | .else body => .else :: body.words ++ [.endIf]
  | .elseIf _ body rest => .elseIf :: .elseIf :: body.words ++ rest.words

end

mutual

def Block.operands : Block → List Operand
  | .nil => []
  | .statement s next => s.value.operands ++ next.operands
  | .branch c body rest next => c.operands ++ body.operands ++ rest.operands ++ next.operands

def Tail.operands : Tail → List Operand
  | .endIf => []
  | .else body => body.operands
  | .elseIf c body rest => c.operands ++ body.operands ++ rest.operands

end

mutual

/-- The variables that are assigned to, in the order of the text. -/
def Block.targets : Block → List String
  | .nil => []
  | .statement s next => s.targets ++ next.targets
  | .branch _ body rest next => body.targets ++ rest.targets ++ next.targets

def Tail.targets : Tail → List String
  | .endIf => []
  | .else body => body.targets
  | .elseIf _ body rest => body.targets ++ rest.targets

end

mutual

/-- Every expression satisfies `P`, and every condition stands in parentheses. -/
def Block.All (P : Expr → Prop) : Block → Prop
  | .nil => True
  | .statement s next => P s.value ∧ next.All P
  | .branch c body rest next =>
    (c.isBracketed = true ∧ P c) ∧ body.All P ∧ rest.All P ∧ next.All P

def Tail.All (P : Expr → Prop) : Tail → Prop
  | .endIf => True
  | .else body => body.All P
  | .elseIf c body rest => (c.isBracketed = true ∧ P c) ∧ body.All P ∧ rest.All P

end

/-- A formula body, with or without an init section. -/
structure Source where
  init : Option Block
  loop : Block

namespace Source

def lexemes (s : Source) : List Lexeme :=
  match s.init with
  | none => s.loop.lexemes .none ++ [.close]
  | some b => b.lexemes .none ++ s.loop.lexemes .colon ++ [.close]

def code (s : Source) : List Opcode :=
  match s.init with
  | none => s.loop.code .none
  | some b => b.code .none ++ s.loop.code .colon

def words (s : Source) : List FlowWord :=
  match s.init with
  | none => s.loop.words
  | some b => b.words ++ s.loop.words

def operands (s : Source) : List Operand :=
  match s.init with
  | none => s.loop.operands
  | some b => b.operands ++ s.loop.operands

def targets (s : Source) : List String :=
  match s.init with
  | none => s.loop.targets
  | some b => b.targets ++ s.loop.targets

/-- Every expression satisfies `P`, and a colon has something on either side. -/
def All (P : Expr → Prop) (s : Source) : Prop :=
  (∀ b ∈ s.init, b ≠ .nil ∧ s.loop ≠ .nil ∧ b.All P) ∧ s.loop.All P

/-- The tokens of a body are those of `s`, perhaps after a separator. -/
def Renders (s : Source) (tokens : List Token) : Prop :=
  ∃ b : Break, b ≠ .colon ∧ tokens.map Token.lexeme = b.lexemes ++ s.lexemes

end Source
end FractalFormula
