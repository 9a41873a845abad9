/-
Instructions with their operands.

The operands of a program stand in tables of their own.  `Expr.instructions` and its like put each
operand back where it is used; the code and the operands of a tree are what is left of them.
`Routine.Lists` says that a routine has given instructions from a place on.  It goes along with
appends, so every part of a tree finds its own operands (`lists_append`).
-/
import FractalFormula.Machine.Routine
import FractalFormula.Proofs.Place
import FractalFormula.Proofs.Slots

namespace FractalFormula

open Compile

/-- The instructions that take an operand from a table. -/
@[reducible] def Opcode.isTransfer : Opcode → Bool
  | .load | .store => true
  | _ => false

inductive Instruction where
  | load (o : Operand)
  | store (name : String)
  | plain (op : Opcode) (h : op.isTransfer = false := by rfl)

namespace Instruction

def opcode : Instruction → Opcode
  | load _ => .load
  | store _ => .store
  | plain op _ => op

def operand? : Instruction → Option Operand
  | load o => some o
  | store _ | plain _ _ => none

def target? : Instruction → Option String
  | store v => some v
  | load _ | plain _ _ => none

@[simp] theorem filterMap_operand?_plain {op : Opcode} (h : op.isTransfer = false)
    (xs : List Instruction) :
    (plain op h :: xs).filterMap operand? = xs.filterMap operand? := rfl

@[simp] theorem filterMap_target?_plain {op : Opcode} (h : op.isTransfer = false)
    (xs : List Instruction) : (plain op h :: xs).filterMap target? = xs.filterMap target? := rfl

end Instruction

/-! ## Trees -/

theorem Infix.isTransfer_opcode (o : Infix) : o.opcode.isTransfer = false := by
  cases o <;> rfl

def Expr.instructions : Expr → List Instruction
  | name text => [.load (.name text)]
  | literal text z _ => [.load (.literal text z)]
  | group e => e.instructions
  | call f e => e.instructions ++ [.plain (.call f)]
  | binary o l r => l.instructions ++ r.instructions ++ [.plain o.opcode o.isTransfer_opcode]
  | minus e => e.instructions ++ [.plain .neg]
  | modulus e => e.instructions ++ [.plain .mod]

def Statement.instructions (s : Statement) : List Instruction :=
  s.value.instructions ++ s.targets.map .store

def Break.instructions : Break → List Instruction
  | none => []
  | comma => [.plain .clear]
  | colon => [.plain .endInit]

mutual

def Block.instructions (b : Break) : Block → List Instruction
  | .nil => []
  | .statement s next => b.instructions ++ s.instructions ++ next.instructions .comma
  | .branch c body rest next =>
    b.instructions ++ c.instructions ++ .plain .jumpOnFalse :: body.instructions .comma
      ++ rest.instructions ++ next.instructions .comma

def Tail.instructions : Tail → List Instruction
  | .endIf => [.plain .clear, .plain .label]
  | .else body =>
    .plain .clear :: .plain .jump :: body.instructions .comma
      ++ [.plain .clear, .plain .label]
  | .elseIf c body rest =>
    .plain .clear :: .plain .jump :: .plain .clear :: c.instructions
      ++ .plain .jumpOnFalse :: body.instructions .comma ++ rest.instructions

end

namespace Source

def instructions (s : Source) : List Instruction :=
  match s.init with
  | none => s.loop.instructions .none
  | some b => b.instructions .none ++ s.loop.instructions .colon

end Source

open Instruction

theorem Expr.instructions_spec (e : Expr) : e.instructions.map opcode = e.postorder ∧
    e.instructions.filterMap operand? = e.operands ∧ e.instructions.filterMap target? = [] := by
  induction e with
  | name | literal => exact ⟨rfl, rfl, rfl⟩
  | group e ih => exact ih
  | call f e ih | minus e ih | modulus e ih =>
    simp [instructions, postorder, operands, ih, opcode]
  | binary o l r ihl ihr =>
    simp [instructions, postorder, operands, ihl, ihr, opcode]

theorem Statement.instructions_spec (s : Statement) : s.instructions.map opcode = s.code ∧
    s.instructions.filterMap operand? = s.value.operands ∧
    s.instructions.filterMap target? = s.targets := by
  have hcode : (s.targets.map store).map opcode = List.replicate s.targets.length .store := by
    rw [List.map_map]
    exact List.map_const' ..
  have hoperands : (s.targets.map store).filterMap operand? = [] := by
    rw [List.filterMap_map]
    exact List.filterMap_eq_nil_iff.mpr fun _ _ => rfl
  have htargets : (s.targets.map store).filterMap target? = s.targets := by
    rw [List.filterMap_map]
    exact List.filterMap_some
  obtain ⟨hcode', hoperands', htargets'⟩ := s.value.instructions_spec
  refine ⟨?_, ?_, ?_⟩
  · rw [instructions, List.map_append, hcode', hcode]
    rfl
  · rw [instructions, List.filterMap_append, hoperands', hoperands, List.append_nil]
  · rw [instructions, List.filterMap_append, htargets', htargets, List.nil_append]

theorem Break.instructions_spec (b : Break) : b.instructions.map opcode = b.code ∧
    b.instructions.filterMap operand? = [] ∧ b.instructions.filterMap target? = [] := by
  cases b <;> exact ⟨rfl, rfl, rfl⟩

mutual

theorem Block.instructions_spec (b : Break) : ∀ x : Block,
    (x.instructions b).map opcode = x.code b ∧
      (x.instructions b).filterMap operand? = x.operands ∧
      (x.instructions b).filterMap target? = x.targets
  | .nil => ⟨rfl, rfl, rfl⟩
  | .statement s next => by
    simp [Block.instructions, Block.code, Block.operands, Block.targets, b.instructions_spec,
      s.instructions_spec, next.instructions_spec .comma]
  | .branch c body rest next => by
    simp [Block.instructions, Block.code, Block.operands, Block.targets, b.instructions_spec,
      c.instructions_spec, body.instructions_spec .comma, rest.instructions_spec,
      next.instructions_spec .comma, opcode]

theorem Tail.instructions_spec : ∀ x : Tail, x.instructions.map opcode = x.code ∧
    x.instructions.filterMap operand? = x.operands ∧ x.instructions.filterMap target? = x.targets
  | .endIf => ⟨rfl, rfl, rfl⟩
  | .else body => by
    simp [Tail.instructions, Tail.code, Tail.operands, Tail.targets,
      body.instructions_spec .comma, opcode]
  | .elseIf c body rest => by
    simp [Tail.instructions, Tail.code, Tail.operands, Tail.targets, c.instructions_spec,
      body.instructions_spec .comma, rest.instructions_spec, opcode]

end

theorem Source.instructions_spec (s : Source) : s.instructions.map opcode = s.code ∧
    s.instructions.filterMap operand? = s.operands ∧
    s.instructions.filterMap target? = s.targets := by
  obtain ⟨init, loop⟩ := s
  cases init with
  | none => exact loop.instructions_spec .none
  | some b =>
    simp [instructions, code, operands, targets, b.instructions_spec .none,
      loop.instructions_spec .colon]

/-! ## Routines -/

section

variable {N : Type} {r : Routine N} {slots : List Slot}

/-- At its turn the instruction finds what it is to load, or where to store. -/
def Instruction.Served (r : Routine N) (slots : List Slot) (here : Place) : Instruction → Prop
  | load o => ∃ i, r.loads[here.loads]? = some i ∧ Holds slots i o
  | store v => ∃ i, r.stores[here.stores]? = some i ∧ Holds slots i (.name v)
  | plain _ _ => True

namespace Routine

/-- The routine has the instructions, the first of them at `here`. -/
def Lists (r : Routine N) (slots : List Slot) (here : Place) : List Instruction → Prop
  | [] => True
  | x :: rest =>
    r.code[here.op]? = some x.opcode ∧ x.Served r slots here ∧
      r.Lists slots (here.past [x.opcode]) rest

theorem lists_append {xs ys : List Instruction} : ∀ {here : Place},
    r.Lists slots here (xs ++ ys) ↔
      r.Lists slots here xs ∧ r.Lists slots (here.past (xs.map opcode)) ys := by
  induction xs with
  | nil =>
    intro here
    exact (iff_of_eq (true_and _)).symm
  | cons x xs ih =>
    intro here
    show _ ∧ _ ∧ r.Lists slots _ (xs ++ ys) ↔ (_ ∧ _ ∧ r.Lists slots _ xs) ∧ _
    rw [ih, List.map_cons, here.past_cons x.opcode (xs.map opcode), and_assoc, and_assoc]

/-- The instructions of a condition with its branch and what follows the branch. -/
theorem lists_choice {c : Expr} {body : Block} {rest : Tail} {more : List Instruction} {here : Place}
    (h : r.Lists slots here (c.instructions ++ .plain .jumpOnFalse :: body.instructions .comma
      ++ rest.instructions ++ more)) :
    let test := here.past c.postorder
    let inside := test.past [.jumpOnFalse]
    let after := inside.past (body.code .comma)
    r.Lists slots here c.instructions ∧ r.code[test.op]? = some .jumpOnFalse ∧
      r.Lists slots inside (body.instructions .comma) ∧ r.Lists slots after rest.instructions ∧
      r.Lists slots (after.past rest.code) more := by
  intro test inside after
  have hafter : here.past (c.postorder ++ .jumpOnFalse :: body.code .comma) = after := by
    rw [Place.past_append, Place.past_cons]
  simp only [lists_append, List.map_append, List.map_cons, c.instructions_spec,
    body.instructions_spec .comma, rest.instructions_spec] at h
  obtain ⟨⟨⟨hc, hop, -, hbody⟩, hrest⟩, hmore⟩ := h
  rw [Place.past_append] at hmore
  exact ⟨hc, hop, hbody, hafter ▸ hrest, hafter ▸ hmore⟩

/-- What the tables of a routine must have at a place. -/
theorem lists_of_tables : ∀ {xs : List Instruction} {here : Place},
    (∀ i op, (xs.map opcode)[i]? = some op → r.code[here.op + i]? = some op) →
    (∀ i o, (xs.filterMap operand?)[i]? = some o →
      ∃ slot, r.loads[here.loads + i]? = some slot ∧ Holds slots slot o) →
    (∀ i v, (xs.filterMap target?)[i]? = some v →
      ∃ slot, r.stores[here.stores + i]? = some slot ∧ Holds slots slot (.name v)) →
    r.Lists slots here xs := by
  intro xs
  induction xs with
  | nil => exact fun _ _ _ => trivial
  | cons x xs ih =>
    intro here hcode hloads hstores
    have next {here' : Place} (hop : here'.op = here.op + 1) (i : Nat) (op : Opcode)
        (hi : (xs.map opcode)[i]? = some op) : r.code[here'.op + i]? = some op := by
      rw [hop, Nat.add_assoc, Nat.add_comm 1 i]
      exact hcode (i + 1) op hi
    cases x with
    | load o =>
      refine ⟨hcode 0 _ rfl, hloads 0 o rfl, ih (next rfl) (fun i o' hi => ?_) hstores⟩
      have := hloads (i + 1) o' hi
      rwa [← Nat.add_assoc, Nat.add_right_comm] at this
    | store v =>
      refine ⟨hcode 0 _ rfl, hstores 0 v rfl, ih (next rfl) hloads fun i v' hi => ?_⟩
      have := hstores (i + 1) v' hi
      rwa [← Nat.add_assoc, Nat.add_right_comm] at this
    | plain op h =>
      have hload : (here.past [op]).loads = here.loads := by cases op <;> first | rfl | cases h
      have hstore : (here.past [op]).stores = here.stores := by cases op <;> first | rfl | cases h
      refine ⟨hcode 0 _ rfl, trivial, ih (next rfl) ?_ ?_⟩
      · show ∀ i o, _ → ∃ slot, r.loads[(here.past [op]).loads + i]? = _ ∧ _
        rw [hload]
        exact hloads
      · show ∀ i v, _ → ∃ slot, r.stores[(here.past [op]).stores + i]? = _ ∧ _
        rw [hstore]
        exact hstores

end Routine
end
end FractalFormula
