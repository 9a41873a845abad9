import FractalFormula.Program.Basic

/-!
Where jumps lead.  The table of a compiled program has an entry for each jump instruction, in order.
A condition that fails leads to the next branch of its group, and the jump at the end of a branch
leads to the `endif`.  The groups are found from the end of the table.
-/

namespace FractalFormula

/-- What can be wrong with a jump table. -/
inductive JumpError where
  | countMismatch (entries ops : Nat)
  | wrongOpcode (index : Nat) (word : FlowWord) (found : Opcode)
  | unbalanced
  deriving DecidableEq, Repr

namespace JumpError

def message : JumpError → String
  | .countMismatch entries ops =>
    "jump table has " ++ toString entries ++ " entries but the code has " ++ toString ops
      ++ " jump opcodes"
  | .wrongOpcode index word found =>
    "jump entry " ++ toString index ++ " is a " ++ word.title ++ " but its opcode is " ++ found.name
  | .unbalanced => "if/endif blocks are unbalanced"

end JumpError

namespace Jumps

/-- The instruction that belongs to each entry.  Of the two entries of an `elseif` the first ends
the branch before it and the second tests; `second` holds when a first one has been met. -/
def expected (second : Bool) : List FlowWord → List Opcode
  | [] => []
  | .if :: rest => .jumpOnFalse :: expected second rest
  | .elseIf :: rest => (if second then .jumpOnFalse else .jump) :: expected (!second) rest
  | .else :: rest => .jump :: expected second rest
  | .endIf :: rest => .label :: expected second rest

/-- The jump instructions of a piece of code that begins at the given place. -/
def landings (here : Landing) : List Opcode → List (Opcode × Landing)
  | [] => []
  | op :: rest =>
    let next : Landing :=
      ⟨here.op + 1, here.loads + if op = .load then 1 else 0,
        here.stores + if op = .store then 1 else 0⟩
    if op.isJump then (op, here) :: landings next rest else landings next rest

/-- The first entry, from number `index` on, whose instruction is not the one that belongs to it. -/
def firstWrong (index : Nat) : List FlowWord → List Opcode → List Opcode → Option JumpError
  | w :: words, want :: wanted, op :: ops =>
    if want = op then firstWrong (index + 1) words wanted ops
    else some (.wrongOpcode index w op)
  | _, _, _ => none

/-- A group whose `if` has not been met yet: the entry that closes it, and the branch met last. -/
structure Group where
  last : Nat
  branch : Nat
  deriving DecidableEq, Repr

/-- For each entry the entry it leads to, if it leads anywhere.  The words come with their numbers
and from the end.  What stands outside all groups closes a new one; the entry before an `elseif` is
its other half. -/
def leads : List Group → List (Option Nat) → List (Nat × FlowWord) → Option (List (Option Nat))
  | [], found, [] => some found
  | _ :: _, _, [] => none
  | [], found, (i, _) :: rest => leads [⟨i, i⟩] (none :: found) rest
  | g :: outer, found, (_, .if) :: rest => leads outer (some g.branch :: found) rest
  | g :: outer, found, (i, .else) :: rest =>
    leads (⟨g.last, i⟩ :: outer) (some g.last :: found) rest
  | g :: outer, found, (i, .endIf) :: rest => leads (⟨i, i⟩ :: g :: outer) (none :: found) rest
  | g :: outer, found, (_, .elseIf) :: (j, _) :: rest =>
    leads (⟨g.last, j⟩ :: outer) (some g.last :: some g.branch :: found) rest
  | _ :: _, _, [(_, .elseIf)] => none

/-- An entry that leads to entry `lead`. -/
def close (targets : List Landing) (e : JumpEntry) : Option Nat → JumpEntry
  | none => e
  | some lead => { e with target := targets.getD lead .zero, dest := lead + 1 }

end Jumps

namespace Program

open Jumps

/-- Fills in where the jumps lead.  A program without jumps is complete as it is. -/
def resolve (p : Program) : Except JumpError Program :=
  let words := p.jumps.map JumpEntry.word
  if words.isEmpty then .ok p
  else
    let found := landings .zero p.code
    match firstWrong 0 words (expected false words) (found.map Prod.fst) with
    | some e => .error e
    | none =>
      if found.length ≠ words.length then .error (.countMismatch words.length found.length)
      else if words.head? ≠ some .if ∨ words.getLast? ≠ some .endIf then .error .unbalanced
      else
        match leads [] [] (words.zipIdx.reverse.map Prod.swap) with
        | none => .error .unbalanced
        | some targets =>
          .ok { p with jumps := List.zipWith (close (found.map Prod.snd)) p.jumps targets }

end Program
end FractalFormula
