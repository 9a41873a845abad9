/-
What a lexeme does to a draft.

A draft takes a lexeme as it takes any token that shows it (`Compile.Draft.token_eq_take`).  A name
and a literal load one slot.  A name has a slot already or gets one (`Compile.NameTaken`).  A number
has one already or gets one, a pair always gets one, and a literal that gets a slot takes up a minus
sign right before it (`Compile.LiteralTaken`).
-/
import FractalFormula.Proofs.Lexeme

namespace FractalFormula
namespace Compile

namespace Draft

def take (d : Draft) : Lexeme → Draft
  | .leftParen => { d with parens := d.parens + 1 }
  | .rightParen => { d with parens := d.parens - 1 }
  | .operator o => d.operator o
  | .flow w => d.flow w
  | .call f => d.call f
  | .name text => d.useVariable text
  | .literal text value isPair =>
    if isPair then d.pair text value.x value.y else d.number text value.x
  | .close | .fault _ => d

theorem token_eq_take (d : Draft) (t : Token) : d.token t = d.take t.lexeme := by
  obtain ⟨text, kind, span⟩ := t
  cases kind <;> rfl

theorem foldl_token (d : Draft) (tokens : List Token) :
    tokens.foldl token d = (tokens.map Token.lexeme).foldl take d := by
  rw [List.foldl_map]
  exact congrArg (fun f => tokens.foldl f d) (funext fun d => funext fun t => d.token_eq_take t)

/-- The lexemes of a list, one after another. -/
def takeAll (d : Draft) (ls : List Lexeme) : Draft :=
  ls.foldl take d

theorem takeAll_append (d : Draft) (a b : List Lexeme) :
    d.takeAll (a ++ b) = (d.takeAll a).takeAll b :=
  List.foldl_append

theorem takeAll_cons (d : Draft) (l : Lexeme) (ls : List Lexeme) :
    d.takeAll (l :: ls) = (d.take l).takeAll ls := rfl

end Draft

/-! ## Operands -/

/-- What a name adds to the summary. -/
def usageOfName (u : Usage) (text : String) : Usage :=
  match Builtin.find? text with
  | some v => u.noteVariable v
  | none => u

inductive NameTaken (d : Draft) (text : String) : Draft → Prop
  | known {i : Nat} (hslot : d.slots.findIdx? (Text.sameName ·.name text) = some i) :
    NameTaken d text
      (({ d with wantsOperand := false, usage := usageOfName d.usage text } : Draft).load i 1)
  | fresh (hslot : d.slots.findIdx? (Text.sameName ·.name text) = none) :
    NameTaken d text
      (({ d with wantsOperand := false, usage := usageOfName d.usage text,
                 slots := d.slots ++ [⟨text, .user, ⟨0, 0⟩⟩] } : Draft).load d.slots.length 1)

theorem nameTaken (d : Draft) (text : String) : NameTaken d text (d.take (.name text)) := by
  let d' : Draft := { d with wantsOperand := false, usage := usageOfName d.usage text }
  have htake : d.take (.name text) = (d'.variableSlot text).2.load (d'.variableSlot text).1 1 := by
    cases hfind : Builtin.find? text <;>
      simp [Draft.take, Draft.useVariable, d', usageOfName, hfind]
  rw [htake]
  cases hslot : d.slots.findIdx? (Text.sameName ·.name text) with
  | some i =>
    have hsame : d'.variableSlot text = (i, d') := by
      simp [Draft.variableSlot, d', hslot]
    rw [hsame]
    exact .known hslot
  | none =>
    have hnew : d'.variableSlot text = (d.slots.length,
        { d' with slots := d.slots ++ [⟨text, .user, ⟨0, 0⟩⟩] }) := by
      simp [Draft.variableSlot, d', hslot]
    rw [hnew]
    exact .fresh hslot

/-- The value of a literal, of which a number has only the first part. -/
def literalValue (z : Complex Float) (isPair : Bool) : Complex Float :=
  ⟨z.x, if isPair then z.y else 0⟩

/-- How deep a literal is loaded. -/
def literalBase (isPair : Bool) : Int :=
  if isPair then 1 - level else 1

inductive LiteralTaken (d : Draft) (text : String) (z : Complex Float) : Bool → Draft → Prop
  | known {i : Nat} (hslot : d.slots.findIdx? (·.name == text) = some i) :
    LiteralTaken d text z false (({ d with wantsOperand := false } : Draft).load i 1)
  | plain {isPair : Bool} (hslot : isPair = true ∨ d.slots.findIdx? (·.name == text) = none)
    (hsign : ∀ prec rest, d.pending ≠ ⟨some .neg, prec⟩ :: rest) :
    LiteralTaken d text z isPair
      (({ d with wantsOperand := false,
                 slots := d.slots ++ [⟨text, .constant, literalValue z isPair⟩] } : Draft).load
        d.slots.length (literalBase isPair))
  | signed {isPair : Bool} {prec : Int} {rest : List (Pending Opcode)}
    (hslot : isPair = true ∨ d.slots.findIdx? (·.name == text) = none)
    (hsign : d.pending = ⟨some .neg, prec⟩ :: rest) :
    LiteralTaken d text z isPair
      (({ d with wantsOperand := false, pending := rest,
                 slots := d.slots ++ [⟨"-" ++ text, .constant, ⟨-(literalValue z isPair).x,
                   -(literalValue z isPair).y⟩⟩] } : Draft).load
        d.slots.length (literalBase isPair))

/-- A literal that gets a slot of its own. -/
theorem literalTaken_of_slot {d d' : Draft} {text : String} {z : Complex Float} {isPair : Bool}
    (hslot : isPair = true ∨ d.slots.findIdx? (·.name == text) = none)
    (htake : d' = (({ d with wantsOperand := false } : Draft).literalSlot text
        (literalValue z isPair)).2.load
      (({ d with wantsOperand := false } : Draft).literalSlot text (literalValue z isPair)).1
        (literalBase isPair)) :
    LiteralTaken d text z isPair d' := by
  rw [htake]
  unfold Draft.literalSlot
  split
  · rename_i hsign
    exact .signed hslot hsign
  · rename_i hsign
    exact .plain hslot hsign

theorem literalTaken (d : Draft) (text : String) (z : Complex Float) (isPair : Bool) :
    LiteralTaken d text z isPair (d.take (.literal text z isPair)) := by
  cases isPair with
  | true => exact literalTaken_of_slot (.inl rfl) rfl
  | false =>
    cases hslot : d.slots.findIdx? (·.name == text) with
    | some i =>
      have htake : d.take (.literal text z false) =
          ({ d with wantsOperand := false } : Draft).load i 1 := by
        simp [Draft.take, Draft.number, hslot]
      rw [htake]
      exact .known hslot
    | none =>
      refine literalTaken_of_slot (.inr hslot) ?_
      simp [Draft.take, Draft.number, hslot, literalValue, literalBase]

end Compile
end FractalFormula
