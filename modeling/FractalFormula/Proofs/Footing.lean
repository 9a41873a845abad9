/-
Where a draft stands.

How deep a draft is in parentheses, bars and assignments, which bars are open and whether an operand
is wanted depend on the lexemes alone (`Compile.footing_take`), not on what is pending nor on what
the tables hold.
-/
import FractalFormula.Proofs.Queue

namespace FractalFormula
namespace Compile

structure Footing where
  parens : Int
  assignments : Int
  bar : Int
  bars : List Int
  wantsOperand : Bool
  deriving DecidableEq, Repr

def Draft.footing (d : Draft) : Footing :=
  ⟨d.parens, d.assignments, d.bar, d.bars, d.wantsOperand⟩

namespace Footing

def after (f : Footing) : Lexeme → Footing
  | .leftParen => { f with parens := f.parens + 1 }
  | .rightParen => { f with parens := f.parens - 1 }
  | .name _ | .literal _ _ _ => { f with wantsOperand := false }
  | .flow w => { f with wantsOperand := w.takesCondition }
  | .operator .comma =>
    if f.wantsOperand then f
    else { f with parens := 0, assignments := 0, wantsOperand := true }
  | .operator .colon => { f with parens := 0, assignments := 0, wantsOperand := true }
  | .operator .assign => { f with assignments := f.assignments + 1, wantsOperand := true }
  | .operator .modulus =>
    if f.bar = f.parens - 1 then
      { f with parens := f.parens - 1, bar := f.bars.headD noBar, bars := f.bars.tail }
    else { f with parens := f.parens + 1, bar := f.parens, bars := f.bar :: f.bars }
  | .call _ | .operator _ => { f with wantsOperand := true }
  | .close | .fault _ => f

end Footing

theorem footing_take (d : Draft) (l : Lexeme) : (d.take l).footing = d.footing.after l := by
  cases l with
  | name text =>
    match d.take (.name text), nameTaken d text with
    | _, .known _ | _, .fresh _ => rfl
  | literal text value isPair =>
    match isPair, d.take (.literal text value isPair), literalTaken d text value isPair with
    | _, _, .known _ | _, _, .plain .. | _, _, .signed .. => rfl
  | flow w => cases w <;> rfl
  | operator o =>
    cases o with
    | comma =>
      unfold Draft.take Draft.operator Footing.after
      dsimp only
      split <;> (split <;> first | rfl | contradiction)
    | minus =>
      unfold Draft.take Draft.operator
      dsimp only
      split
      · rename_i hw
        exact congrArg (fun b => (⟨d.parens, d.assignments, d.bar, d.bars, b⟩ : Footing)) hw
      · rfl
    | modulus =>
      show d.modulus.footing = _
      unfold Draft.modulus Footing.after
      dsimp only
      split <;> (split <;> first | rfl | contradiction)
    | _ => rfl
  | _ => rfl

theorem wantsOperand_take (d : Draft) (l : Lexeme) :
    (d.take l).wantsOperand = (d.footing.after l).wantsOperand :=
  congrArg Footing.wantsOperand (footing_take d l)

end Compile
end FractalFormula
