/-
What a draft becomes as it reads a tree.

Reading a piece of a tree adds to the tables of a draft what the piece asks for, a `Piece`, and
nothing else (`Grows`).  A minus sign in front of a literal that gets a slot of its own does not
survive: it becomes part of the literal, even from outside a parenthesis.  `Expr.fold` is the tree
that is left.
-/
import FractalFormula.Proofs.Acceptance
import FractalFormula.Proofs.Slots
import FractalFormula.Proofs.Taking

namespace FractalFormula

/-! ## Pieces -/

namespace Compile

/-- What a piece of a body adds to the tables of a draft, in the order of the text. -/
structure Piece where
  pending : List (Pending Opcode) := []
  operands : List Operand := []
  targets : List String := []
  words : List FlowWord := []
  hasInit : Bool := false

namespace Piece

def append (p q : Piece) : Piece :=
  ⟨p.pending ++ q.pending, p.operands ++ q.operands, p.targets ++ q.targets, p.words ++ q.words,
    p.hasInit || q.hasInit⟩

instance : Append Piece := ⟨append⟩

variable (p q : Piece)

@[simp] theorem operands_append : (p ++ q).operands = p.operands ++ q.operands := rfl

@[simp] theorem targets_append : (p ++ q).targets = p.targets ++ q.targets := rfl

@[simp] theorem words_append : (p ++ q).words = p.words ++ q.words := rfl

@[simp] theorem hasInit_append : (p ++ q).hasInit = (p.hasInit || q.hasInit) := rfl

end Piece

/-- `d'` is what `p` makes of `d`. -/
structure Grows (d d' : Draft) (p : Piece) : Prop where
  pending : d'.pending = p.pending.reverse ++ d.pending
  slots : d.slots <+: d'.slots
  loads : ∃ idx, d'.loads = idx.reverse ++ d.loads ∧
    List.Forall₂ (Holds d'.slots) idx p.operands
  stores : ∃ idx, d'.stores = idx.reverse ++ d.stores ∧
    List.Forall₂ (Holds d'.slots) idx (p.targets.map .name)
  jumps : d'.jumps = (p.words.map JumpEntry.unresolved).reverse ++ d.jumps
  hasInit : d'.hasInit = (d.hasInit || p.hasInit)

namespace Grows

theorem refl (d : Draft) : Grows d d {} :=
  ⟨rfl, List.prefix_refl _, ⟨[], rfl, .nil⟩, ⟨[], rfl, .nil⟩, rfl, (Bool.or_false _).symm⟩

theorem trans {d d' d'' : Draft} {p q : Piece} (h : Grows d d' p) (h' : Grows d' d'' q) :
    Grows d d'' (p ++ q) := by
  obtain ⟨loads, hloads, hoperands⟩ := h.loads
  obtain ⟨loads', hloads', hoperands'⟩ := h'.loads
  obtain ⟨stores, hstores, htargets⟩ := h.stores
  obtain ⟨stores', hstores', htargets'⟩ := h'.stores
  have hmono : ∀ i o, Holds d'.slots i o → Holds d''.slots i o := fun i o => Holds.mono h'.slots
  refine ⟨?_, h.slots.trans h'.slots, ⟨loads ++ loads', ?_, ?_⟩, ⟨stores ++ stores', ?_, ?_⟩, ?_, ?_⟩
  · show _ = (p.pending ++ q.pending).reverse ++ _
    rw [h'.pending, h.pending, List.reverse_append, List.append_assoc]
  · rw [hloads', hloads, List.reverse_append, List.append_assoc]
  · exact List.rel_append (hoperands.imp hmono) hoperands'
  · rw [hstores', hstores, List.reverse_append, List.append_assoc]
  · show List.Forall₂ _ _ ((p.targets ++ q.targets).map _)
    rw [List.map_append]
    exact List.rel_append (htargets.imp hmono) htargets'
  · show _ = ((p.words ++ q.words).map _).reverse ++ _
    rw [h'.jumps, h.jumps, List.map_append, List.reverse_append, List.append_assoc]
  · rw [h'.hasInit, h.hasInit, Bool.or_assoc]
    rfl

end Grows
end Compile

/-! ## Expressions -/

namespace Infix

/-- The precedence of an operator outside all parentheses. -/
def base : Infix → Int
  | pow => 2
  | mul | div => 3
  | add | sub => 4
  | lt | le | gt | ge | eq | ne => 6
  | and | or => 7

end Infix

namespace Expr

open Compile

/-- What becomes pending for an expression at level `n`. -/
def pending (n : Int) : Expr → List (Pending Opcode)
  | name _ => [⟨some .load, 1 - n * level⟩]
  | literal _ _ isPair => [⟨some .load, (if isPair then 1 - level else 1) - n * level⟩]
  | group e => e.pending (n + 1)
  | call f e => ⟨some (.call f), 1 - n * level⟩ :: e.pending n
  | binary o l r => l.pending n ++ ⟨some o.opcode, o.base - n * level⟩ :: r.pending n
  | minus e => ⟨some .neg, 2 - n * level⟩ :: e.pending n
  | modulus e => ⟨some .mod, 2 - n * level⟩ :: e.pending (n + 1)

/-- The first to become pending is a literal that gets a slot of its own.  The numbers in `known`
have one. -/
def opens (known : List String) : Expr → Bool
  | literal text _ isPair => isPair || !known.contains text
  | group e => e.opens known
  | binary _ l _ => l.opens known
  | _ => false

/-- The tree that is compiled, and the numbers that have a slot then.  With `sign` the first literal
takes up a minus sign from outside. -/
def fold : Expr → Bool → List String → Expr × List String
  | name text, _, known => (name text, known)
  | literal text z isPair, sign, known =>
    if sign then (literal ("-" ++ text) ⟨-z.x, -z.y⟩ isPair, known)
    else (literal text z isPair, if isPair then known else text :: known)
  | group e, sign, known => ((group (e.fold sign known).1), (e.fold sign known).2)
  | call f e, _, known => (call f (e.fold false known).1, (e.fold false known).2)
  | binary o l r, sign, known =>
    (binary o (l.fold sign known).1 (r.fold false (l.fold sign known).2).1,
      (r.fold false (l.fold sign known).2).2)
  | minus e, _, known =>
    if e.opens known then e.fold true known
    else (minus (e.fold false known).1, (e.fold false known).2)
  | modulus e, _, known => (modulus (e.fold false known).1, (e.fold false known).2)

/-- How deep parentheses and bars are nested. -/
def levels : Expr → Nat
  | name _ | literal _ _ _ => 0
  | group e | modulus e => e.levels + 1
  | call _ e | minus e => e.levels
  | binary _ l r => max l.levels r.levels

/-- What an expression at level `n` adds to a draft. -/
def piece (e : Expr) (n : Int) : Piece :=
  { pending := e.pending n, operands := e.operands }

theorem piece_binary (o : Infix) (l r : Expr) (n : Int) :
    (binary o l r).piece n =
      l.piece n ++ { pending := [⟨some o.opcode, o.base - n * level⟩] } ++ r.piece n := by
  show Piece.mk _ _ _ _ _ = Piece.mk _ _ _ _ _
  congr 1
  · exact (List.append_assoc _ [_] _).symm
  · exact congrArg (· ++ _) (List.append_nil _).symm

end Expr

namespace Compile

/-- `d'` stands where `d` does, just after an operand. -/
structure Passes (d d' : Draft) : Prop where
  parens : d'.parens = d.parens
  assignments : d'.assignments = d.assignments
  bar : d'.bar = d.bar
  bars : d'.bars = d.bars
  wantsOperand : d'.wantsOperand = false

/-- Nothing at the front of `pending` waits to become part of a literal. -/
def Unsigned (pending : List (Pending Opcode)) : Prop :=
  ∀ p ∈ pending.head?, p.op ≠ some .neg

theorem Unsigned.cons {op : Opcode} (h : op ≠ .neg) (prec : Int) (rest : List (Pending Opcode)) :
    Unsigned (⟨some op, prec⟩ :: rest) := by
  intro p hp
  obtain rfl := Option.some.inj hp
  exact fun h' => h (Option.some.inj h')

theorem Grows.load {d d' : Draft} (h : Grows d d' {}) {i : Nat} {o : Operand}
    (hi : Holds d'.slots i o) (base : Int) :
    Grows d (d'.load i base) { pending := [⟨some .load, d'.prec base⟩], operands := [o] } := by
  obtain ⟨idx, hloads, hnil⟩ := h.loads
  obtain rfl := List.forall₂_nil_right_iff.mp hnil
  refine ⟨?_, h.slots, ⟨[i], ?_, .cons hi .nil⟩, h.stores, h.jumps, h.hasInit⟩
  · exact congrArg (_ :: ·) h.pending
  · exact congrArg (i :: ·) hloads

theorem grows_name {d : Draft} {known : List String} {text : String} (h : Sound d.slots known)
    (hname : Lexeme.IsName text) :
    Grows d (d.take (.name text)) ((Expr.name text).piece (d.parens + d.assignments)) ∧
      Passes d (d.take (.name text)) ∧ Sound (d.take (.name text)).slots known := by
  match d.take (.name text), nameTaken d text with
  | _, .known hslot =>
    have hi := h.holds_name hname hslot
    have hgrows : Grows d { d with wantsOperand := false, usage := usageOfName d.usage text } {} :=
      ⟨rfl, List.prefix_refl _, ⟨[], rfl, .nil⟩, ⟨[], rfl, .nil⟩, rfl, (Bool.or_false _).symm⟩
    exact ⟨hgrows.load hi 1, ⟨rfl, rfl, rfl, rfl, rfl⟩, h⟩
  | _, .fresh hslot =>
    let slots := d.slots ++ [(⟨text, .user, ⟨0, 0⟩⟩ : Slot)]
    have hgrows : Grows d
        { d with wantsOperand := false, usage := usageOfName d.usage text, slots } {} :=
      ⟨rfl, List.prefix_append _ _, ⟨[], rfl, .nil⟩, ⟨[], rfl, .nil⟩, rfl, (Bool.or_false _).symm⟩
    have hi : Holds slots d.slots.length (.name text) := by
      refine ⟨?_, ⟨text, .user, ⟨0, 0⟩⟩, List.getElem?_concat_length, SlotKind.noConfusion⟩
      rw [List.findIdx?_append, hslot]
      simp [List.findIdx?_cons, Text.sameName]
    exact ⟨hgrows.load hi 1, ⟨rfl, rfl, rfl, rfl, rfl⟩,
      h.push (fun _ => SlotKind.noConfusion) (Lexeme.not_isNumber_of_isName hname)⟩

/-- Whether a minus sign waits in `d` that the next literal takes up, with `base` pending before it.
An expression that `opens` with a literal takes up the sign that waits. -/
def Signs (d : Draft) (base : List (Pending Opcode)) (opens : Bool) : Bool → Prop
  | true => opens = true ∧ ∃ q, d.pending = ⟨some .neg, q⟩ :: base
  | false => d.pending = base ∧ (opens = true → Unsigned base)

theorem Signs.unsigned {d : Draft} {opens : Bool} (h : opens = true → Unsigned d.pending) :
    Signs d d.pending opens false :=
  ⟨rfl, h⟩

/-- The slot of a literal that takes up a sign. -/
def signedSlot (sign : Bool) (text : String) (z : Complex Float) : Slot :=
  if sign then ⟨"-" ++ text, .constant, ⟨-z.x, -z.y⟩⟩ else ⟨text, .constant, z⟩

theorem literalSlot_eq {d : Draft} {base : List (Pending Opcode)} {sign : Bool}
    (h : Signs d base true sign) (text : String) (z : Complex Float) :
    d.literalSlot text z = (d.slots.length,
      { d with pending := base, slots := d.slots ++ [signedSlot sign text z] }) := by
  cases sign with
  | true =>
    obtain ⟨-, q, hq⟩ := h
    simp [Draft.literalSlot, hq, signedSlot]
  | false =>
    obtain ⟨rfl, hbase⟩ := h
    have hbase := hbase rfl
    unfold Draft.literalSlot
    split
    · rename_i hneg
      rw [hneg] at hbase
      exact absurd rfl (hbase _ rfl)
    · rfl

theorem Sound.knowAgain {slots : List Slot} {known : List String} (h : Sound slots known)
    {text : String} (hmem : text ∈ known) : Sound slots (text :: known) := by
  refine ⟨h.names, fun s hs hnum => ?_, fun t ht => ?_⟩
  · exact ⟨(h.numbers s hs hnum).1, List.mem_cons_of_mem _ (h.numbers s hs hnum).2⟩
  · rcases List.mem_cons.mp ht with rfl | ht
    · exact h.known _ hmem
    · exact h.known t ht

/-- A negated literal is neither a name nor a number. -/
theorem Sound.pushNegated {slots : List Slot} {known : List String} (h : Sound slots known)
    (text : String) (z : Complex Float) : Sound (slots ++ [signedSlot true text z]) known := by
  have htext : ("-" ++ text).toList = '-' :: text.toList := by simp
  exact h.push (fun hname => absurd hname (Lexeme.not_isName_cons htext (by decide)))
    (Lexeme.not_isNumber_cons htext (by decide))

theorem Sound.pushPair {slots : List Slot} {known : List String} (h : Sound slots known)
    {text : String} {rest : List Char} (htext : text.toList = '(' :: rest) (z : Complex Float) :
    Sound (slots ++ [⟨text, .constant, z⟩]) known :=
  h.push (fun hname => absurd hname (Lexeme.not_isName_cons htext (by decide)))
    (Lexeme.not_isNumber_cons htext (by decide))

/-- A draft after a literal that gets a slot of its own. -/
def loadLiteral (d : Draft) (text : String) (z : Complex Float) (base : Int) : Draft :=
  let (slot, d) := { d with wantsOperand := false }.literalSlot text z
  d.load slot base

theorem grows_loadLiteral {d : Draft} {base : List (Pending Opcode)} {sign : Bool}
    (h : Signs d base true sign) (text : String) (z : Complex Float) (prec : Int) :
    Grows { d with pending := base } (loadLiteral d text z prec)
        { pending := [⟨some .load, d.prec prec⟩],
          operands := [.literal (signedSlot sign text z).name (signedSlot sign text z).value] } ∧
      Passes d (loadLiteral d text z prec) ∧
      (loadLiteral d text z prec).slots = d.slots ++ [signedSlot sign text z] := by
  have hslot := literalSlot_eq (d := { d with wantsOperand := false }) h text z
  rw [loadLiteral, hslot]
  refine ⟨?_, ⟨rfl, rfl, rfl, rfl, rfl⟩, rfl⟩
  have hgrows : Grows { d with pending := base }
      { d with
        wantsOperand := false, pending := base,
        slots := d.slots ++ [signedSlot sign text z] } {} :=
    ⟨rfl, List.prefix_append _ _, ⟨[], rfl, .nil⟩, ⟨[], rfl, .nil⟩, rfl, (Bool.or_false _).symm⟩
  refine hgrows.load (o := .literal _ _) ?_ prec
  show (d.slots ++ [signedSlot sign text z])[d.slots.length]? = some _
  rw [List.getElem?_concat_length]
  cases sign <;> rfl

theorem grows_literal {d : Draft} {base : List (Pending Opcode)} {known : List String}
    {sign isPair : Bool} {text : String} {z : Complex Float} (h : Sound d.slots known)
    (hs : (Lexeme.literal text z isPair).Spelled)
    (hsign : Signs d base ((Expr.literal text z isPair).opens known) sign) :
    Grows { d with pending := base } (d.take (.literal text z isPair))
        (((Expr.literal text z isPair).fold sign known).1.piece (d.parens + d.assignments)) ∧
      Passes d (d.take (.literal text z isPair)) ∧
      Sound (d.take (.literal text z isPair)).slots
        ((Expr.literal text z isPair).fold sign known).2 := by
  cases isPair with
  | true =>
    obtain ⟨rest, htext⟩ := hs
    have htake : d.take (.literal text z true) = loadLiteral d text z (1 - level) := rfl
    obtain ⟨hgrows, hpasses, hslots⟩ := grows_loadLiteral hsign text z (1 - level)
    rw [htake]
    refine ⟨by cases sign <;> exact hgrows, hpasses, ?_⟩
    rw [hslots]
    cases sign with
    | true => exact h.pushNegated text z
    | false => exact h.pushPair htext z
  | false =>
    obtain ⟨hnum, rfl⟩ := hs
    cases hfind : d.slots.findIdx? (·.name == text) with
    | some i =>
      obtain ⟨hi, hknown⟩ := h.holds_number hnum hfind
      have hopens : (Expr.literal text ⟨Decimal.leading text.toList, 0⟩ false).opens known
          = false := by simp [Expr.opens, hknown]
      rw [hopens] at hsign
      cases sign with
      | true => exact absurd hsign.1 Bool.false_ne_true
      | false =>
        obtain ⟨rfl, -⟩ := hsign
        have htake : d.take (.literal text ⟨Decimal.leading text.toList, 0⟩ false) =
            { d with wantsOperand := false }.load i 1 := by
          simp [Draft.take, Draft.number, hfind]
        rw [htake]
        have hgrows : Grows d { d with wantsOperand := false } {} :=
          ⟨rfl, List.prefix_refl _, ⟨[], rfl, .nil⟩, ⟨[], rfl, .nil⟩, rfl, (Bool.or_false _).symm⟩
        exact ⟨hgrows.load hi 1, ⟨rfl, rfl, rfl, rfl, rfl⟩, h.knowAgain hknown⟩
    | none =>
      have hopens : (Expr.literal text ⟨Decimal.leading text.toList, 0⟩ false).opens known
          = true := by simp [Expr.opens, h.not_mem_known hfind]
      rw [hopens] at hsign
      have htake : d.take (.literal text ⟨Decimal.leading text.toList, 0⟩ false) =
          loadLiteral d text ⟨Decimal.leading text.toList, 0⟩ 1 := by
        simp [Draft.take, Draft.number, hfind, loadLiteral]
      obtain ⟨hgrows, hpasses, hslots⟩ :=
        grows_loadLiteral hsign text ⟨Decimal.leading text.toList, 0⟩ 1
      rw [htake]
      refine ⟨by cases sign <;> exact hgrows, hpasses, ?_⟩
      rw [hslots]
      cases sign with
      | true => exact h.pushNegated text _
      | false => exact h.pushNumber hnum

/-- The bars of `e` are told apart from those that are open in `d`. -/
structure Fits (d : Draft) (e : Expr) : Prop where
  opens : e.hasBar = true → d.bar ≠ d.parens - 1
  inside : d.bar = noBar ∨ d.bar < d.parens
  levels : d.parens + e.levels < noBar

/-- Adding to what is pending is all that an operator does to the tables. -/
theorem Grows.push {d d' : Draft} {op : Opcode} {prec : Int}
    (h : d' = { d with
      pending := ⟨some op, prec⟩ :: d.pending, usage := d'.usage, wantsOperand := d'.wantsOperand,
      parens := d'.parens, bar := d'.bar, bars := d'.bars }) :
    Grows d d' { pending := [⟨some op, prec⟩] } := by
  rw [h]
  exact ⟨rfl, List.prefix_refl _, ⟨[], rfl, .nil⟩, ⟨[], rfl, .nil⟩, rfl, (Bool.or_false _).symm⟩

theorem take_infix {d : Draft} (h : d.wantsOperand = false) (o : Infix) :
    d.take (.operator o.operator) = d.infixOperator o.opcode o.base := by
  cases o <;> simp [Draft.take, Draft.operator, Infix.operator, Infix.opcode, Infix.base, h]

theorem opcode_ne_neg (o : Infix) : o.opcode ≠ .neg := by
  cases o <;> exact Opcode.noConfusion

/-! ### Reading an expression

What a draft has to be for an expression (`Receives`) comes down to the parts of the expression, and
what comes of it (`Becomes`) goes up from the parts. -/

/-- `d` is where `e` can be read. -/
structure Receives (d : Draft) (base : List (Pending Opcode)) (known : List String) (sign : Bool)
    (e : Expr) : Prop where
  spelled : ∀ l ∈ e.lexemes, l.Spelled
  sound : Sound d.slots known
  fits : Fits d e
  wantsOperand : d.wantsOperand = true
  signs : Signs d base (e.opens known) sign

/-- Where `d` reads `e`, its folded tree is added. -/
structure Becomes (d : Draft) (base : List (Pending Opcode)) (known : List String) (sign : Bool)
    (e : Expr) : Prop where
  grows : Grows { d with pending := base } (d.takeAll e.lexemes)
    ((e.fold sign known).1.piece (d.parens + d.assignments))
  passes : Passes d (d.takeAll e.lexemes)
  sound : Sound (d.takeAll e.lexemes).slots (e.fold sign known).2

section

variable {d : Draft} {base : List (Pending Opcode)} {known : List String} {sign : Bool} {e : Expr}

/-- No sign waits for an expression that does not open with a literal. -/
theorem Receives.signed (h : Receives d base known sign e) (hopens : e.opens known = false) :
    sign = false ∧ base = d.pending := by
  have hsigns := h.signs
  rw [hopens] at hsigns
  cases sign with
  | true => exact absurd hsigns.1 Bool.false_ne_true
  | false => exact ⟨rfl, hsigns.1.symm⟩

/-- A draft that differs in what is pending only stands at the same place. -/
theorem Passes.of_push {op : Opcode} {prec : Int} {d' : Draft} (h : Passes (d.push op prec) d') :
    Passes d d' :=
  ⟨h.parens, h.assignments, h.bar, h.bars, h.wantsOperand⟩

/-! #### Groups -/

theorem Receives.group (h : Receives d base known sign (.group e)) :
    Receives { d with parens := d.parens + 1 } base known sign e := by
  have hlevels : d.parens + (e.levels + 1 : Nat) < noBar := h.fits.levels
  refine ⟨fun l hl => h.spelled l (by simp [Expr.lexemes, hl]), h.sound, ⟨fun _ => ?_, ?_, ?_⟩,
    h.wantsOperand, h.signs⟩
  · show d.bar ≠ d.parens + 1 - 1
    rcases h.fits.inside with hbar | hbar <;> omega
  · refine h.fits.inside.imp_right fun hbar => ?_
    show d.bar < d.parens + 1
    omega
  · show d.parens + 1 + (e.levels : Int) < noBar
    omega

theorem Becomes.group (h : Becomes { d with parens := d.parens + 1 } base known sign e) :
    Becomes d base known sign (.group e) := by
  obtain ⟨hgrows, hpasses, hsound⟩ := h
  have htake : d.takeAll (Expr.group e).lexemes =
      ({ d with parens := d.parens + 1 }.takeAll e.lexemes).take .rightParen := by
    rw [Expr.lexemes, List.cons_append, Draft.takeAll_cons, Draft.takeAll_append]
    rfl
  have hlevel : d.parens + 1 + d.assignments = d.parens + d.assignments + 1 := by omega
  rw [hlevel] at hgrows
  refine ⟨?_, ?_, ?_⟩ <;> rw [htake]
  · exact ⟨hgrows.pending, hgrows.slots, hgrows.loads, hgrows.stores, hgrows.jumps, hgrows.hasInit⟩
  · refine ⟨?_, hpasses.assignments, hpasses.bar, hpasses.bars, hpasses.wantsOperand⟩
    show (Draft.takeAll _ _).parens - 1 = d.parens
    rw [hpasses.parens]
    exact Int.add_sub_cancel _ _
  · exact hsound

/-! #### Calls -/

theorem Receives.call {f : Func} (h : Receives d base known sign (.call f e)) :
    Receives (d.call f) (d.call f).pending known false e :=
  ⟨fun l hl => h.spelled l (by simp [Expr.lexemes, hl]), h.sound, ⟨h.fits.1, h.fits.2, h.fits.3⟩, rfl,
    .unsigned fun _ => .cons Opcode.noConfusion _ _⟩

theorem Becomes.call {f : Func} (h : Becomes (d.call f) (d.call f).pending known false e) :
    Becomes d d.pending known false (.call f e) := by
  have hcall : Grows d (d.call f) { pending := [⟨some (.call f), d.prec 1⟩] } := .push rfl
  have hpasses := h.passes
  exact ⟨hcall.trans h.grows,
    ⟨hpasses.parens, hpasses.assignments, hpasses.bar, hpasses.bars, hpasses.wantsOperand⟩, h.sound⟩

/-! #### Operators between two operands -/

section

variable {o : Infix} {l r : Expr}

theorem Receives.left (h : Receives d base known sign (.binary o l r)) :
    Receives d base known sign l := by
  have hlevels : d.parens + (max l.levels r.levels : Nat) < noBar := h.fits.levels
  exact ⟨fun x hx => h.spelled x (by simp [Expr.lexemes, hx]), h.sound,
    ⟨fun hbar => h.fits.opens (by simp [Expr.hasBar, hbar]), h.fits.inside, by omega⟩,
    h.wantsOperand, h.signs⟩

/-- The operator stands where the left operand does. -/
theorem Becomes.take_operator (hl : Becomes d base known sign l) (o : Infix) :
    (d.takeAll l.lexemes).take (.operator o.operator) =
      (d.takeAll l.lexemes).infixOperator o.opcode o.base :=
  take_infix hl.passes.wantsOperand o

theorem Receives.right (h : Receives d base known sign (.binary o l r))
    (hl : Becomes d base known sign l) :
    let d' := (d.takeAll l.lexemes).infixOperator o.opcode o.base
    Receives d' d'.pending (l.fold sign known).2 false r := by
  have hlevels : d.parens + (max l.levels r.levels : Nat) < noBar := h.fits.levels
  have hbar := hl.passes.bar
  have hparens := hl.passes.parens
  refine ⟨fun x hx => h.spelled x (by simp [Expr.lexemes, hx]), hl.sound, ⟨fun hr => ?_, ?_, ?_⟩, rfl,
    .unsigned fun _ => .cons (opcode_ne_neg o) _ _⟩
  · show (d.takeAll l.lexemes).bar ≠ (d.takeAll l.lexemes).parens - 1
    rw [hbar, hparens]
    exact h.fits.opens (by simp [Expr.hasBar, hr])
  · show (d.takeAll l.lexemes).bar = noBar ∨ (d.takeAll l.lexemes).bar < (d.takeAll l.lexemes).parens
    rw [hbar, hparens]
    exact h.fits.inside
  · show (d.takeAll l.lexemes).parens + (r.levels : Int) < noBar
    omega

theorem Becomes.binary (hl : Becomes d base known sign l)
    (hr : let d' := (d.takeAll l.lexemes).infixOperator o.opcode o.base
      Becomes d' d'.pending (l.fold sign known).2 false r) :
    Becomes d base known sign (.binary o l r) := by
  have htake : d.takeAll (Expr.binary o l r).lexemes =
      ((d.takeAll l.lexemes).infixOperator o.opcode o.base).takeAll r.lexemes := by
    rw [Expr.lexemes, Draft.takeAll_append, Draft.takeAll_cons, hl.take_operator]
  obtain ⟨hgrowsl, hpassesl, -⟩ := hl
  obtain ⟨hgrowsr, hpassesr, hsoundr⟩ := hr
  generalize d.takeAll l.lexemes = d' at *
  have hgrowso : Grows d' (d'.infixOperator o.opcode o.base)
      { pending := [⟨some o.opcode, d'.prec o.base⟩] } := .push rfl
  have hprec : d'.prec o.base = o.base - (d.parens + d.assignments) * level := by
    rw [Draft.prec, hpassesl.parens, hpassesl.assignments]
  have hlevel : (d'.infixOperator o.opcode o.base).parens +
      (d'.infixOperator o.opcode o.base).assignments = d.parens + d.assignments :=
    congrArg₂ (· + ·) hpassesl.parens hpassesl.assignments
  rw [hlevel] at hgrowsr
  refine ⟨?_, ?_, ?_⟩ <;> rw [htake]
  · have hgrows := (hgrowsl.trans hgrowso).trans hgrowsr
    rwa [hprec, ← Expr.piece_binary] at hgrows
  · exact ⟨hpassesr.parens.trans hpassesl.parens, hpassesr.assignments.trans hpassesl.assignments,
      hpassesr.bar.trans hpassesl.bar, hpassesr.bars.trans hpassesl.bars, hpassesr.wantsOperand⟩
  · exact hsoundr

end

/-! #### Minus signs -/

/-- The sign waits for the literal that the expression opens with, or stands on its own. -/
theorem Receives.minus (h : Receives d base known sign (.minus e)) :
    Receives (d.push .neg 2) (if e.opens known then d.pending else (d.push .neg 2).pending) known
      (e.opens known) e := by
  refine ⟨fun l hl => h.spelled l (by simp [Expr.lexemes, hl]), h.sound,
    ⟨h.fits.1, h.fits.2, h.fits.3⟩, h.wantsOperand, ?_⟩
  cases hopens : e.opens known with
  | true => exact ⟨rfl, _, rfl⟩
  | false => exact .unsigned fun hopen => Bool.noConfusion hopen

theorem Becomes.minus (hw : d.wantsOperand = true)
    (h : Becomes (d.push .neg 2) (if e.opens known then d.pending else (d.push .neg 2).pending) known
      (e.opens known) e) :
    Becomes d d.pending known false (.minus e) := by
  have htake : d.takeAll (Expr.minus e).lexemes = (d.push .neg 2).takeAll e.lexemes := by
    rw [Expr.lexemes, Draft.takeAll_cons]
    simp [Draft.take, Draft.operator, hw]
  have hminus : Grows d (d.push .neg 2) { pending := [⟨some .neg, d.prec 2⟩] } := .push rfl
  cases hopens : e.opens known with
  | true =>
    rw [hopens] at h
    refine ⟨?_, htake ▸ h.passes.of_push, ?_⟩ <;>
      rw [htake] <;> simp only [Expr.fold, hopens, if_true]
    · exact h.grows
    · exact h.sound
  | false =>
    rw [hopens] at h
    refine ⟨?_, htake ▸ h.passes.of_push, ?_⟩ <;>
      rw [htake] <;> simp only [Expr.fold, hopens, Bool.false_eq_true, if_false]
    · exact hminus.trans h.grows
    · exact h.sound

/-! #### Bars -/

/-- A draft behind a bar that opens. -/
def openBar (d : Draft) : Draft :=
  { { d with bars := d.bar :: d.bars }.push .mod 2 with bar := d.parens, parens := d.parens + 1 }

theorem Receives.modulus (hbar : e.hasBar = false) (h : Receives d base known sign (.modulus e)) :
    Receives (openBar d) (openBar d).pending known false e := by
  have hlevels : d.parens + (e.levels + 1 : Nat) < noBar := h.fits.levels
  refine ⟨fun l hl => h.spelled l (by simp [Expr.lexemes, hl]), h.sound,
    ⟨fun hopen => absurd (hbar.symm.trans hopen) Bool.false_ne_true, .inr ?_, ?_⟩, h.wantsOperand,
    .unsigned fun _ => .cons Opcode.noConfusion _ _⟩
  · show d.parens < d.parens + 1
    omega
  · show d.parens + 1 + (e.levels : Int) < noBar
    omega

theorem Becomes.modulus (hopen : d.bar ≠ d.parens - 1)
    (h : Becomes (openBar d) (openBar d).pending known false e) :
    Becomes d d.pending known false (.modulus e) := by
  obtain ⟨hgrows, hpasses, hsound⟩ := h
  have htake : d.takeAll (Expr.modulus e).lexemes =
      ((openBar d).takeAll e.lexemes).take (.operator .modulus) := by
    rw [Expr.lexemes, List.cons_append, Draft.takeAll_cons, Draft.takeAll_append,
      show d.take (.operator .modulus) = openBar d from if_neg hopen]
    rfl
  generalize (openBar d).takeAll e.lexemes = d' at *
  have hbar : d'.bar = d.parens := hpasses.bar
  have hparens : d'.parens = d.parens + 1 := hpasses.parens
  have hbars : d'.bars = d.bar :: d.bars := hpasses.bars
  have hclose : d'.take (.operator .modulus) =
      { d' with parens := d'.parens - 1, bar := d'.bars.headD noBar, bars := d'.bars.tail } :=
    if_pos (by rw [hbar, hparens]; omega)
  have hlevel : (openBar d).parens + (openBar d).assignments = d.parens + d.assignments + 1 := by
    show d.parens + 1 + d.assignments = _
    omega
  have hmod : Grows d (openBar d) { pending := [⟨some .mod, d.prec 2⟩] } := .push rfl
  rw [hlevel] at hgrows
  have hgrows := hmod.trans hgrows
  refine ⟨?_, ?_, ?_⟩ <;> rw [htake, hclose]
  · exact ⟨hgrows.pending, hgrows.slots, hgrows.loads, hgrows.stores, hgrows.jumps, hgrows.hasInit⟩
  · refine ⟨?_, hpasses.assignments, ?_, ?_, hpasses.wantsOperand⟩
    · show d'.parens - 1 = d.parens
      omega
    · show d'.bars.headD noBar = d.bar
      rw [hbars]
      rfl
    · show d'.bars.tail = d.bars
      rw [hbars]
      rfl
  · exact hsound

end

/-- An expression becomes its folded tree, whatever waits in front of it. -/
theorem Receives.becomes {e : Expr} : ∀ {d : Draft} {base : List (Pending Opcode)}
    {known : List String} {sign : Bool}, e.Legible → Receives d base known sign e →
    Becomes d base known sign e := by
  induction e with
  | name text =>
    intro d base known sign _ h
    obtain ⟨rfl, rfl⟩ := h.signed rfl
    obtain ⟨hgrows, hpasses, hsound⟩ := grows_name h.sound (h.spelled _ List.mem_cons_self)
    exact ⟨hgrows, hpasses, hsound⟩
  | literal text z isPair =>
    intro d base known sign _ h
    obtain ⟨hgrows, hpasses, hsound⟩ :=
      grows_literal h.sound (h.spelled _ List.mem_cons_self) h.signs
    exact ⟨hgrows, hpasses, hsound⟩
  | group e ih => exact fun hlegible h => (ih hlegible h.group).group
  | call f e ih =>
    intro d base known sign hlegible h
    obtain ⟨rfl, rfl⟩ := h.signed rfl
    exact (ih hlegible.2 h.call).call
  | binary o l r ihl ihr =>
    intro d base known sign hlegible h
    have hl := ihl hlegible.2.1 h.left
    exact hl.binary (ihr hlegible.2.2 (h.right hl))
  | minus e ih =>
    intro d base known sign hlegible h
    obtain ⟨rfl, rfl⟩ := h.signed rfl
    exact .minus h.wantsOperand (ih hlegible h.minus)
  | modulus e ih =>
    intro d base known sign hlegible h
    obtain ⟨rfl, rfl⟩ := h.signed rfl
    exact .modulus (h.fits.opens rfl) (ih hlegible.2 (h.modulus hlegible.1))

end Compile
end FractalFormula
