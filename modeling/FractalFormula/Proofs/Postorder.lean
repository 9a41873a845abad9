/-
The order of the code.

An operator of a tree is emitted after its operands if each of them binds tighter than the operator
does, or as tight as it does on the left (`Expr.Untied`).  Conventional trees without minus signs
and bars are so.  Then the code of a whole body is put together from the code of its statements
(`Block.linearize_piece`), and a list of statements becomes the postorder of each of them
(`statements_in_postorder`).
-/
import FractalFormula.Proofs.Compile
import FractalFormula.Proofs.Conventional
import FractalFormula.Proofs.Postfix

namespace FractalFormula

open Compile Pending

/-! ## Expressions -/

theorem Infix.base_eq (o : Infix) : o.base = o.rank + if o.rank ≤ 3 then 1 else 2 := by
  cases o <;> rfl

theorem Infix.base_mem (o : Infix) : 2 ≤ o.base ∧ o.base ≤ 7 := by
  cases o <;> decide

namespace Expr

/-- The loosest precedence in an expression outside all parentheses. -/
def peak : Expr → Int
  | binary o _ _ => o.base
  | minus _ | modulus _ => 2
  | _ => 1

/-- No operator waits for one that does not bind tighter: neither a minus sign for a bar or another
minus sign, nor a power for a bar. -/
def Untied : Expr → Prop
  | name _ | literal _ _ _ => True
  | group e | modulus e => e.Untied
  | call _ e => e.isBracketed = true ∧ e.Untied
  | binary o l r => l.peak ≤ o.base ∧ r.peak < o.base ∧ l.Untied ∧ r.Untied
  | minus e => e.peak < 2 ∧ e.Untied

theorem peak_mem (e : Expr) : 1 ≤ e.peak ∧ e.peak ≤ 7 := by
  cases e with
  | binary o l r =>
    have := o.base_mem
    show 1 ≤ o.base ∧ o.base ≤ 7
    omega
  | minus | modulus => exact ⟨by show (1 : Int) ≤ 2; omega, by show (2 : Int) ≤ 7; omega⟩
  | _ => exact ⟨Int.le_refl 1, by show (1 : Int) ≤ 7; omega⟩

theorem Plain.peak_eq {e : Expr} (h : e.Plain) :
    e.peak = e.rank + if e.rank ≤ 3 then 1 else 2 := by
  cases e with
  | binary o l r => exact o.base_eq
  | minus | modulus => exact h.elim
  | _ => rfl

theorem Plain.untied {e : Expr} (h : e.Plain) (hc : e.Conventional) : e.Untied := by
  induction e with
  | name | literal => trivial
  | group e ih => exact ih h hc
  | call f e ih => exact ⟨h.1, ih h.2 hc.2⟩
  | binary o l r ihl ihr =>
    obtain ⟨hl, hr, hcl, hcr⟩ := hc
    refine ⟨?_, ?_, ihl h.1 hcl, ihr h.2 hcr⟩
    · rw [h.1.peak_eq, o.base_eq]
      split <;> split <;> omega
    · rw [h.2.peak_eq, o.base_eq]
      split <;> split <;> omega
  | minus | modulus => exact h.elim

/-- The precedences of an expression at level `n` lie between that of its loosest operator and that
of the deepest level there is in it. -/
theorem prec_of_mem_pending {e : Expr} (h : e.Untied) : ∀ {n : Int}, ∀ p ∈ e.pending n,
    p.prec ≤ e.peak - n * level ∧ 1 - (n + e.levels + 1) * level ≤ p.prec := by
  simp only [show level = 15 from rfl]
  induction e with
  | name text =>
    intro n p hp
    rw [List.mem_singleton.mp hp]
    simp only [show level = 15 from rfl, peak, levels]
    omega
  | literal text z isPair =>
    intro n p hp
    rw [List.mem_singleton.mp hp]
    simp only [show level = 15 from rfl, peak, levels]
    split <;> omega
  | group e ih =>
    intro n p hp
    have := ih h p hp
    have := e.peak_mem
    simp only [peak, levels]
    omega
  | call f e ih =>
    intro n p hp
    obtain ⟨hb, he⟩ := h
    simp only [peak, levels]
    rcases List.mem_cons.mp hp with rfl | hp
    · simp only [show level = 15 from rfl]
      omega
    · have := ih he p hp
      have hpeak : e.peak = 1 := by cases e <;> first | rfl | simp [isBracketed] at hb
      omega
  | binary o l r ihl ihr =>
    intro n p hp
    obtain ⟨hl, hr, hul, hur⟩ := h
    have := l.peak_mem
    simp only [peak, levels]
    rcases List.mem_append.mp hp with hp | hp
    · have := ihl hul p hp
      omega
    · rcases List.mem_cons.mp hp with rfl | hp
      · simp only [show level = 15 from rfl]
        omega
      · have := ihr hur p hp
        omega
  | minus e ih =>
    intro n p hp
    simp only [peak, levels]
    rcases List.mem_cons.mp hp with rfl | hp
    · simp only [show level = 15 from rfl]
      omega
    · have := ih h.2 p hp
      have := h.1
      omega
  | modulus e ih =>
    intro n p hp
    simp only [peak, levels]
    rcases List.mem_cons.mp hp with rfl | hp
    · simp only [show level = 15 from rfl]
      omega
    · have := ih h p hp
      have := e.peak_mem
      omega

/-- What stands in parentheses binds tighter than any operator outside them. -/
theorem prec_of_isBracketed {e : Expr} (h : e.Untied) (hb : e.isBracketed = true) {n : Int} :
    ∀ p ∈ e.pending n, p.prec < 1 - n * level := by
  intro p hp
  cases e with
  | group e =>
    have := (prec_of_mem_pending (e := e) h p hp).1
    have := e.peak_mem
    simp only [show level = 15 from rfl] at *
    omega
  | literal text z isPair =>
    cases isPair with
    | true =>
      rw [List.mem_singleton.mp hp]
      simp only [show level = 15 from rfl, if_true]
      omega
    | false => simp [isBracketed] at hb
  | _ => simp [isBracketed] at hb

theorem linearize_pending {e : Expr} (h : e.Untied) : ∀ n : Int,
    linearize (e.pending n) = e.postorder := by
  induction e with
  | name | literal => exact fun _ => rfl
  | group e ih => exact fun n => ih h (n + 1)
  | call f e ih =>
    intro n
    rw [pending, linearize_cons (prec_of_isBracketed h.2 h.1), ih h.2]
    rfl
  | binary o l r ihl ihr =>
    intro n
    obtain ⟨hl, hr, hul, hur⟩ := h
    have hright : ∀ p ∈ r.pending n, p.prec < o.base - n * level := fun p hp => by
      have := (prec_of_mem_pending hur p hp).1
      omega
    have hleft : Within (l.pending n) (⟨some o.opcode, o.base - n * level⟩ :: r.pending n) :=
      fun p hp b hb => by
        obtain rfl := Option.some.inj hb
        have := (prec_of_mem_pending hul p hp).1
        show p.prec ≤ o.base - n * level
        omega
    rw [pending, linearize_append hleft, linearize_cons hright, ihl hul, ihr hur,
      ← List.append_assoc]
    rfl
  | minus e ih =>
    intro n
    have hbelow : ∀ p ∈ e.pending n, p.prec < 2 - n * level := fun p hp => by
      have := (prec_of_mem_pending h.2 p hp).1
      have := h.1
      omega
    rw [pending, linearize_cons hbelow, ih h.2]
    rfl
  | modulus e ih =>
    intro n
    have hbelow : ∀ p ∈ e.pending (n + 1), p.prec < 2 - n * level := fun p hp => by
      have := (prec_of_mem_pending (e := e) h p hp).1
      have := e.peak_mem
      simp only [show level = 15 from rfl] at *
      omega
    rw [pending, linearize_cons hbelow, ih h]
    rfl

end Expr

/-! ## Statements and blocks -/

/-- An expression whose operators are emitted where they belong, below every separator. -/
def Settled (e : Expr) : Prop :=
  e.Untied ∧ e.levels < 999

/-- What comes after a separator releases it. -/
def Releases (xs : List (Pending Opcode)) : Prop :=
  ∀ p ∈ xs.head?, separatorPrec ≤ p.prec

/-- Separators and their like, which release all that waits. -/
def Opening (xs : List (Pending Opcode)) : Prop :=
  ∀ p ∈ xs.head?, level ≤ p.prec

def Bounded (xs : List (Pending Opcode)) : Prop :=
  ∀ p ∈ xs, p.prec ≤ level

theorem Bounded.append {xs ys : List (Pending Opcode)} (hx : Bounded xs) (hy : Bounded ys) :
    Bounded (xs ++ ys) :=
  fun p hp => (List.mem_append.mp hp).elim (hx p) (hy p)

theorem linearize_opening {xs ys : List (Pending Opcode)} (hx : Bounded xs) (hy : Opening ys) :
    linearize (xs ++ ys) = linearize xs ++ linearize ys :=
  linearize_append fun p hp b hb => Int.le_trans (hx p hp) (hy b hb)

theorem Settled.bounded {e : Expr} (h : Settled e) {n : Int} (hn : 0 ≤ n) :
    Bounded (e.pending n) := by
  intro p hp
  have := (e.prec_of_mem_pending h.1 p hp).1
  have := e.peak_mem
  simp only [show level = 15 from rfl] at *
  omega

theorem Settled.releases {e : Expr} (h : Settled e) : Releases (e.pending 0) := by
  intro p hp
  have := (e.prec_of_mem_pending h.1 p (List.mem_of_mem_head? hp)).2
  have := h.2
  simp only [show level = 15 from rfl, show separatorPrec = -30000 from rfl] at *
  omega

namespace Statement

theorem prec_le_of_mem_storesFrom {e : Expr} (h : e.Untied) (targets : List String) :
    ∀ {n : Int}, ∀ p ∈ storesFrom n targets ++ e.pending (n + targets.length),
      p.prec ≤ 7 - n * level := by
  simp only [show level = 15 from rfl]
  induction targets with
  | nil =>
    intro n p hp
    have := (e.prec_of_mem_pending h p hp).1
    have := e.peak_mem
    simp only [show level = 15 from rfl, List.length_nil] at *
    omega
  | cons v targets ih =>
    intro n p hp
    rcases List.mem_cons.mp hp with rfl | hp
    · simp only [show level = 15 from rfl]
      omega
    · have hlen : n + (targets.length + 1 : Nat) = n + 1 + targets.length := by omega
      rw [List.length_cons, hlen] at hp
      have := ih p hp
      omega

/-- The store that comes first in the text is the last in the code. -/
theorem linearize_storesFrom {e : Expr} (h : e.Untied) (targets : List String) : ∀ n : Int,
    linearize (storesFrom n targets ++ e.pending (n + targets.length)) =
      e.postorder ++ List.replicate targets.length .store := by
  induction targets with
  | nil =>
    intro n
    exact (e.linearize_pending h _).trans (List.append_nil _).symm
  | cons v targets ih =>
    intro n
    have hlen : n + (targets.length + 1 : Nat) = n + 1 + targets.length := by omega
    have hbelow : ∀ p ∈ storesFrom (n + 1) targets ++ e.pending (n + 1 + targets.length),
        p.prec < 5 - n * level := fun p hp => by
      have := prec_le_of_mem_storesFrom h targets p hp
      simp only [show level = 15 from rfl] at *
      omega
    rw [storesFrom, List.length_cons, hlen, List.cons_append, linearize_cons hbelow, ih,
      List.append_assoc, List.replicate_succ']
    rfl

theorem linearize_piece {s : Statement} (h : Settled s.value) :
    linearize s.piece.pending = s.code := by
  have := linearize_storesFrom h.1 s.targets 0
  rwa [Int.zero_add] at this

theorem bounded {s : Statement} (h : Settled s.value) : Bounded s.piece.pending := by
  intro p hp
  have := prec_le_of_mem_storesFrom h.1 s.targets (n := 0) p (by rwa [Int.zero_add])
  simp only [show level = 15 from rfl] at *
  omega

theorem releases {s : Statement} (h : Settled s.value) : Releases s.piece.pending := by
  obtain ⟨targets, value⟩ := s
  cases targets with
  | nil => exact h.releases
  | cons v targets =>
    intro p hp
    obtain rfl := Option.some.inj hp
    decide

end Statement

namespace Break

theorem linearize_piece (b : Break) {xs : List (Pending Opcode)} (h : Releases xs) :
    linearize (b.piece.pending ++ xs) = b.code ++ linearize xs := by
  have key (marker : Opcode) : linearize (⟨some marker, separatorPrec⟩ :: xs) =
      marker :: linearize xs := by
    have hwithin : Within [⟨some marker, separatorPrec⟩] xs := fun p hp q hq => by
      obtain rfl := List.mem_singleton.mp hp
      exact h q hq
    exact linearize_append hwithin
  cases b with
  | none => rfl
  | comma => exact (linearize_none_cons _ _).trans (key .clear)
  | colon => exact (linearize_none_cons _ _).trans (key .endInit)

theorem bounded (b : Break) : Bounded b.piece.pending := by
  cases b <;> intro p hp <;> revert p <;> decide

end Break

/-- A condition is emitted before the jump that tests it. -/
theorem linearize_condition {c : Expr} (h : Settled c) (hb : c.isBracketed = true) :
    linearize (⟨some .jumpOnFalse, 1⟩ :: c.pending 0) = c.postorder ++ [.jumpOnFalse] := by
  have hbelow : ∀ p ∈ c.pending 0, p.prec < 1 := fun p hp => by
    simpa using c.prec_of_isBracketed h.1 hb p hp
  rw [linearize_cons hbelow, c.linearize_pending h.1]
  rfl

theorem FlowWord.bounded (w : FlowWord) : Bounded w.piece.pending := by
  cases w <;> intro p hp <;> revert p <;> decide

/-- A condition with the word in front of it. -/
theorem FlowWord.bounded_condition (w : FlowWord) {c : Expr} (h : Settled c) :
    Bounded (w.piece ++ c.piece 0).pending :=
  w.bounded.append (h.bounded (Int.le_refl 0))

theorem releases_cons {op : Opcode} {prec : Int} (h : separatorPrec ≤ prec)
    (xs : List (Pending Opcode)) : Releases (⟨some op, prec⟩ :: xs) := by
  intro p hp
  obtain rfl := Option.some.inj hp
  exact h

mutual

theorem Block.bounded_piece (b : Break) : ∀ {x : Block}, x.All Settled →
    Bounded (x.piece b).pending
  | .nil, _ => fun _ hp => absurd hp List.not_mem_nil
  | .statement s next, h =>
    (b.bounded.append (s.bounded h.1)).append (next.bounded_piece .comma h.2)
  | .branch _ body rest next, h =>
    (((b.bounded.append (FlowWord.if.bounded_condition h.1.2)).append
      (body.bounded_piece .comma h.2.1)).append (rest.bounded_piece h.2.2.1)).append
      (next.bounded_piece .comma h.2.2.2)

theorem Tail.bounded_piece : ∀ {x : Tail}, x.All Settled → Bounded x.piece.pending
  | .endIf, _ => Break.comma.bounded.append FlowWord.endIf.bounded
  | .else body, h =>
    ((Break.comma.bounded.append FlowWord.else.bounded).append
      (Block.bounded_piece .comma (x := body) h)).append
      (Break.comma.bounded.append FlowWord.endIf.bounded)
  | .elseIf _ body rest, h =>
    ((Break.comma.bounded.append (FlowWord.elseIf.bounded_condition h.1.2)).append
      (body.bounded_piece .comma h.2.1)).append (rest.bounded_piece h.2.2)

end

theorem Block.opening_piece (x : Block) : Opening (x.piece .comma).pending := by
  intro p hp
  cases x with
  | nil => exact absurd hp (by simp [Block.piece])
  | statement s next | branch c body rest next =>
    obtain rfl := Option.some.inj hp
    exact Int.le_refl _

theorem Tail.opening_piece (x : Tail) : Opening x.piece.pending := by
  intro p hp
  cases x <;>
  · obtain rfl := Option.some.inj hp
    exact Int.le_refl _

mutual

theorem Block.linearize_piece (b : Break) : ∀ {x : Block}, x.All Settled →
    linearize (x.piece b).pending = x.code b
  | .nil, _ => rfl
  | .statement s next, h => by
    have hitem : linearize (b.piece.pending ++ s.piece.pending) = b.code ++ s.code := by
      rw [b.linearize_piece (s.releases h.1), s.linearize_piece h.1]
    have hsplit := linearize_opening (b.bounded.append (s.bounded h.1)) next.opening_piece
    rw [hitem, next.linearize_piece .comma h.2] at hsplit
    exact hsplit
  | .branch c body rest next, h => by
    obtain ⟨⟨hb, hc⟩, hbody, hrest, hnext⟩ := h
    have hcond : linearize (b.piece.pending ++ (FlowWord.if.piece ++ c.piece 0).pending) =
        b.code ++ (c.postorder ++ [.jumpOnFalse]) :=
      (b.linearize_piece (releases_cons (by decide) _)).trans
        (congrArg (b.code ++ ·) (linearize_condition hc hb))
    have h₁ := b.bounded.append (FlowWord.if.bounded_condition hc)
    have h₂ := h₁.append (body.bounded_piece .comma hbody)
    have h₃ := h₂.append (rest.bounded_piece hrest)
    have hsplit := linearize_opening h₃ next.opening_piece
    rw [linearize_opening h₂ rest.opening_piece, linearize_opening h₁ body.opening_piece, hcond,
      body.linearize_piece .comma hbody, rest.linearize_piece hrest,
      next.linearize_piece .comma hnext] at hsplit
    refine hsplit.trans ?_
    simp only [Block.code, List.append_assoc, List.cons_append, List.nil_append]

theorem Tail.linearize_piece : ∀ {x : Tail}, x.All Settled → linearize x.piece.pending = x.code
  | .endIf, _ => rfl
  | .else body, h => by
    have hword := Break.comma.bounded.append FlowWord.else.bounded
    have hopen : Opening (Break.comma.piece ++ FlowWord.endIf.piece).pending :=
      Tail.opening_piece .endIf
    have h₁ := hword.append (Block.bounded_piece .comma (x := body) h)
    have hsplit := linearize_opening h₁ hopen
    rw [linearize_opening hword body.opening_piece, body.linearize_piece .comma h] at hsplit
    exact hsplit
  | .elseIf c body rest, h => by
    obtain ⟨⟨hb, hc⟩, hbody, hrest⟩ := h
    -- the jump that ends the branch before is emitted with the separator behind it
    have hjump := Break.comma.bounded.append FlowWord.else.bounded
    have hopen : Opening (Break.comma.piece.pending ++ ⟨some .jumpOnFalse, 1⟩ :: c.pending 0) :=
      fun p hp => by
        obtain rfl := Option.some.inj hp
        exact Int.le_refl _
    have hcond := linearize_opening hjump hopen
    rw [Break.comma.linearize_piece (releases_cons (by decide) _), linearize_condition hc hb]
      at hcond
    have h₁ := Break.comma.bounded.append (FlowWord.elseIf.bounded_condition hc)
    have h₂ := h₁.append (body.bounded_piece .comma hbody)
    have hsplit := linearize_opening h₂ rest.opening_piece
    rw [linearize_opening h₁ body.opening_piece, body.linearize_piece .comma hbody,
      rest.linearize_piece hrest] at hsplit
    refine hsplit.trans ?_
    have hfront : linearize (Break.comma.piece.pending ++
        (FlowWord.elseIf.piece ++ c.piece 0).pending) =
        [.clear, .jump] ++ (.clear :: (c.postorder ++ [.jumpOnFalse])) := hcond
    rw [hfront]
    simp only [Tail.code, List.append_assoc, List.cons_append, List.nil_append]

end

/-! ## Tables -/

/-- What a separator adds to the tables of operands, targets and words is nothing. -/
theorem Break.piece_tables (b : Break) :
    b.piece.operands = [] ∧ b.piece.targets = [] ∧ b.piece.words = [] := by
  cases b <;> exact ⟨rfl, rfl, rfl⟩

theorem Statement.piece_tables (s : Statement) :
    s.piece.operands = s.value.operands ∧ s.piece.targets = s.targets ∧ s.piece.words = [] ∧
      s.piece.hasInit = false :=
  ⟨rfl, List.append_nil _, rfl, rfl⟩

mutual

theorem Block.piece_tables (b : Break) : ∀ x : Block,
    (x.piece b).operands = x.operands ∧ (x.piece b).targets = x.targets ∧
      (x.piece b).words = x.words
  | .nil => ⟨rfl, rfl, rfl⟩
  | .statement s next => by
    simp [Block.piece, Block.operands, Block.targets, Block.words, b.piece_tables, s.piece_tables,
      next.piece_tables .comma]
  | .branch c body rest next => by
    simp [Block.piece, Block.operands, Block.targets, Block.words, b.piece_tables, Expr.piece,
      FlowWord.piece, body.piece_tables .comma, rest.piece_tables, next.piece_tables .comma]

theorem Tail.piece_tables : ∀ x : Tail,
    x.piece.operands = x.operands ∧ x.piece.targets = x.targets ∧ x.piece.words = x.words
  | .endIf => ⟨rfl, rfl, rfl⟩
  | .else body => by
    simp [Tail.piece, Tail.operands, Tail.targets, Tail.words, Break.piece_tables, FlowWord.piece,
      body.piece_tables .comma]
  | .elseIf c body rest => by
    simp [Tail.piece, Tail.operands, Tail.targets, Tail.words, Break.piece_tables, Expr.piece,
      FlowWord.piece, body.piece_tables .comma, rest.piece_tables]

end

mutual

/-- Only a colon begins the iterated section. -/
theorem Block.hasInit_piece (b : Break) : ∀ x : Block, x ≠ .nil ∨ b = .comma →
    (x.piece b).hasInit = b.piece.hasInit
  | .nil, h => by
    obtain rfl := h.resolve_left (fun h => h rfl)
    rfl
  | .statement s next, _ => by
    have hcomma : Break.comma.piece.hasInit = false := rfl
    simp [Block.piece, s.piece_tables, next.hasInit_piece .comma (.inr rfl), hcomma]
  | .branch c body rest next, _ => by
    have hcomma : Break.comma.piece.hasInit = false := rfl
    simp [Block.piece, Expr.piece, FlowWord.piece, body.hasInit_piece .comma (.inr rfl),
      rest.hasInit_piece, next.hasInit_piece .comma (.inr rfl), hcomma]

theorem Tail.hasInit_piece : ∀ x : Tail, x.piece.hasInit = false
  | .endIf => rfl
  | .else body => by
    have hcomma : Break.comma.piece.hasInit = false := rfl
    simp [Tail.piece, FlowWord.piece, body.hasInit_piece .comma (.inr rfl), hcomma]
  | .elseIf c body rest => by
    have hcomma : Break.comma.piece.hasInit = false := rfl
    simp [Tail.piece, Expr.piece, FlowWord.piece, body.hasInit_piece .comma (.inr rfl),
      rest.hasInit_piece, hcomma]

end

/-- The tables of the program `p` are those of the body `s`. -/
structure Source.Tables (s : Source) (p : Program) : Prop where
  code : p.code = s.code
  loads : List.Forall₂ (Holds p.slots) p.loads s.operands
  stores : List.Forall₂ (Holds p.slots) p.stores (s.targets.map .name)
  jumps : p.jumps = s.words.map .unresolved
  hasInit : p.hasInit = s.init.isSome

theorem Source.linearize_piece {s : Source} (h : s.All Settled) :
    linearize s.piece.pending = s.code := by
  obtain ⟨init, loop⟩ := s
  cases init with
  | none => exact loop.linearize_piece .none h.2
  | some init =>
    obtain ⟨-, hloop, hinit⟩ := h.1 init rfl
    have hopen : Opening (loop.piece .colon).pending := by
      intro p hp
      cases loop with
      | nil => exact absurd rfl hloop
      | statement s next | branch c body rest next =>
        obtain rfl := Option.some.inj hp
        exact Int.le_refl _
    have := linearize_opening (init.bounded_piece .none hinit) hopen
    rw [init.linearize_piece .none hinit, loop.linearize_piece .colon h.2] at this
    exact this

theorem Source.tables_of_compiled {s : Source} {env : Environment} {p : Program}
    (h : Compiled s env p) (hs : s.fold.All Settled) : s.fold.Tables p := by
  obtain ⟨hcode, hloads, hstores, hjumps, hinit, -, -⟩ := h
  rw [linearize_piece hs] at hcode
  generalize s.fold = t at *
  obtain ⟨init, loop⟩ := t
  cases init with
  | none =>
    obtain ⟨ho, ht, hw⟩ := loop.piece_tables .none
    refine ⟨hcode, ?_, ?_, ?_, ?_⟩
    · simpa [piece, operands, ho] using hloads
    · simpa [piece, targets, ht] using hstores
    · simpa [piece, words, hw] using hjumps
    · rw [hinit]
      cases loop with
      | nil => rfl
      | statement s next => exact Block.hasInit_piece .none (.statement s next) (.inl (by simp))
      | branch c body rest next =>
        exact Block.hasInit_piece .none (.branch c body rest next) (.inl (by simp))
  | some init =>
    obtain ⟨-, hloop, -⟩ := hs.1 init rfl
    obtain ⟨ho, ht, hw⟩ := loop.piece_tables .colon
    obtain ⟨ho', ht', hw'⟩ := init.piece_tables .none
    refine ⟨hcode, ?_, ?_, ?_, ?_⟩
    · simpa [piece, operands, ho, ho'] using hloads
    · simpa [piece, targets, ht, ht'] using hstores
    · simpa [piece, words, hw, hw'] using hjumps
    · rw [hinit]
      show (_ || (loop.piece .colon).hasInit) = true
      rw [loop.hasInit_piece .colon (.inl hloop)]
      exact Bool.or_true _

end FractalFormula
