/-
The operand tables.

Every load of the code has an entry for the operand it stands for, and every store one for the
variable to the left of its `=`, in the order of the text (`Lexeme.reads`, `Lexeme.targets`).  That
is so as long as every `=` has a variable to its left, or nothing was queued before it that it could
take away (`operands_tabulated`).
-/
import FractalFormula.Load.Formula
import FractalFormula.Proofs.Body
import FractalFormula.Proofs.Footing

namespace FractalFormula

open Compile

namespace Lexeme

/-- How a draft stands to the operand that comes next: whether one is wanted, and whether a sign may
be pending that belongs to it. -/
structure Posture where
  wants : Bool := true
  signed : Bool := false

def Posture.after (p : Posture) : Lexeme → Posture
  | .name _ | .literal _ _ _ => ⟨false, false⟩
  | .call _ => ⟨true, false⟩
  | .flow w => ⟨w.takesCondition, false⟩
  | .operator .comma => if p.wants then p else ⟨true, false⟩
  | .operator .modulus => p
  | .operator .minus => ⟨true, p.wants⟩
  | .operator _ => ⟨true, false⟩
  | .leftParen | .rightParen | .close | .fault _ => p

/-- The names and literals that are read, in the order of the text: all but the names that have a
`=` right behind them.  With each goes whether a minus sign may be pending that belongs to it. -/
def reads : Posture → List Lexeme → List (Bool × Operand)
  | _, [] => []
  | p, .name v :: ls =>
    (if ls.head? = some (.operator .assign) then [] else [(p.signed, .name v)])
      ++ reads (p.after (.name v)) ls
  | p, .literal text z isPair :: ls =>
    (p.signed, .literal text z) :: reads (p.after (.literal text z isPair)) ls
  | p, l :: ls => reads (p.after l) ls

/-- The names that have a `=` right behind them, in the order of the text. -/
def targets : List Lexeme → List String
  | [] => []
  | .name v :: ls =>
    (if ls.head? = some (.operator .assign) then [v] else []) ++ targets ls
  | _ :: ls => targets ls

/-- Every `=` has a name to its left, or nothing at all but commas and other `=`. -/
def Aimed (ls : List Lexeme) : Prop :=
  ∀ pre post, ls = pre ++ .operator .assign :: post →
    (∃ a v, pre = a ++ [.name v]) ∨ ∀ l ∈ pre, l = .operator .comma ∨ l = .operator .assign

theorem aimed_assignment (v : String) {ls : List Lexeme} (h : .operator .assign ∉ ls) :
    Aimed (.name v :: .operator .assign :: ls) := by
  intro pre post hls
  left
  match pre, hls with
  | [], hls => cases (List.cons.inj hls).1
  | [l], hls => exact ⟨[], v, by rw [← (List.cons.inj hls).1]; rfl⟩
  | _ :: _ :: pre, hls =>
    have hrest : ls = pre ++ .operator .assign :: post := (List.cons.inj (List.cons.inj hls).2).2
    exact absurd (hrest ▸ List.mem_append_right pre List.mem_cons_self) h

end Lexeme

namespace Compile

/-- Slot `i` is what the operand refers to; a literal behind a sign may have become its opposite. -/
def FoundAt (slots : List Slot) (i : Nat) (o : Bool × Operand) : Prop :=
  match o.2 with
  | .name v => Holds slots i (.name v)
  | .literal text z => Holds slots i (.literal text z) ∨
      o.1 = true ∧ Holds slots i (.literal ("-" ++ text) ⟨-z.x, -z.y⟩)

theorem FoundAt.mono {slots slots' : List Slot} (h : slots <+: slots') {i : Nat}
    {o : Bool × Operand} (hi : FoundAt slots i o) : FoundAt slots' i o := by
  obtain ⟨signed, o⟩ := o
  cases o with
  | name v => exact Holds.mono (o := .name v) h hi
  | literal text z => exact hi.imp (Holds.mono h) (And.imp_right (Holds.mono h))

/-- What some lexemes add to the tables of a draft and to its loads and stores. -/
structure Fills (d d' : Draft) (reads : List (Bool × Operand)) (targets : List String) : Prop where
  slots : d.slots <+: d'.slots
  loads : ∃ idx, d'.loads = idx.reverse ++ d.loads ∧ List.Forall₂ (FoundAt d'.slots) idx reads
  stores : ∃ idx, d'.stores = idx.reverse ++ d.stores ∧
    List.Forall₂ (Holds d'.slots) idx (targets.map .name)
  loadOps : (d'.pendingOf (· == .load)).length =
    (d.pendingOf (· == .load)).length + reads.length
  storeOps : (d'.pendingOf (· == .store)).length =
    (d.pendingOf (· == .store)).length + targets.length

namespace Fills

variable {d d' d'' : Draft} {os os' : List (Bool × Operand)} {ts ts' : List String}

/-- What the tables hold stays at their front. -/
theorem tables (h : Fills d d' os ts) : d.slots <+: d'.slots ∧
    d.loads.reverse <+: d'.loads.reverse ∧ d.stores.reverse <+: d'.stores.reverse := by
  obtain ⟨loads, hloads, -⟩ := h.loads
  obtain ⟨stores, hstores, -⟩ := h.stores
  refine ⟨h.slots, ⟨loads, ?_⟩, ⟨stores, ?_⟩⟩
  · rw [hloads, List.reverse_append, List.reverse_reverse]
  · rw [hstores, List.reverse_append, List.reverse_reverse]

theorem trans (h : Fills d d' os ts) (h' : Fills d' d'' os' ts') :
    Fills d d'' (os ++ os') (ts ++ ts') := by
  obtain ⟨loads, hloads, hos⟩ := h.loads
  obtain ⟨loads', hloads', hos'⟩ := h'.loads
  obtain ⟨stores, hstores, hts⟩ := h.stores
  obtain ⟨stores', hstores', hts'⟩ := h'.stores
  refine ⟨h.slots.trans h'.slots, ⟨loads ++ loads', ?_, ?_⟩, ⟨stores ++ stores', ?_, ?_⟩, ?_, ?_⟩
  · rw [hloads', hloads, List.reverse_append, List.append_assoc]
  · exact List.rel_append (hos.imp fun _ _ => FoundAt.mono h'.slots) hos'
  · rw [hstores', hstores, List.reverse_append, List.append_assoc]
  · rw [List.map_append]
    exact List.rel_append (hts.imp fun _ _ => Holds.mono h'.slots) hts'
  · rw [h'.loadOps, h.loadOps, List.length_append, Nat.add_assoc]
  · rw [h'.storeOps, h.storeOps, List.length_append, Nat.add_assoc]

/-- A lexeme that is neither an operand nor an assignment. -/
theorem of_other {l : Lexeme} (hl : l ≠ .operator .assign)
    (htables : (d.take l).slots = d.slots ∧ (d.take l).loads = d.loads ∧
      (d.take l).stores = d.stores)
    (hqueued : ∀ op ∈ Pending.outputs (l.queued d), op ≠ .load ∧ op ≠ .store) :
    Fills d (d.take l) [] [] := by
  obtain ⟨hslots, hloads, hstores⟩ := htables
  have hnone {op : Opcode} (hop : op = .load ∨ op = .store) :
      (d.take l).pendingOf (· == op) = d.pendingOf (· == op) := by
    have hno : (Pending.outputs (l.queued d)).filter (· == op) = [] := by
      refine List.filter_eq_nil_iff.mpr fun op' hop' heq => ?_
      obtain rfl := eq_of_beq heq
      exact hop.elim (hqueued _ hop').1 (hqueued _ hop').2
    rw [pendingOf_take (by rcases hop with rfl | rfl <;> rfl) fun h => absurd h hl, hno]
    rfl
  exact ⟨hslots ▸ List.prefix_refl _, ⟨[], hloads, .nil⟩, ⟨[], hstores, .nil⟩,
    congrArg List.length (hnone (.inl rfl)), congrArg List.length (hnone (.inr rfl))⟩

/-- An operand, which becomes one load. -/
theorem of_operand {l : Lexeme} {base : List (Pending Opcode)} {p : Piece} {o : Operand}
    (hl : l ≠ .operator .assign) (hqueued : ∃ prec, l.queued d = [⟨some .load, prec⟩])
    (hgrows : Grows { d with pending := base } (d.take l) p) (hp : p.operands = [o] ∧ p.targets = [])
    {o' : Bool × Operand} (hfound : ∀ i, Holds (d.take l).slots i o → FoundAt (d.take l).slots i o') :
    Fills d (d.take l) [o'] [] := by
  obtain ⟨prec, hqueued⟩ := hqueued
  obtain ⟨idx, hloads, hidx⟩ := hgrows.loads
  obtain ⟨none, hstores, hnone⟩ := hgrows.stores
  rw [hp.1] at hidx
  rw [hp.2] at hnone
  obtain ⟨i, is, hi, his, rfl⟩ := List.forall₂_cons_right_iff.mp hidx
  obtain rfl := List.forall₂_nil_right_iff.mp his
  obtain rfl := List.forall₂_nil_right_iff.mp hnone
  refine ⟨hgrows.slots, ⟨[i], hloads, .cons (hfound i hi) .nil⟩, ⟨[], hstores, .nil⟩, ?_, ?_⟩
  · rw [pendingOf_take rfl fun h => absurd h hl, hqueued, List.length_append, Nat.add_comm]
    rfl
  · rw [pendingOf_take rfl fun h => absurd h hl, hqueued]
    rfl

end Fills

/-! ## Single lexemes -/

variable {d : Draft}

theorem fills_name {known : List String} (hsound : Sound d.slots known) {v : String}
    (hv : Lexeme.IsName v) (signed : Bool) :
    Fills d (d.take (.name v)) [(signed, .name v)] [] ∧ Sound (d.take (.name v)).slots known := by
  obtain ⟨hgrows, -, hsound'⟩ := grows_name hsound hv
  exact ⟨.of_operand (l := .name v) nofun ⟨_, rfl⟩ hgrows ⟨rfl, rfl⟩ fun _ => id, hsound'⟩

theorem exists_signs (d : Draft) (opens : Bool) : ∃ base sign, Signs d base opens sign ∧
    (sign = true → d.signed = true) := by
  cases opens with
  | false => exact ⟨d.pending, false, ⟨rfl, fun h => Bool.noConfusion h⟩, fun h => Bool.noConfusion h⟩
  | true =>
    cases hsigned : d.signed with
    | true =>
      obtain ⟨prec, rest, hpending⟩ := Draft.signed_iff.mp hsigned
      exact ⟨rest, true, ⟨rfl, prec, hpending⟩, fun _ => rfl⟩
    | false =>
      refine ⟨d.pending, false, ⟨rfl, fun _ p hp hneg => ?_⟩, fun h => Bool.noConfusion h⟩
      obtain ⟨op, prec⟩ := p
      obtain rfl : op = some .neg := hneg
      obtain ⟨rest, hpending⟩ := List.head?_eq_some_iff.mp hp
      rw [Draft.signed, hpending] at hsigned
      cases hsigned

theorem fills_literal {known : List String} (hsound : Sound d.slots known) {text : String}
    {z : Complex Float} {isPair : Bool} (hs : (Lexeme.literal text z isPair).Spelled)
    {signed : Bool} (hsigned : d.signed = true → signed = true) :
    Fills d (d.take (.literal text z isPair)) [(signed, .literal text z)] [] ∧
      ∃ known', Sound (d.take (.literal text z isPair)).slots known' := by
  obtain ⟨base, sign, hsign, htakes⟩ :=
    exists_signs d ((Expr.literal text z isPair).opens known)
  obtain ⟨hgrows, -, hsound'⟩ := grows_literal hsound hs hsign
  refine ⟨?_, _, hsound'⟩
  cases sign with
  | true =>
    exact .of_operand (l := .literal text z isPair) nofun ⟨_, rfl⟩ hgrows ⟨rfl, rfl⟩
      fun i hi => .inr ⟨hsigned (htakes rfl), hi⟩
  | false =>
    exact .of_operand (l := .literal text z isPair) nofun ⟨_, rfl⟩ hgrows ⟨rfl, rfl⟩
      fun i hi => .inl hi

/-- A name that is assigned to becomes one store. -/
theorem fills_target {known : List String} (hsound : Sound d.slots known) {v : String}
    (hv : Lexeme.IsName v) :
    Fills d (d.takeAll [.name v, .operator .assign]) [] [v] ∧
      Sound (d.takeAll [.name v, .operator .assign]).slots known := by
  obtain ⟨hgrows, -, -, -, -, hsound'⟩ := grows_target hsound hv
  obtain ⟨none, hloads, hnone⟩ := hgrows.loads
  obtain rfl := List.forall₂_nil_right_iff.mp hnone
  refine ⟨⟨hgrows.slots, ⟨[], hloads, .nil⟩, hgrows.stores, ?_, ?_⟩, hsound'⟩
  · rw [Draft.pendingOf, hgrows.pending]
    rfl
  · rw [Draft.pendingOf, hgrows.pending]
    rfl

/-- A `=` that has nothing to take away only counts as one. -/
theorem fills_idle (hpending : d.pending = []) (hloads : d.loads = []) : Fills d d.assign [] [] := by
  have hassign : d.assign = { d with
      wantsOperand := true, assignments := d.assignments + 1 } := by
    simp [Draft.assign, hpending, hloads]
  rw [hassign]
  exact ⟨List.prefix_refl _, ⟨[], rfl, .nil⟩, ⟨[], rfl, .nil⟩, rfl, rfl⟩

theorem fills_other {l : Lexeme} (hname : ∀ v, l ≠ .name v)
    (hliteral : ∀ text z isPair, l ≠ .literal text z isPair) (hl : l ≠ .operator .assign) :
    Fills d (d.take l) [] [] ∧ (d.take l).slots = d.slots := by
  have htables : (d.take l).slots = d.slots ∧ (d.take l).loads = d.loads ∧
      (d.take l).stores = d.stores := by
    cases l with
    | name v => exact absurd rfl (hname v)
    | literal text z isPair => exact absurd rfl (hliteral text z isPair)
    | operator o =>
      cases o with
      | assign => exact absurd rfl hl
      | comma | minus =>
        unfold Draft.take Draft.operator
        dsimp only
        split <;> exact ⟨rfl, rfl, rfl⟩
      | modulus =>
        show d.modulus.slots = _ ∧ _
        unfold Draft.take Draft.operator Draft.modulus
        split <;> exact ⟨rfl, rfl, rfl⟩
      | _ => exact ⟨rfl, rfl, rfl⟩
    | flow w => cases w <;> exact ⟨rfl, rfl, rfl⟩
    | _ => exact ⟨rfl, rfl, rfl⟩
  refine ⟨.of_other hl htables fun op hop => ?_, htables.1⟩
  have hall : (Pending.outputs (l.queued d)).all (fun op => op != .load && op != .store) = true := by
    cases l with
    | name v => exact absurd rfl (hname v)
    | literal text z isPair => exact absurd rfl (hliteral text z isPair)
    | flow w => cases w <;> rfl
    | operator o =>
      cases o with
      | assign => exact absurd rfl hl
      | comma | minus | modulus =>
        unfold Lexeme.queued
        dsimp only
        split <;> rfl
      | _ => rfl
    | _ => rfl
  have hboth := List.all_eq_true.mp hall op hop
  simpa using hboth

/-- The names of the slots go on telling what the slots hold. -/
theorem sound_take {l : Lexeme} {known : List String} (hspelled : l.Spelled)
    (hsound : Sound d.slots known) : ∃ known', Sound (d.take l).slots known' := by
  by_cases hassign : l = .operator .assign
  · subst hassign
    exact ⟨known, hsound⟩
  cases l with
  | name v => exact ⟨known, (fills_name hsound hspelled false).2⟩
  | literal text z isPair => exact (fills_literal hsound hspelled id).2
  | _ =>
    refine ⟨known, ?_⟩
    rw [(fills_other (by simp) (by simp) hassign).2]
    exact hsound

theorem sound_takeAll {ls : List Lexeme} {known : List String} (hspelled : ∀ l ∈ ls, l.Spelled)
    (hsound : Sound d.slots known) : ∃ known', Sound (d.takeAll ls).slots known' := by
  induction ls generalizing d known with
  | nil => exact ⟨known, hsound⟩
  | cons l ls ih =>
    obtain ⟨known', hsound'⟩ := sound_take (hspelled l List.mem_cons_self) hsound
    exact ih (fun k hk => hspelled k (List.mem_cons_of_mem l hk)) hsound'

/-- A slot that a draft has given is never taken back. -/
theorem slots_prefix_take (d : Draft) (l : Lexeme) : d.slots <+: (d.take l).slots := by
  by_cases hname : ∃ v, l = .name v
  · obtain ⟨v, rfl⟩ := hname
    match d.take (.name v), nameTaken d v with
    | _, .known _ => exact List.prefix_refl _
    | _, .fresh _ => exact List.prefix_append _ _
  by_cases hliteral : ∃ text z isPair, l = .literal text z isPair
  · obtain ⟨text, z, isPair, rfl⟩ := hliteral
    match isPair, d.take (.literal text z isPair), literalTaken d text z isPair with
    | _, _, .known _ => exact List.prefix_refl _
    | _, _, .plain .. | _, _, .signed .. => exact List.prefix_append _ _
  by_cases hassign : l = .operator .assign
  · subst hassign
    exact List.prefix_refl _
  · have hsame := (fills_other (d := d) (fun v hv => hname ⟨v, hv⟩)
      (fun text z isPair hl => hliteral ⟨text, z, isPair, hl⟩) hassign).2
    exact hsame ▸ List.prefix_refl _

theorem slots_prefix_takeAll (ls : List Lexeme) : ∀ d : Draft, d.slots <+: (d.takeAll ls).slots := by
  induction ls with
  | nil => exact fun d => List.prefix_refl _
  | cons l ls ih => exact fun d => (slots_prefix_take d l).trans (ih (d.take l))

/-! ## Whole bodies -/

/-- The posture is that of the draft. -/
structure Stands (p : Lexeme.Posture) (d : Draft) : Prop where
  wants : d.wantsOperand = p.wants
  signed : d.signed = true → p.signed = true

/-- Only a negation that was queued last waits for a literal. -/
theorem not_signed {o : Opcode} {prec : Int} {ps : List (Pending Opcode)}
    (hp : d.pending = ⟨some o, prec⟩ :: ps) (ho : (o == .neg) = false) : ¬ d.signed = true := by
  intro hsigned
  obtain ⟨prec', rest, hpending⟩ := Draft.signed_iff.mp hsigned
  rw [hp] at hpending
  cases hpending
  cases ho

namespace Stands

variable {p : Lexeme.Posture}

theorem wants_take (h : Stands p d) (l : Lexeme) : (d.take l).wantsOperand = (p.after l).wants := by
  have hwants : d.footing.wantsOperand = p.wants := h.wants
  rw [wantsOperand_take]
  cases l with
  | operator o =>
    cases o with
    | comma =>
      unfold Footing.after Lexeme.Posture.after
      dsimp only
      rw [hwants]
      split
      · exact hwants
      · rfl
    | modulus =>
      unfold Footing.after
      dsimp only
      split <;> exact hwants
    | _ => rfl
  | flow | name | literal | call => rfl
  | _ => exact hwants

theorem signed_operator (h : Stands p d) {o : Operator}
    (hsigned : (d.take (.operator o)).signed = true) : (p.after (.operator o)).signed = true := by
  cases o with
  | comma =>
    by_cases hw : d.wantsOperand = true
    · have htake : d.take (.operator .comma) = d := if_pos hw
      have hafter : p.after (.operator .comma) = p := if_pos (h.wants ▸ hw)
      rw [htake] at hsigned
      rw [hafter]
      exact h.signed hsigned
    · have htake : d.take (.operator .comma) = d.endStatement .clear := if_neg hw
      rw [htake] at hsigned
      exact absurd hsigned (not_signed rfl rfl)
  | minus =>
    by_cases hw : d.wantsOperand = true
    · show p.wants = true
      rw [← h.wants, hw]
    · have htake : d.take (.operator .minus) = d.infixOperator .sub 4 := if_neg hw
      rw [htake] at hsigned
      exact absurd hsigned (not_signed rfl rfl)
  | modulus =>
    by_cases hbar : d.bar = d.parens - 1
    · have htake : d.take (.operator .modulus) = _ := if_pos hbar
      rw [htake] at hsigned
      exact h.signed hsigned
    · have htake : d.take (.operator .modulus) = _ := if_neg hbar
      rw [htake] at hsigned
      exact absurd hsigned (not_signed rfl rfl)
  | assign =>
    cases hpending : d.pending with
    | nil =>
      have hno : (d.take (.operator .assign)).pending = [] := by
        show d.assign.pending = []
        rw [Draft.assign, hpending]
      rw [Draft.signed, hno] at hsigned
      cases hsigned
    | cons q rest =>
      have hstore : (d.take (.operator .assign)).pending = ⟨some .store, d.prec 5⟩ :: rest := by
        show d.assign.pending = _
        rw [Draft.assign, hpending]
      exact absurd hsigned (not_signed hstore rfl)
  | _ => exact absurd hsigned (not_signed rfl rfl)

theorem signed_take (h : Stands p d) {l : Lexeme} (hsigned : (d.take l).signed = true) :
    (p.after l).signed = true := by
  cases l with
  | name text => exact absurd hsigned (not_signed (pending_name d text) rfl)
  | literal text value isPair =>
    exact absurd hsigned (not_signed (pending_literal d text value isPair) rfl)
  | call f => exact absurd hsigned (not_signed rfl rfl)
  | flow w => cases w <;> exact absurd hsigned (not_signed rfl rfl)
  | operator o => exact h.signed_operator hsigned
  | _ => exact h.signed hsigned

theorem take (h : Stands p d) (l : Lexeme) : Stands (p.after l) (d.take l) :=
  ⟨h.wants_take l, h.signed_take⟩

end Stands

/-- `Lexeme.Aimed` for the rest of a body: `idle` says that nothing but commas and `=` came before. -/
def AimedAfter (idle : Prop) (ls : List Lexeme) : Prop :=
  ∀ pre post, ls = pre ++ .operator .assign :: post →
    (∃ a v, pre = a ++ [.name v]) ∨ idle ∧ ∀ l ∈ pre, l = .operator .comma ∨ l = .operator .assign

theorem AimedAfter.of_append {idle : Prop} {p q : List Lexeme} (h : AimedAfter idle (p ++ q)) :
    AimedAfter idle p :=
  fun pre post hp => h pre (post ++ q) (by rw [hp, List.append_assoc]; rfl)

theorem AimedAfter.tail {idle : Prop} {l : Lexeme} {ls : List Lexeme} (h : AimedAfter idle (l :: ls))
    (hl : ∀ v, l = .name v → ls.head? ≠ some (.operator .assign)) :
    AimedAfter (idle ∧ (l = .operator .comma ∨ l = .operator .assign)) ls := by
  rintro pre post rfl
  rcases h (l :: pre) post rfl with ⟨a, v, hpre⟩ | ⟨hidle, hall⟩
  · cases a with
    | nil =>
      obtain ⟨rfl, rfl⟩ := List.cons.inj hpre
      exact absurd rfl (hl v rfl)
    | cons b a => exact .inl ⟨a, v, (List.cons.inj hpre).2⟩
  · exact .inr ⟨⟨hidle, hall l List.mem_cons_self⟩, fun k hk => hall k (List.mem_cons_of_mem l hk)⟩

/-- A draft that has read nothing but commas and `=`. -/
structure Idle (d : Draft) : Prop where
  pending : d.pending = []
  loads : d.loads = []
  wantsOperand : d.wantsOperand = true

theorem Idle.take (h : Idle d) {l : Lexeme} (hl : l = .operator .comma ∨ l = .operator .assign) :
    Idle (d.take l) := by
  rcases hl with rfl | rfl
  · rwa [show d.take (.operator .comma) = d from if_pos h.wantsOperand]
  · show Idle d.assign
    rw [Draft.assign, h.pending, h.loads]
    exact ⟨rfl, rfl, rfl⟩

/-- A lexeme on its own, which is not a variable that is assigned to. -/
theorem fills_lexeme {l : Lexeme} {ls : List Lexeme} {p : Lexeme.Posture} {known : List String}
    (hspelled : l.Spelled) (hassign : l = .operator .assign → Idle d)
    (htarget : ∀ v, l = .name v → ls.head? ≠ some (.operator .assign))
    (hsound : Sound d.slots known) (hstands : Stands p d) :
    ∃ os, Fills d (d.take l) os [] ∧ (∃ known', Sound (d.take l).slots known') ∧
      Lexeme.reads p (l :: ls) = os ++ Lexeme.reads (p.after l) ls ∧
      Lexeme.targets (l :: ls) = Lexeme.targets ls := by
  have other (hname : ∀ v, l ≠ .name v) (hliteral : ∀ text z isPair, l ≠ .literal text z isPair)
      (hl : l ≠ .operator .assign) :
      Fills d (d.take l) [] [] ∧ ∃ known', Sound (d.take l).slots known' := by
    obtain ⟨hfills, hslots⟩ := fills_other hname hliteral hl
    exact ⟨hfills, known, hslots ▸ hsound⟩
  cases l with
  | name v =>
    obtain ⟨hfills, hsound'⟩ := fills_name hsound hspelled p.signed
    have hno := htarget v rfl
    refine ⟨_, hfills, ⟨known, hsound'⟩, ?_, ?_⟩
    · rw [Lexeme.reads, if_neg hno]
    · rw [Lexeme.targets, if_neg hno, List.nil_append]
  | literal text z isPair =>
    obtain ⟨hfills, hsound'⟩ := fills_literal hsound hspelled hstands.signed
    exact ⟨_, hfills, hsound', rfl, rfl⟩
  | operator o =>
    by_cases ho : o = .assign
    · subst ho
      have hidle := hassign rfl
      refine ⟨[], fills_idle hidle.pending hidle.loads, ⟨known, ?_⟩, rfl, rfl⟩
      show Sound d.assign.slots known
      rw [Draft.assign, hidle.pending, hidle.loads]
      exact hsound
    · obtain ⟨hfills, hsound'⟩ := other (by simp) (by simp) fun h => ho (Lexeme.operator.inj h)
      exact ⟨[], hfills, hsound', rfl, rfl⟩
  | _ =>
    obtain ⟨hfills, hsound'⟩ := other (by simp) (by simp) (by simp)
    exact ⟨[], hfills, hsound', rfl, rfl⟩

/-- By recursion on the lexemes; a name and the `=` behind it are taken together. -/
theorem fills_takeAll {d : Draft} {ls : List Lexeme} {p : Lexeme.Posture} {known : List String}
    {idle : Prop} (hspelled : ∀ l ∈ ls, l.Spelled) (haimed : AimedAfter idle ls)
    (hidle : idle → Idle d) (hsound : Sound d.slots known) (hstands : Stands p d) :
    Fills d (d.takeAll ls) (Lexeme.reads p ls) (Lexeme.targets ls) := by
  cases ls with
  | nil => exact ⟨List.prefix_refl _, ⟨[], rfl, .nil⟩, ⟨[], rfl, .nil⟩, rfl, rfl⟩
  | cons l ls =>
    by_cases htarget : ∃ v, l = .name v ∧ ls.head? = some (.operator .assign)
    · obtain ⟨v, rfl, hhead⟩ := htarget
      obtain ⟨ls, rfl⟩ := List.head?_eq_some_iff.mp hhead
      obtain ⟨hfills, hsound'⟩ := fills_target hsound (hspelled (.name v) List.mem_cons_self)
      have haimed' : AimedAfter False ls := by
        rintro pre post rfl
        rcases haimed (.name v :: .operator .assign :: pre) post rfl with ⟨a, w, hpre⟩ | ⟨-, hall⟩
        · match a, hpre with
          | _ :: _ :: a, hpre =>
            exact .inl ⟨a, w, (List.cons.inj (List.cons.inj hpre).2).2⟩
        · exact absurd (hall (.name v) List.mem_cons_self) (by simp)
      have hrest := fills_takeAll (fun k hk => hspelled k (by simp [hk])) haimed' False.elim hsound'
        ((hstands.take (.name v)).take (.operator .assign))
      have htargets : Lexeme.targets (.name v :: .operator .assign :: ls) =
          [v] ++ Lexeme.targets ls := rfl
      rw [htargets]
      exact hfills.trans hrest
    · have hno : ∀ v, l = .name v → ls.head? ≠ some (.operator .assign) :=
        fun v hl hhead => htarget ⟨v, hl, hhead⟩
      have hassign : l = .operator .assign → Idle d := by
        rintro rfl
        rcases haimed [] ls rfl with ⟨a, v, hpre⟩ | ⟨hi, -⟩
        · exact absurd hpre (by simp)
        · exact hidle hi
      obtain ⟨os, hfills, ⟨known', hsound'⟩, hreads, htargets⟩ :=
        fills_lexeme (hspelled l List.mem_cons_self) hassign hno hsound hstands
      have hrest := fills_takeAll (fun k hk => hspelled k (List.mem_cons_of_mem l hk))
        (haimed.tail hno) (fun hi => (hidle hi.1).take hi.2) hsound' (hstands.take l)
      rw [hreads, htargets]
      exact hfills.trans hrest
termination_by ls.length

/-- Where no assignment comes without a variable of its own, more lexemes add to the tables. -/
theorem fills_behind {pre post : List Lexeme} (env : Environment)
    (hspelled : ∀ l ∈ pre ++ post, l.Spelled) (haimed : AimedAfter False post) :
    let d := (Draft.start env).takeAll pre
    Fills d (d.takeAll post) (Lexeme.reads ⟨d.wantsOperand, true⟩ post) (Lexeme.targets post) := by
  obtain ⟨known, hsound⟩ := sound_takeAll (d := .start env)
    (fun l hl => hspelled l (List.mem_append_left post hl)) (Sound.start env)
  exact fills_takeAll (fun l hl => hspelled l (List.mem_append_right pre hl)) haimed False.elim
    hsound ⟨rfl, fun _ => rfl⟩

theorem countP_pendingOf (d : Draft) (text : String) (op : Opcode) :
    (d.finish text).code.count op = (d.pendingOf (· == op)).length := by
  rw [List.count, countP_code, Draft.awaiting, List.countP_eq_length_filter]
  rfl

end Compile

/-! ## The tables of a body -/

/-- If every `=` has a variable to its left, every load reads what stands at its place in the text,
and every store has the variable to the left of its `=`. -/
theorem operands_tabulated {text : String} {offset : Nat} {tally : Tally}
    (h : check text offset = .ok tally) (haimed : Lexeme.Aimed (Lexeme.ofBody text offset))
    (env : Environment) :
    let p := compile (Token.body text offset) env
    let ls := Lexeme.ofBody text offset
    p.code.count .load = p.loads.length ∧ p.code.count .store = p.stores.length ∧
      List.Forall₂ (FoundAt p.slots) p.loads (Lexeme.reads {} ls) ∧
      List.Forall₂ (Holds p.slots) p.stores ((Lexeme.targets ls).map .name) ∧
      ∀ i ∈ p.stores, ∃ s, p.slots[i]? = some s ∧ s.kind ≠ .constant := by
  obtain ⟨hbody, hcompile⟩ := body_of_check h
  obtain ⟨formula, hcompile⟩ := hcompile env
  intro p ls
  let d := (Draft.start env).takeAll ls
  have hp : p = d.finish formula := hcompile
  have haimed' : AimedAfter True ls := fun pre post hls =>
    (haimed pre post hls).imp_right fun hall => ⟨trivial, hall⟩
  have hfills : Fills (.start env) d (Lexeme.reads {} ls) (Lexeme.targets ls) :=
    fills_takeAll (p := {}) hbody.spelled haimed' (fun _ => ⟨rfl, rfl, rfl⟩) (Sound.start env)
      ⟨rfl, fun h => Bool.noConfusion h⟩
  obtain ⟨loads, hloads, hreads⟩ := hfills.loads
  obtain ⟨stores, hstores, htargets⟩ := hfills.stores
  have hl : p.loads = loads := by
    rw [hp]
    show d.loads.reverse = loads
    rw [hloads, show (Draft.start env).loads = [] from rfl, List.append_nil, List.reverse_reverse]
  have hs : p.stores = stores := by
    rw [hp]
    show d.stores.reverse = stores
    rw [hstores, show (Draft.start env).stores = [] from rfl, List.append_nil,
      List.reverse_reverse]
  have hslots : p.slots = d.slots := by rw [hp]; rfl
  rw [hl, hs, hslots]
  refine ⟨?_, ?_, hreads, htargets, fun i hi => ?_⟩
  · rw [hp, countP_pendingOf, hfills.loadOps, hreads.length_eq]
    exact Nat.zero_add _
  · rw [hp, countP_pendingOf, hfills.storeOps, htargets.length_eq, List.length_map]
    exact Nat.zero_add _
  · have hboth : List.Forall₂ (fun i v => (∃ s, d.slots[i]? = some s ∧ s.kind ≠ .constant) ∧
        Holds d.slots i (.name v)) stores (Lexeme.targets ls) :=
      (List.forall₂_map_right_iff.mp htargets).imp fun _ _ hheld => ⟨hheld.2, hheld⟩
    exact ((List.forall₂_and_left _ _).mp hboth).1 i hi

theorem operands_tabulated_sum : ∃ text tally, check text 0 = .ok tally ∧
    Lexeme.Aimed (Lexeme.ofBody text 0) ∧
    let p := compile (Token.body text 0) ({} : Settings).environment
    p.code.count .load = p.loads.length ∧ p.code.count .store = p.stores.length ∧
      List.Forall₂ (FoundAt p.slots) p.loads [(false, .name "c"), (false, .name "p1")] ∧
      List.Forall₂ (Holds p.slots) p.stores [.name "z"] := by
  let text := "z=c+p1\x7d"
  have hstream : Token.stream (Cursor.seek text 0) = Token.firstTokens 9 (Cursor.seek text 0) :=
    Token.stream_eq_firstTokens (by decide +kernel)
  have hcheck : (check text 0).toOption.isSome = true := by
    rw [check, hstream]
    decide +kernel
  have hlexemes : Lexeme.ofBody text 0 =
      [.name "z", .operator .assign, .name "c", .operator .plus, .name "p1"] := by
    rw [Lexeme.ofBody, hstream]
    decide +kernel
  have haimed : Lexeme.Aimed (Lexeme.ofBody text 0) := by
    rw [hlexemes]
    exact Lexeme.aimed_assignment "z" (by decide)
  cases h : check text 0 with
  | error e =>
    rw [h] at hcheck
    cases hcheck
  | ok tally =>
    obtain ⟨hloads, hstores, hreads, htargets, -⟩ :=
      operands_tabulated h haimed ({} : Settings).environment
    rw [hlexemes] at hreads htargets
    exact ⟨text, tally, h, haimed, hloads, hstores, hreads, htargets⟩

/-- A `=` after a comma takes the number before that comma away from its load. -/
theorem exists_stray_store : ∃ text tally, check text 0 = .ok tally ∧
    let p := compile (Token.body text 0) ({} : Settings).environment
    p.code.count .load ≠ p.loads.length ∧
      ∃ i ∈ p.stores, ∃ s, p.slots[i]? = some s ∧ s.kind = .constant := by
  let text := "z=1,=5\x7d"
  have hstream : Token.stream (Cursor.seek text 0) = Token.firstTokens 9 (Cursor.seek text 0) :=
    Token.stream_eq_firstTokens (by decide +kernel)
  have hcheck : (check text 0).toOption.isSome = true := by
    rw [check, hstream]
    decide +kernel
  cases h : check text 0 with
  | error e =>
    rw [h] at hcheck
    cases hcheck
  | ok tally =>
    refine ⟨text, tally, h, ?_⟩
    dsimp only
    rw [Token.body, hstream]
    refine ⟨by decide +kernel, 19, by decide +kernel, ?_⟩
    exact Option.map_eq_some_iff.mp (show _ = some SlotKind.constant by decide +kernel)

end FractalFormula
