/-
What is below does not matter.

A lexeme takes away at most what was queued last.  So what lexemes queue and load on their own is what
they put on top of anything (`Compile.take_onTop`), and of a list of operators a part that binds
tighter than what it stands between is emitted in one piece (`Pending.linearize_replace`).
-/
import FractalFormula.Proofs.Footing

namespace FractalFormula

open Compile

namespace Pending

variable {α : Type}

/-- Whatever comes after `xs`, the same is emitted first, and the last of `xs` waits in front. -/
theorem exists_waiting (xs : List (Pending α)) : ∀ w : List (Pending α), ∃ out waiting,
    (∀ ys, emit w (xs ++ ys) = out ++ emit waiting ys) ∧
      waiting.head? = xs.getLast?.or w.head? := by
  induction xs with
  | nil => exact fun w => ⟨[], w, fun _ => rfl, rfl⟩
  | cons p xs ih =>
    intro w
    obtain ⟨out, waiting, hemit, hhead⟩ := ih (p :: w.dropWhile (·.prec ≤ p.prec))
    refine ⟨outputs (w.takeWhile (·.prec ≤ p.prec)) ++ out, waiting, fun ys => ?_, ?_⟩
    · rw [List.cons_append, emit, hemit, List.append_assoc]
      rfl
    · rw [hhead, List.getLast?_cons]
      cases xs.getLast? <;> rfl

/-- Behind these operators, others of precedence `m` at most are emitted on their own: the last of
these binds less tight, or it is a marker that ends all the waiting of those before it and waits for
nothing itself. -/
def Yields (low m : Int) (ps : List (Pending α)) : Prop :=
  (∀ b ∈ ps.getLast?, m < b.prec) ∨
    ∃ xs op c k, ps = xs ++ [⟨none, c⟩, ⟨some op, k⟩] ∧ (∀ p ∈ xs, p.prec ≤ c) ∧ k ≤ low

/-- A part that binds tighter than what it stands between is emitted in one piece, and what is
emitted around it does not depend on it. -/
theorem linearize_replace {low m : Int} {ps ys : List (Pending α)} (hps : Yields low m ps)
    (hys : ∀ b ∈ ys.head?, m ≤ b.prec) :
    ∃ before after, ∀ xs, xs ≠ [] → (∀ x ∈ xs, x.prec ≤ m) → (∀ x ∈ xs.head?, low ≤ x.prec) →
      linearize (ps ++ xs ++ ys) = before ++ linearize xs ++ after := by
  have within {xs : List (Pending α)} (hxs : ∀ x ∈ xs, x.prec ≤ m) : Within xs ys :=
    fun x hx b hb => Int.le_trans (hxs x hx) (hys b hb)
  rcases hps with hlast | ⟨us, op, c, k, rfl, hus, hk⟩
  · obtain ⟨out, waiting, hemit, hhead⟩ := exists_waiting ps []
    refine ⟨out, emit waiting ys, fun xs _ hxs _ => ?_⟩
    have hbelow : Below xs waiting := by
      intro x hx b hb
      rw [hhead] at hb
      have hb : b ∈ ps.getLast? := by simpa using hb
      exact Int.lt_of_le_of_lt (hxs x hx) (hlast b hb)
    rw [linearize, List.append_assoc, hemit, emit_piece hbelow (within hxs), List.append_assoc]
  · refine ⟨linearize us ++ [op], linearize ys, fun xs hne hxs hlow => ?_⟩
    have hmarker : Within [(⟨some op, k⟩ : Pending α)] (xs ++ ys) := by
      intro x hx b hb
      obtain rfl := List.mem_singleton.mp hx
      rw [List.head?_append_of_ne_nil _ hne] at hb
      exact Int.le_trans hk (hlow b hb)
    have hcut : Within us ([(⟨none, c⟩ : Pending α), ⟨some op, k⟩] ++ (xs ++ ys)) := by
      intro x hx b hb
      obtain rfl := Option.some.inj hb
      exact hus x hx
    rw [List.append_assoc, List.append_assoc, linearize_append hcut]
    show _ ++ linearize (⟨none, c⟩ :: ([⟨some op, k⟩] ++ (xs ++ ys))) = _
    rw [linearize_none_cons, linearize_append hmarker, linearize_append (within hxs)]
    simp only [List.append_assoc]
    rfl

end Pending

namespace Compile

/-- The draft with other operators and loads below its own. -/
def Draft.onTop (d : Draft) (pending : List (Pending Opcode)) (loads : List Nat) : Draft :=
  { d with pending := d.pending ++ pending, loads := d.loads ++ loads }

/-- The draft without what is pending and what has been loaded. -/
def Draft.bare (d : Draft) : Draft :=
  { d with pending := [], loads := [] }

variable {d : Draft} {below : List (Pending Opcode)} {loads : List Nat}

theorem signed_onTop (h : d.pending ≠ []) : (d.onTop below loads).signed = d.signed := by
  unfold Draft.signed Draft.onTop
  dsimp only
  match d.pending, h with
  | ⟨none, _⟩ :: _, _ => rfl
  | ⟨some op, _⟩ :: _, _ => cases op <;> rfl

theorem literalSlot_onTop {text : String} {value : Complex Float}
    (h : d.pending = [] → (d.onTop below loads).signed = false) :
    (d.onTop below loads).literalSlot text value =
      ((d.literalSlot text value).1, (d.literalSlot text value).2.onTop below loads) := by
  have plain {d : Draft} (hsigned : d.signed = false) : d.literalSlot text value =
      (d.slots.length, { d with slots := d.slots ++ [⟨text, .constant, value⟩] }) := by
    unfold Draft.literalSlot
    split
    · rename_i hpending
      exact absurd (Draft.signed_iff.mpr ⟨_, _, hpending⟩) (Bool.eq_false_iff.mp hsigned)
    · rfl
  cases hsigned : d.signed with
  | true =>
    obtain ⟨prec, rest, hpending⟩ := Draft.signed_iff.mp hsigned
    have htop : (d.onTop below loads).pending = ⟨some .neg, prec⟩ :: (rest ++ below) := by
      show d.pending ++ below = _
      rw [hpending]
      rfl
    unfold Draft.literalSlot
    rw [htop, hpending]
    rfl
  | false =>
    have htop : (d.onTop below loads).signed = false := by
      by_cases hpending : d.pending = []
      · exact h hpending
      · rw [signed_onTop hpending, hsigned]
    rw [plain hsigned, plain htop]
    rfl

theorem variableSlot_onTop (d : Draft) (text : String) :
    (d.onTop below loads).variableSlot text =
      ((d.variableSlot text).1, (d.variableSlot text).2.onTop below loads) := by
  have htop : (d.onTop below loads).slots = d.slots := rfl
  unfold Draft.variableSlot
  rw [htop]
  cases d.slots.findIdx? (Text.sameName ·.name text) <;> rfl

theorem useVariable_onTop (d : Draft) (text : String) :
    (d.onTop below loads).useVariable text = (d.useVariable text).onTop below loads := by
  have hload (w : Draft) : ((w.onTop below loads).variableSlot text).2.load
      ((w.onTop below loads).variableSlot text).1 1 =
        ((w.variableSlot text).2.load (w.variableSlot text).1 1).onTop below loads := by
    rw [variableSlot_onTop]
    rfl
  unfold Draft.useVariable
  cases Builtin.find? text with
  | none => exact hload { d with wantsOperand := false }
  | some v => exact hload { d with wantsOperand := false, usage := d.usage.noteVariable v }

/-- A literal with a slot of its own. -/
theorem loadLiteral_onTop {text : String} {value : Complex Float}
    (h : d.pending = [] → (d.onTop below loads).signed = false) (base : Int) :
    loadLiteral (d.onTop below loads) text value base =
      (loadLiteral d text value base).onTop below loads := by
  let w : Draft := { d with wantsOperand := false }
  have hslot : (w.onTop below loads).literalSlot text value =
      ((w.literalSlot text value).1, (w.literalSlot text value).2.onTop below loads) :=
    literalSlot_onTop h
  show ((w.onTop below loads).literalSlot text value).2.load
    ((w.onTop below loads).literalSlot text value).1 base = _
  rw [hslot]
  rfl

theorem number_onTop {text : String} {value : Float}
    (h : d.slots.findIdx? (·.name == text) = none → d.pending = [] →
      (d.onTop below loads).signed = false) :
    (d.onTop below loads).number text value = (d.number text value).onTop below loads := by
  have htop : (d.onTop below loads).slots = d.slots := rfl
  unfold Draft.number
  dsimp only
  rw [htop]
  cases hfind : d.slots.findIdx? (·.name == text) with
  | some i => rfl
  | none => exact loadLiteral_onTop (h hfind) 1

theorem operator_onTop {o : Operator} (h : o = .assign → d.pending ≠ [] ∧ d.loads ≠ []) :
    (d.onTop below loads).operator o = (d.operator o).onTop below loads := by
  cases o with
  | comma =>
    show _ = (if d.wantsOperand then d else d.endStatement .clear).onTop below loads
    rw [apply_ite (Draft.onTop · below loads)]
    rfl
  | minus =>
    show _ = (if d.wantsOperand then d.push .neg 2 else d.infixOperator .sub 4).onTop below loads
    rw [apply_ite (Draft.onTop · below loads)]
    rfl
  | modulus =>
    show _ = d.modulus.onTop below loads
    unfold Draft.modulus
    rw [apply_ite (Draft.onTop · below loads)]
    rfl
  | assign =>
    obtain ⟨hpending, hloads⟩ := h rfl
    show (d.onTop below loads).assign = d.assign.onTop below loads
    obtain ⟨p, ps, hp⟩ := List.exists_cons_of_ne_nil hpending
    obtain ⟨i, is, hi⟩ := List.exists_cons_of_ne_nil hloads
    simp only [Draft.assign, Draft.onTop, hp, hi]
    rfl
  | _ => rfl

/-- A lexeme that takes away nothing that is below. -/
theorem take_onTop {l : Lexeme}
    (hsign : d.pending = [] → l.takesSign (d.onTop below loads) = false)
    (hassign : l = .operator .assign → d.pending ≠ [] ∧ d.loads ≠ []) :
    (d.onTop below loads).take l = (d.take l).onTop below loads := by
  cases l with
  | name text => exact useVariable_onTop d text
  | literal text value isPair =>
    cases isPair with
    | true => exact loadLiteral_onTop hsign (1 - level)
    | false =>
      refine number_onTop fun hfind hpending => ?_
      have htop : (d.onTop below loads).slots.findIdx? (·.name == text) = none := hfind
      have hno := hsign hpending
      unfold Lexeme.takesSign at hno
      dsimp only at hno
      rwa [htop] at hno
  | flow w => cases w <;> rfl
  | operator o => exact operator_onTop fun h => hassign (congrArg _ h)
  | _ => rfl

/-- What is below something stays below something. -/
theorem pending_take_above {above : List (Pending Opcode)} (h : d.pending = above ++ below)
    (hne : above ≠ []) (l : Lexeme) :
    ∃ above', (d.take l).pending = above' ++ below ∧ above' ≠ [] := by
  have htail : d.pending.tail = above.tail ++ below := by rw [h, List.tail_append_of_ne_nil hne]
  rw [pending_take]
  by_cases hassign : l = .operator .assign
  · subst hassign
    refine ⟨⟨some .store, d.prec 5⟩ :: above.tail, ?_, by simp⟩
    simp [Lexeme.queued, Lexeme.kept, h, hne]
  · rw [kept_of_ne hassign]
    by_cases hsign : l.takesSign d = true
    · rw [if_pos hsign, htail]
      refine ⟨(l.queued d).reverse ++ above.tail, by simp, ?_⟩
      cases l with
      | literal => simp [Lexeme.queued]
      | _ => cases hsign
    · rw [if_neg hsign, h]
      exact ⟨(l.queued d).reverse ++ above, by simp, by simp [hne]⟩

theorem pending_takeAll_above {above : List (Pending Opcode)} (ls : List Lexeme)
    (h : d.pending = above ++ below) (hne : above ≠ []) :
    ∃ above', (d.takeAll ls).pending = above' ++ below ∧ above' ≠ [] := by
  induction ls generalizing d above with
  | nil => exact ⟨above, h, hne⟩
  | cons l ls ih =>
    obtain ⟨above', habove, hne'⟩ := pending_take_above h hne l
    exact ih habove hne'

/-- The end of a statement keeps what is queued before it apart from what comes later. -/
theorem pending_past_separator {l : Lexeme} (ls : List Lexeme)
    (hl : l = .operator .comma ∧ d.wantsOperand = false ∨ l = .operator .colon) :
    ∃ rest,
      ((d.take l).takeAll ls).pending.reverse = d.pending.reverse ++ ⟨none, level⟩ :: rest := by
  have hmarker : ∃ op,
      (d.take l).pending = [⟨some op, separatorPrec⟩] ++ ⟨none, level⟩ :: d.pending := by
    rcases hl with ⟨rfl, hw⟩ | rfl
    · have htake : d.take (.operator .comma) = d.endStatement .clear := if_neg (by simp [hw])
      exact ⟨.clear, by rw [htake]; rfl⟩
    · exact ⟨.endInit, rfl⟩
  obtain ⟨op, hmarker⟩ := hmarker
  obtain ⟨above, habove, -⟩ := pending_takeAll_above ls hmarker (by simp)
  exact ⟨above.reverse, by simp [habove]⟩

theorem pending_take_ne_nil (h : d.pending ≠ []) (l : Lexeme) : (d.take l).pending ≠ [] := by
  have hnone : d.pending = d.pending ++ [] := (List.append_nil _).symm
  obtain ⟨above, habove, hne⟩ := pending_take_above hnone h l
  simpa [habove] using hne

/-- Lexemes that assign nothing take away nothing that is below, if there is no sign below. -/
theorem takeAll_onTop {ls : List Lexeme}
    (h : d.pending = [] → ∀ p ∈ below.head?, p.op ≠ some .neg) (hls : .operator .assign ∉ ls) :
    (d.onTop below loads).takeAll ls = (d.takeAll ls).onTop below loads := by
  induction ls generalizing d with
  | nil => rfl
  | cons l ls ih =>
    have hsign : d.pending = [] → l.takesSign (d.onTop below loads) = false := by
      intro hnil
      refine Bool.eq_false_iff.mpr fun htakes => ?_
      obtain ⟨prec, rest, hhead⟩ := head_of_takesSign htakes
      have hbelow : below = ⟨some .neg, prec⟩ :: rest := by
        have hpending : (d.onTop below loads).pending = d.pending ++ below := rfl
        rw [← hhead, hpending, hnil, List.nil_append]
      exact h hnil ⟨some .neg, prec⟩ (by rw [hbelow]; rfl) rfl
    have htake : (d.onTop below loads).take l = (d.take l).onTop below loads :=
      take_onTop hsign fun hl => absurd (hl ▸ List.mem_cons_self) hls
    rw [Draft.takeAll_cons, Draft.takeAll_cons, htake]
    refine ih (fun hnil => ?_) fun hmem => hls (List.mem_cons_of_mem l hmem)
    by_cases hd : d.pending = []
    · exact h hd
    · exact absurd hnil (pending_take_ne_nil hd l)

end Compile
end FractalFormula
