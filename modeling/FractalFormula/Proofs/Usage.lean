/-
What a program makes use of.

The summary of a program, its tables and its calls are each a matter of the lexemes: the summary
notes every lexeme as it comes (`tells_takeAll`), the tables keep the slot of every name whatever
becomes of its load (`touches_takeAll`), and no call is lost to an assignment, because a call that
is pending last still waits for its operand (`CallWaits`).  So the summary tells what the tables and
the code hold (`usage_exact`).
-/
import FractalFormula.Proofs.Operands

namespace FractalFormula

open Compile

/-! ## The summary -/

/-- A use of the variable is part of the summary. -/
def Builtin.isSummed (v : Builtin) : Bool :=
  v.isParameter || v == .rand

/-- `n` is the highest number of a parameter among the functions with `P`, or zero. -/
structure Func.Highest (P : Func → Prop) (n : Nat) : Prop where
  lt : ∀ f m, P f → f.parameter? = some m → m < n
  reached : n = 0 ∨ ∃ f m, P f ∧ f.parameter? = some m ∧ n = m + 1

theorem Func.Highest.of_iff {P Q : Func → Prop} {n : Nat} (h : Highest P n) (hPQ : ∀ f, P f ↔ Q f) :
    Highest Q n := by
  have : P = Q := funext fun f => propext (hPQ f)
  exact this ▸ h

namespace Usage

/-- What the summary tells of a variable. -/
def flag (u : Usage) : Builtin → Bool
  | .p1 => u.p1
  | .p2 => u.p2
  | .p3 => u.p3
  | .p4 => u.p4
  | .p5 => u.p5
  | .isMand => u.isMand
  | .rand => u.rand
  | _ => false

/-- What a lexeme adds to the summary. -/
def note (u : Usage) : Lexeme → Usage
  | .name text =>
    match Builtin.find? text with
    | some v => u.noteVariable v
    | none => u
  | .call f => u.noteCall f
  | .flow _ => { u with jumps := true }
  | _ => u

theorem flag_noteVariable (u : Usage) (w v : Builtin) :
    (u.noteVariable w).flag v = (u.flag v || w == v && v.isSummed) := by
  cases w <;> cases v <;> simp [noteVariable, flag, Builtin.isSummed, Builtin.isParameter]

theorem note_name (u : Usage) (text : String) :
    (u.note (.name text)).maxFn = u.maxFn ∧ (u.note (.name text)).jumps = u.jumps := by
  unfold note
  dsimp only
  split
  · rename_i v _
    cases v <;> exact ⟨rfl, rfl⟩
  · exact ⟨rfl, rfl⟩

theorem note_call (u : Usage) (f : Func) :
    (∀ v, (u.note (.call f)).flag v = u.flag v) ∧ (u.note (.call f)).jumps = u.jumps := by
  show (∀ v, (u.noteCall f).flag v = u.flag v) ∧ (u.noteCall f).jumps = u.jumps
  unfold noteCall
  split
  · exact ⟨fun v => by cases v <;> rfl, rfl⟩
  · exact ⟨fun _ => rfl, rfl⟩

/-- The summary of a formula that consists of the lexemes. -/
structure Tells (u : Usage) (ls : List Lexeme) : Prop where
  flag : ∀ v, u.flag v = true ↔
    v.isSummed = true ∧ ∃ text, .name text ∈ ls ∧ Builtin.find? text = some v
  maxFn : Func.Highest (fun f => .call f ∈ ls) u.maxFn
  jumps : u.jumps = true ↔ ∃ w, .flow w ∈ ls

namespace Tells

variable {u : Usage} {ls : List Lexeme}

theorem nil : Tells {} [] := by
  refine ⟨fun v => ?_, ⟨fun f m hf => absurd hf (List.not_mem_nil), .inl rfl⟩, ?_⟩
  · have hflag : (({} : Usage).flag v) = false := by cases v <;> rfl
    simp [hflag]
  · simp

theorem flag_note (h : u.Tells ls) (l : Lexeme) (v : Builtin) : (u.note l).flag v = true ↔
    v.isSummed = true ∧ ∃ text, .name text ∈ ls ++ [l] ∧ Builtin.find? text = some v := by
  have hsplit : (∃ text, .name text ∈ ls ++ [l] ∧ Builtin.find? text = some v) ↔
      (∃ text, .name text ∈ ls ∧ Builtin.find? text = some v) ∨
        ∃ text, .name text = l ∧ Builtin.find? text = some v := by
    simp only [List.mem_append, List.mem_singleton, or_and_right, exists_or]
  rw [hsplit, and_or_left, ← h.flag v]
  cases l with
  | name text =>
    have hname : (∃ text', Lexeme.name text' = .name text ∧ Builtin.find? text' = some v) ↔
        Builtin.find? text = some v := by simp
    rw [hname]
    cases hfind : Builtin.find? text with
    | none => simp [note, hfind]
    | some w => simp [note, hfind, flag_noteVariable, and_comm]
  | call f => simp [(u.note_call f).1 v]
  | flow w =>
    have hflag : (u.note (.flow w)).flag v = u.flag v := by cases v <;> rfl
    simp [hflag]
  | _ => simp [note]

theorem highest_noteCall {P : Func → Prop} (h : Func.Highest P u.maxFn) (f : Func) :
    Func.Highest (fun g => P g ∨ g = f) (u.noteCall f).maxFn := by
  unfold noteCall
  cases hf : f.parameter? with
  | none =>
    refine ⟨fun g m hg hm => ?_, h.reached.imp_right fun ⟨g, m, hg, hm⟩ => ⟨g, m, .inl hg, hm⟩⟩
    rcases hg with hg | rfl
    · exact h.lt g m hg hm
    · rw [hf] at hm
      cases hm
  | some n =>
    show Func.Highest _ (max u.maxFn (n + 1))
    refine ⟨fun g m hg hm => ?_, ?_⟩
    · rcases hg with hg | rfl
      · exact Nat.lt_of_lt_of_le (h.lt g m hg hm) (Nat.le_max_left _ _)
      · obtain rfl := Option.some.inj (hf.symm.trans hm)
        exact Nat.le_max_right _ _
    · rcases Nat.le_total u.maxFn (n + 1) with hle | hle
      · exact .inr ⟨f, n, .inr rfl, hf, Nat.max_eq_right hle⟩
      · rw [Nat.max_eq_left hle]
        exact h.reached.imp_right fun ⟨g, m, hg, hm⟩ => ⟨g, m, .inl hg, hm⟩

theorem maxFn_note (h : u.Tells ls) (l : Lexeme) :
    Func.Highest (fun f => .call f ∈ ls ++ [l]) (u.note l).maxFn := by
  have other (hl : ∀ f, l ≠ .call f) (hmax : (u.note l).maxFn = u.maxFn) :
      Func.Highest (fun f => .call f ∈ ls ++ [l]) (u.note l).maxFn := by
    rw [hmax]
    refine h.maxFn.of_iff fun f => ?_
    rw [List.mem_append, List.mem_singleton, or_iff_left (hl f).symm]
  cases l with
  | call f =>
    refine (highest_noteCall h.maxFn f).of_iff fun g => ?_
    rw [List.mem_append, List.mem_singleton, Lexeme.call.injEq]
  | name text => exact other (fun _ => nofun) (u.note_name text).1
  | _ => exact other (fun _ => nofun) rfl

theorem jumps_note (h : u.Tells ls) (l : Lexeme) :
    (u.note l).jumps = true ↔ ∃ w, .flow w ∈ ls ++ [l] := by
  simp only [List.mem_append, List.mem_singleton, exists_or]
  rw [← h.jumps]
  cases l with
  | flow w => exact iff_of_true rfl (.inr ⟨w, rfl⟩)
  | name text => simp [(u.note_name text).2]
  | call f => simp [(u.note_call f).2]
  | _ => simp [note]

/-- One lexeme more. -/
theorem note (h : u.Tells ls) (l : Lexeme) : (u.note l).Tells (ls ++ [l]) :=
  ⟨h.flag_note l, h.maxFn_note l, h.jumps_note l⟩

end Tells
end Usage

namespace Compile

theorem usage_take (d : Draft) (l : Lexeme) : (d.take l).usage = d.usage.note l := by
  cases l with
  | name text =>
    match d.take (.name text), nameTaken d text with
    | _, .known _ | _, .fresh _ => rfl
  | literal text z isPair =>
    match isPair, d.take (.literal text z isPair), literalTaken d text z isPair with
    | _, _, .known _ | _, _, .plain .. | _, _, .signed .. => rfl
  | flow w => cases w <;> rfl
  | operator o =>
    cases o with
    | comma | minus =>
      unfold Draft.take Draft.operator
      dsimp only
      split <;> rfl
    | modulus =>
      show d.modulus.usage = _
      unfold Draft.modulus
      split <;> rfl
    | _ => rfl
  | _ => rfl

theorem tells_takeAll (ls : List Lexeme) : ∀ {d : Draft} {pre : List Lexeme},
    d.usage.Tells pre → (d.takeAll ls).usage.Tells (pre ++ ls) := by
  induction ls with
  | nil =>
    intro d pre h
    rwa [List.append_nil]
  | cons l ls ih =>
    intro d pre h
    have hl : (d.take l).usage.Tells (pre ++ [l]) := by
      rw [usage_take]
      exact h.note l
    rw [List.append_cons]
    exact ih hl

/-! ## The tables -/

/-- A load or a store of the draft has slot `i`. -/
def Draft.Touches (d : Draft) (i : Nat) : Prop :=
  i ∈ d.loads ∨ i ∈ d.stores

theorem getElem?_builtin {env : Environment} {slots : List Slot}
    (h : Draft.builtinSlots env <+: slots) (v : Builtin) :
    slots[v.slot]? = some ⟨v.name, .predefined, env.value v⟩ := by
  obtain ⟨extra, rfl⟩ := h
  refine getElem?_append ?_ extra
  rw [Draft.builtinSlots, List.getElem?_map, v.all_getElem_slot]
  rfl

theorem slot_eq_of_getElem? {i : Nat} {v : Builtin} (h : Builtin.all[i]? = some v) :
    i = v.slot := by
  obtain ⟨hi, rfl⟩ := List.getElem?_eq_some_iff.mp h
  exact (List.Nodup.idxOf_getElem (by decide) i hi).symm

/-- A name leads to the slot of a variable if it is the name of that variable. -/
theorem findIdx?_eq_slot_iff {env : Environment} {slots : List Slot}
    (h : Draft.builtinSlots env <+: slots) (text : String) (v : Builtin) :
    slots.findIdx? (Text.sameName ·.name text) = some v.slot ↔ Builtin.find? text = some v := by
  obtain ⟨extra, rfl⟩ := h
  have hfind : Builtin.find? text =
      (Builtin.all.findIdx? (Text.sameName ·.name text)).bind (Builtin.all[·]?) :=
    List.find?_eq_bind_findIdx?_getElem?
  have hslots : (Draft.builtinSlots env).findIdx? (Text.sameName ·.name text) =
      Builtin.all.findIdx? (Text.sameName ·.name text) := List.findIdx?_map
  have hlength : (Draft.builtinSlots env).length = Builtin.all.length := List.length_map _
  rw [List.findIdx?_append, hslots, hfind, hlength]
  cases Builtin.all.findIdx? (Text.sameName ·.name text) with
  | some i =>
    show some i = some v.slot ↔ Builtin.all[i]? = some v
    refine ⟨fun hi => ?_, fun hi => congrArg some (slot_eq_of_getElem? hi)⟩
    rw [Option.some.inj hi, v.all_getElem_slot]
  | none =>
    refine iff_of_false (fun hi => ?_) nofun
    obtain ⟨i, -, hi⟩ := Option.map_eq_some_iff.mp hi
    have := v.slot_lt
    omega

/-- What an assignment takes from the loads goes to the stores. -/
theorem touches_assign (d : Draft) (i : Nat) : d.assign.Touches i ↔ d.Touches i := by
  unfold Draft.Touches Draft.assign
  cases d.loads with
  | nil => exact Iff.rfl
  | cons slot rest =>
    simp only [List.mem_cons]
    exact or_left_comm.trans (or_assoc.symm)

/-- What is loaded in addition. -/
theorem Fills.touches {d d' : Draft} {os : List (Bool × Operand)} (h : Fills d d' os []) :
    ∃ idx, List.Forall₂ (FoundAt d'.slots) idx os ∧
      ∀ i, d'.Touches i ↔ d.Touches i ∨ i ∈ idx := by
  obtain ⟨idx, hloads, hfound⟩ := h.loads
  obtain ⟨stores, hstores, hnone⟩ := h.stores
  obtain rfl := List.forall₂_nil_right_iff.mp hnone
  refine ⟨idx, hfound, fun i => ?_⟩
  rw [Draft.Touches, Draft.Touches, hloads, hstores, List.mem_append, List.mem_reverse]
  exact or_assoc.trans or_comm

/-- What a lexeme loads is loaded or stored from then on. -/
theorem touches_take {env : Environment} {d : Draft} {known : List String} {l : Lexeme}
    (hslots : Draft.builtinSlots env <+: d.slots) (hsound : Sound d.slots known) (hl : l.Spelled)
    (v : Builtin) : (d.take l).Touches v.slot ↔
      d.Touches v.slot ∨ ∃ text, .name text = l ∧ Builtin.find? text = some v := by
  have hslots' : Draft.builtinSlots env <+: (d.take l).slots := hslots.trans (slots_prefix_take d l)
  have operand {o : Bool × Operand} (hfills : Fills d (d.take l) [o] []) :
      ∃ i, FoundAt (d.take l).slots i o ∧
        ((d.take l).Touches v.slot ↔ d.Touches v.slot ∨ i = v.slot) := by
    obtain ⟨idx, hfound, htouches⟩ := hfills.touches
    obtain ⟨i, is, hi, his, rfl⟩ := List.forall₂_cons_right_iff.mp hfound
    obtain rfl := List.forall₂_nil_right_iff.mp his
    refine ⟨i, hi, ?_⟩
    rw [htouches, List.mem_singleton, eq_comm (a := v.slot)]
  have other (hname : ∀ text, l ≠ .name text)
      (h : (d.take l).Touches v.slot ↔ d.Touches v.slot) : (d.take l).Touches v.slot ↔
        d.Touches v.slot ∨ ∃ text, .name text = l ∧ Builtin.find? text = some v :=
    h.trans (or_iff_left fun ⟨text, htext, _⟩ => hname text htext.symm).symm
  have unread (hname : ∀ text, l ≠ .name text)
      (hliteral : ∀ text z isPair, l ≠ .literal text z isPair) (hassign : l ≠ .operator .assign) :
      (d.take l).Touches v.slot ↔ d.Touches v.slot := by
    obtain ⟨idx, hnone, htouches⟩ := (fills_other (d := d) hname hliteral hassign).1.touches
    obtain rfl := List.forall₂_nil_right_iff.mp hnone
    exact (htouches v.slot).trans (or_iff_left List.not_mem_nil)
  cases l with
  | name text =>
    obtain ⟨i, hi, htouches⟩ := operand (fills_name hsound hl false).1
    have hfind : (d.take (.name text)).slots.findIdx? (Text.sameName ·.name text) = some i := hi.1
    rw [htouches, ← Option.some_inj, ← hfind, findIdx?_eq_slot_iff hslots']
    simp
  | literal text z isPair =>
    obtain ⟨i, hi, htouches⟩ := operand (fills_literal hsound hl fun _ => rfl).1
    refine other (fun _ => nofun) (htouches.trans (or_iff_left ?_))
    rintro rfl
    -- a literal has a slot of its own, and the slots of variables come before those
    have literal {name : String} {value : Complex Float}
        (h : (d.take (.literal text z isPair)).slots[v.slot]? = some ⟨name, .constant, value⟩) :
        False :=
      SlotKind.noConfusion
        (congrArg Slot.kind (Option.some.inj ((getElem?_builtin hslots' v).symm.trans h)))
    exact hi.elim literal fun h => literal h.2
  | operator o =>
    refine other (fun _ => nofun) ?_
    by_cases ho : o = .assign
    · subst ho
      exact touches_assign d v.slot
    · exact unread nofun nofun fun h => ho (Lexeme.operator.inj h)
  | _ => exact other (fun _ => nofun) (unread nofun nofun nofun)

theorem touches_takeAll {env : Environment} {ls : List Lexeme} (v : Builtin) :
    ∀ {d : Draft} {known : List String}, Draft.builtinSlots env <+: d.slots → Sound d.slots known →
      (∀ l ∈ ls, l.Spelled) → ((d.takeAll ls).Touches v.slot ↔
        d.Touches v.slot ∨ ∃ text, .name text ∈ ls ∧ Builtin.find? text = some v) := by
  induction ls with
  | nil => intro d known _ _ _; simp [Draft.takeAll]
  | cons l ls ih =>
    intro d known hslots hsound hspelled
    have hl := hspelled l List.mem_cons_self
    obtain ⟨known', hsound'⟩ := sound_take hl hsound
    have hrest := ih (hslots.trans (slots_prefix_take d l)) hsound'
      fun k hk => hspelled k (List.mem_cons_of_mem l hk)
    rw [Draft.takeAll_cons, hrest, touches_take hslots hsound hl, or_assoc]
    simp only [List.mem_cons, or_and_right, exists_or]

/-! ## Calls -/

/-- A call that is pending last waits for its operand, so no assignment can follow it at once. -/
def CallWaits (t : Check.Stance) (d : Draft) : Prop :=
  ∀ q ∈ d.pending.head?, ∀ f, q.op = some (.call f) →
    t.wantsOperand = true ∧ t.fresh = false ∧ t.assignable = false

theorem CallWaits.of_head {t : Check.Stance} {d : Draft} {prec : Int}
    {rest : List (Pending Opcode)} (op : Opcode) (h : d.pending = ⟨some op, prec⟩ :: rest)
    (hop : op.func? = none) : CallWaits t d := by
  intro q hq f hf
  rw [h] at hq
  obtain rfl := Option.some.inj hq
  obtain rfl : op = .call f := Option.some.inj hf
  cases hop

theorem callWaits_operator {t t' : Check.Stance} {d : Draft} {o : Operator} (h : CallWaits t d)
    (hstep : t.Step t' (.operator o)) : CallWaits t' (d.take (.operator o)) := by
  cases o with
  | comma =>
    obtain ⟨hends, rfl⟩ := hstep
    by_cases hw : d.wantsOperand = true
    · have htake : d.take (.operator .comma) = d := if_pos hw
      rw [htake]
      intro q hq f hf
      obtain ⟨hwants, hfresh, -⟩ := h q hq f hf
      exact Bool.noConfusion (hfresh.symm.trans (hends.2.2 hwants))
    · have htake : d.take (.operator .comma) = d.endStatement .clear := if_neg hw
      exact .of_head .clear (by rw [htake]; rfl) rfl
  | assign =>
    show CallWaits t' d.assign
    cases hpending : d.pending with
    | nil =>
      have hnone : d.assign.pending = [] := by rw [Draft.assign, hpending]
      intro q hq
      rw [hnone] at hq
      cases hq
    | cons q rest =>
      exact .of_head .store (by rw [Draft.assign, hpending]) rfl
  | modulus =>
    obtain ⟨-, rfl⟩ := hstep
    show CallWaits _ d.modulus
    unfold Draft.modulus
    split
    · exact fun q hq f hf => ⟨(h q hq f hf).1, (h q hq f hf).2.1, rfl⟩
    · exact .of_head .mod rfl rfl
  | minus =>
    by_cases hw : d.wantsOperand = true
    · have htake : d.take (.operator .minus) = d.push .neg 2 := if_pos hw
      exact .of_head .neg (by rw [htake]; rfl) rfl
    · have htake : d.take (.operator .minus) = d.infixOperator .sub 4 := if_neg hw
      exact .of_head .sub (by rw [htake]; rfl) rfl
  | _ => exact .of_head _ rfl rfl

/-- What the check lets through after a call leaves it waiting, or puts something behind it. -/
theorem callWaits_take {t t' : Check.Stance} {d : Draft} {l : Lexeme} (h : CallWaits t d)
    (hstep : t.Step t' l) : CallWaits t' (d.take l) := by
  cases l with
  | leftParen =>
    obtain ⟨-, -, rfl⟩ := hstep
    exact fun q hq f hf => ⟨(h q hq f hf).1, rfl, rfl⟩
  | rightParen =>
    obtain ⟨-, -, -, rfl⟩ := hstep
    exact fun q hq f hf => ⟨(h q hq f hf).1, rfl, rfl⟩
  | name text => exact .of_head .load (pending_name d text) rfl
  | literal text z isPair => exact .of_head .load (pending_literal d text z isPair) rfl
  | call f =>
    obtain ⟨hwants, rfl⟩ := hstep
    exact fun _ _ _ _ => ⟨hwants, rfl, rfl⟩
  | flow w => cases w <;> exact .of_head _ rfl rfl
  | operator o => exact callWaits_operator h hstep
  | close =>
    obtain ⟨-, rfl⟩ := hstep
    exact h
  | fault => exact hstep.elim

theorem mem_queued_call {d : Draft} {l : Lexeme} {f : Func} :
    .call f ∈ Pending.outputs (l.queued d) ↔ l = .call f := by
  cases l with
  | call g => simp [Lexeme.queued, Pending.outputs, eq_comm]
  | flow w => cases w <;> simp [Lexeme.queued, Pending.outputs, FlowWord.piece]
  | operator o =>
    cases o with
    | comma =>
      cases hw : d.wantsOperand <;> simp [Lexeme.queued, Pending.outputs, Break.piece, hw]
    | minus => cases hw : d.wantsOperand <;> simp [Lexeme.queued, Pending.outputs, hw]
    | colon => simp [Lexeme.queued, Pending.outputs, Break.piece]
    | _ => simp [Lexeme.queued, Pending.outputs, Infix.of?, Infix.opcode]
  | _ => simp [Lexeme.queued, Pending.outputs]

/-- A lexeme adds no call but its own, and takes none away. -/
theorem calls_take {t t' : Check.Stance} {d : Draft} {l : Lexeme} (h : CallWaits t d)
    (hstep : t.Step t' l) (f : Func) : .call f ∈ Pending.outputs (d.take l).pending ↔
      .call f ∈ Pending.outputs d.pending ∨ l = .call f := by
  have hkept := pendingOf_take (q := (·.func?.isSome)) (d := d) (l := l) rfl (by
    rintro rfl q hq op hop
    cases op with
    | call g =>
      have hno := (h q hq g hop).2.2
      exact Bool.noConfusion (hno.symm.trans hstep.1)
    | _ => rfl)
  have hmem (ops : List Opcode) : .call f ∈ ops.filter (·.func?.isSome) ↔ .call f ∈ ops := by
    rw [List.mem_filter]
    exact and_iff_left rfl
  rw [← hmem, ← hmem (Pending.outputs d.pending)]
  show .call f ∈ (d.take l).pendingOf _ ↔ .call f ∈ d.pendingOf _ ∨ _
  rw [hkept, List.mem_append, List.mem_reverse, hmem, mem_queued_call]
  exact or_comm

theorem calls_takeAll {t t' : Check.Stance} {ls : List Lexeme} (hsteps : t.Steps ls t') (f : Func) :
    ∀ {d : Draft}, CallWaits t d → (.call f ∈ Pending.outputs (d.takeAll ls).pending ↔
      .call f ∈ Pending.outputs d.pending ∨ .call f ∈ ls) := by
  induction hsteps with
  | nil t => intro d _; simp [Draft.takeAll]
  | cons hl _ ih =>
    intro d h
    rw [Draft.takeAll_cons, ih (callWaits_take h hl), calls_take h hl, or_assoc, List.mem_cons,
      eq_comm (a := Lexeme.call f)]

end Compile

/-! ## Programs -/

/-- A load or a store of the program has the slot of the variable. -/
def Program.Touches (p : Program) (v : Builtin) : Prop :=
  v.slot ∈ p.loads ∨ v.slot ∈ p.stores

theorem Lexeme.words_eq_nil_iff {l : Lexeme} : l.words = [] ↔ ∀ w, l ≠ .flow w := by
  cases l with
  | flow w => cases w <;> simp [Lexeme.words]
  | _ => simp [Lexeme.words]

section

variable (env : Environment) (formula : String) {ls : List Lexeme}

theorem touches_finish (h : ∀ l ∈ ls, l.Spelled) (v : Builtin) :
    (((Draft.start env).takeAll ls).finish formula).Touches v ↔
      ∃ text, .name text ∈ ls ∧ Builtin.find? text = some v := by
  have hstart : ¬ (Draft.start env).Touches v.slot := by
    rintro (hi | hi) <;> exact absurd hi List.not_mem_nil
  rw [← or_iff_right hstart (b := ∃ text, .name text ∈ ls ∧ Builtin.find? text = some v),
    ← touches_takeAll v (List.prefix_refl _) (Sound.start env) h]
  exact or_congr List.mem_reverse List.mem_reverse

theorem call_mem_code_finish {t : Check.Stance} (h : Check.Stance.Steps {} ls t) (f : Func) :
    .call f ∈ (((Draft.start env).takeAll ls).finish formula).code ↔ .call f ∈ ls := by
  let d := (Draft.start env).takeAll ls
  have hnone : CallWaits {} (.start env) := fun q hq => by cases hq
  calc .call f ∈ Pending.linearize d.pending.reverse
      ↔ .call f ∈ Pending.outputs d.pending := by
        rw [(Pending.linearize_perm _).mem_iff, Pending.outputs, List.filterMap_reverse,
          List.mem_reverse]
        rfl
    _ ↔ .call f ∈ ls := by
        rw [calls_takeAll h f hnone]
        exact or_iff_right List.not_mem_nil

theorem jumps_finish_ne_nil :
    (((Draft.start env).takeAll ls).finish formula).jumps ≠ [] ↔ ∃ w, .flow w ∈ ls := by
  have hadded : ((Draft.start env).takeAll ls).jumps =
      ((ls.flatMap Lexeme.words).map .unresolved).reverse ++ [] :=
    (adds_takeAll ls (.start env)).1
  show ((Draft.start env).takeAll ls).jumps.reverse ≠ [] ↔ _
  rw [hadded, List.append_nil, List.reverse_reverse, Ne, List.map_eq_nil_iff,
    List.flatMap_eq_nil_iff, not_forall]
  refine ⟨fun ⟨l, hl⟩ => ?_, fun ⟨w, hw⟩ => ⟨.flow w, fun hall => ?_⟩⟩
  · obtain ⟨hmem, hwords⟩ := Classical.not_imp.mp hl
    obtain ⟨w, rfl⟩ : ∃ w, l = .flow w := by
      simpa [Lexeme.words_eq_nil_iff] using hwords
    exact ⟨w, hmem⟩
  · exact Lexeme.words_eq_nil_iff.mp (hall hw) w rfl

end

/-- The summary of the program of an accepted body tells of a variable if a load or a store has its
slot, of the highest parameter that the code calls, and of jumps if there is an entry for one. -/
theorem usage_exact {text : String} {offset : Nat} {tally : Tally}
    (h : check text offset = .ok tally) (env : Environment) :
    let p := compile (Token.body text offset) env
    (∀ v : Builtin, p.slots[v.slot]? = some ⟨v.name, .predefined, env.value v⟩) ∧
      (p.usage.p1 = true ↔ p.Touches .p1) ∧ (p.usage.p2 = true ↔ p.Touches .p2) ∧
      (p.usage.p3 = true ↔ p.Touches .p3) ∧ (p.usage.p4 = true ↔ p.Touches .p4) ∧
      (p.usage.p5 = true ↔ p.Touches .p5) ∧ (p.usage.isMand = true ↔ p.Touches .isMand) ∧
      (p.usage.rand = true ↔ p.Touches .rand) ∧
      Func.Highest (fun f => .call f ∈ p.code) p.usage.maxFn ∧
      (p.usage.jumps = true ↔ p.jumps ≠ []) := by
  obtain ⟨hbody, hcompile⟩ := body_of_check h
  obtain ⟨formula, hcompile⟩ := hcompile env
  obtain ⟨t, hsteps, -⟩ := hbody.steps
  generalize Lexeme.ofBody text offset = ls at hbody hcompile hsteps
  intro p
  have hp : p = ((Draft.start env).takeAll ls).finish formula := hcompile
  have htells : p.usage.Tells ls := by
    rw [hp]
    exact tells_takeAll ls (d := .start env) .nil
  have hflag (v : Builtin) (hv : v.isSummed = true) : p.usage.flag v = true ↔ p.Touches v := by
    rw [htells.flag, and_iff_right hv, hp]
    exact (touches_finish env formula hbody.spelled v).symm
  have hcalls (f : Func) : .call f ∈ ls ↔ .call f ∈ p.code := by
    rw [hp]
    exact (call_mem_code_finish env formula hsteps f).symm
  have hjumps : p.usage.jumps = true ↔ p.jumps ≠ [] := by
    rw [htells.jumps, hp]
    exact (jumps_finish_ne_nil env formula).symm
  have hslots : Draft.builtinSlots env <+: p.slots := by
    rw [hp]
    exact slots_prefix_takeAll ls (.start env)
  exact ⟨getElem?_builtin hslots, hflag .p1 rfl, hflag .p2 rfl, hflag .p3 rfl, hflag .p4 rfl,
    hflag .p5 rfl, hflag .isMand rfl, hflag .rand rfl, htells.maxFn.of_iff hcalls, hjumps⟩

theorem usage_exact_parameters : ∃ text tally, check text 0 = .ok tally ∧
    let p := compile (Token.body text 0) ({} : Settings).environment
    p.Touches .p1 ∧ ¬ p.Touches .p2 ∧ p.Touches .rand ∧
      Func.Highest (fun f => .call f ∈ p.code) 2 ∧ p.jumps ≠ [] := by
  let text := "p1=fn2(rand)\nif(z)\nz=1\nendif\n\x7d"
  have hstream : Token.stream (Cursor.seek text 0) = Token.firstTokens 40 (Cursor.seek text 0) :=
    Token.stream_eq_firstTokens (by decide +kernel)
  have hcheck : (check text 0).toOption.isSome = true := by
    rw [check, hstream]
    decide +kernel
  have husage : (compile (Token.body text 0) ({} : Settings).environment).usage =
      { p1 := true, rand := true, maxFn := 2, jumps := true } := by
    rw [Token.body, hstream]
    decide +kernel
  obtain ⟨tally, htally⟩ := exists_check hcheck
  obtain ⟨-, hp1, hp2, -, -, -, -, hrand, hmax, hjumps⟩ :=
    usage_exact htally ({} : Settings).environment
  rw [husage] at hp1 hp2 hrand hmax hjumps
  exact ⟨text, tally, htally, hp1.mp rfl, mt hp2.mpr nofun, hrand.mp rfl, hmax, hjumps.mp rfl⟩

end FractalFormula
