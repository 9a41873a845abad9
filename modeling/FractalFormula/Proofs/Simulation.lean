/-
Running the code of a tree.

The code of a tree, run from its first instruction, does to the scene what the evaluation of the tree
does (`Expr.reaches`, `Block.reaches`).  Expressions leave the stack as it was below their value.
Blocks do not care what is on the stack, but need their jumps to lead where the tree has it.
-/
import FractalFormula.Proofs.Instruction
import FractalFormula.Proofs.Reach
import FractalFormula.Proofs.Wiring

namespace FractalFormula

open Compile State Instruction Routine

section

variable {N : Type} [Scalar N] {r : Routine N} {slots : List Slot} {initOnly : Bool}

/-! ## Expressions -/

theorem Infix.execute (o : Infix) (r : Routine N) (s : State N) :
    s.execute r o.opcode = s.binary o.apply := by
  cases o <;> rfl

theorem Infix.isJump_opcode (o : Infix) : o.opcode.isJump = false := by
  cases o <;> rfl

theorem Infix.opcode_ne_endInit (o : Infix) : o.opcode ≠ .endInit := by
  cases o <;> exact nofun

theorem reaches_load {s : State N} {sc : Scene N} {o : Operand} {z : Complex N}
    (h : s.Shows slots sc) (hlist : r.Lists slots s.here [.load o])
    (hz : ∀ i, Holds slots i o → s.var i = z) :
    Reaches r slots initOnly s { sc with value := z } (Raised s [.load]) := by
  have hop : r.code[s.here.op]? = some .load := hlist.1
  obtain ⟨i, hi, hholds⟩ := hlist.2.1
  have hload : s.execute r .load = s.load (some i) := by rw [State.execute, hi]
  refine .of_plain hop (by simp) rfl ?_ fun _ => hload ▸ raised_load h.upright.top
  rw [hload, State.load, hz i hholds]
  exact (h.at_place _ s.entry).push z

theorem State.Raised.unary {ops : List Opcode} {op : Opcode} {s s' : State N} {sc : Scene N}
    {f : Complex N → Option (Complex N)} (h : Raised s ops s') (hs' : s'.Shows slots sc)
    (hop : r.code[s'.here.op]? = some op) (hjump : op.isJump = false) (hend : op ≠ .endInit)
    (hexec : s'.execute r op = s'.unary f) :
    Reaches r slots initOnly s' (sc.unary f) (Raised s (ops ++ [op])) := by
  refine .of_plain hop hend hjump ?_ fun _ => h.step hjump ?_
  · rw [hexec]
    exact hs'.unary f
  · rw [hexec]
    exact level_unary s' f

/-- An expression is computed on top of the stack. -/
theorem Expr.reaches (hf : Furnished slots) (e : Expr) : ∀ {s : State N} {sc : Scene N},
    s.Shows slots sc → sc.overflow = false → r.Lists slots s.here e.instructions →
    Reaches r slots initOnly s (e.eval r.bindings sc) (Raised s e.postorder) := by
  -- an operation on the value that `e` has left
  have after {e : Expr} {op : Opcode} {h : op.isTransfer = false} {s s' : State N}
      (hlist : r.Lists slots s.here (e.instructions ++ [.plain op h]))
      (hs' : Raised s e.postorder s') : r.code[s'.here.op]? = some op := by
    have := (lists_append.mp hlist).2.1
    rwa [e.instructions_spec.1, ← hs'.here] at this
  induction e with
  | name text =>
    intro s sc h _ hlist
    exact reaches_load h hlist fun i hi => h.var hi
  | literal text z isPair =>
    intro s sc h _ hlist
    exact reaches_load h hlist fun i hi => h.literal hi
  | group e ih => exact ih
  | call f e ih =>
    intro s sc h hover hlist
    refine (ih h hover (lists_append.mp hlist).1).andThen fun s' hs' _ hraised => ?_
    exact .of_plain (after hlist hraised) nofun rfl (hs'.call hf _)
      fun _ => hraised.step rfl (level_call s' _)
  | minus e ih | modulus e ih =>
    intro s sc h hover hlist
    refine (ih h hover (lists_append.mp hlist).1).andThen fun s' hs' _ hraised => ?_
    exact hraised.unary hs' (after hlist hraised) rfl nofun rfl
  | binary o left right ihl ihr =>
    intro s sc h hover hlist
    obtain ⟨hboth, hop, -⟩ := lists_append.mp hlist
    obtain ⟨hleft, hright⟩ := lists_append.mp hboth
    rw [List.map_append, left.instructions_spec.1, right.instructions_spec.1,
      Place.past_append] at hop
    rw [left.instructions_spec.1] at hright
    refine (ihl h hover hleft).andThen fun s₁ hs₁ hover₁ h₁ => ?_
    rw [← h₁.here] at hop hright
    refine (ihr hs₁ hover₁ hright).andThen fun s₂ hs₂ _ h₂ => ?_
    rw [← h₂.here] at hop
    have hbelow : s₂.stack[s₂.top - 1]? = some (left.eval r.bindings sc).value := by
      have htop := hs₁.upright.top
      rw [h₂.top, Nat.add_sub_cancel, h₂.below _ (Nat.le_refl _), ← hs₁.value, State.value,
        Array.getD_eq_getD_getElem?, Array.getElem?_eq_getElem htop]
      rfl
    have hshows : (s₂.execute r o.opcode).Shows slots
        ((right.eval r.bindings (left.eval r.bindings sc)).combine o.apply
          (left.eval r.bindings sc).value) := by
      rw [o.execute]
      exact hs₂.binary hbelow _
    exact .of_plain hop o.opcode_ne_endInit o.isJump_opcode hshows fun _ =>
      h₁.binary h₂ o.isJump_opcode (o.execute r s₂)

/-! ## Statements -/

theorem reaches_stores (targets : List String) : ∀ {s : State N} {sc : Scene N},
    s.Shows slots sc → sc.overflow = false → r.Lists slots s.here (targets.map .store) →
    Reaches r slots initOnly s (targets.foldl (fun sc v => sc.set v sc.value) sc)
      (·.here = s.here.past (List.replicate targets.length .store)) := by
  induction targets with
  | nil => exact fun h hover _ => .refl h hover rfl
  | cons v targets ih =>
    intro s sc h hover hlist
    obtain ⟨hop, ⟨i, hi, hholds⟩, hrest⟩ := hlist
    have hstore : s.execute r .store = s.store (some i) := by rw [State.execute, hi]
    have hset : (s.execute r .store).Shows slots (sc.set v sc.value) := by
      have := (h.at_place { s.here with stores := s.here.stores + 1 } s.entry).setVar hholds sc.value
      rw [← h.value] at this
      rw [hstore, State.store, ← h.value]
      exact this
    have hfirst : Reaches r slots initOnly s (sc.set v sc.value)
        (·.here = s.here.past [.store]) :=
      .of_plain hop (fun h => by cases h) rfl hset fun _ => here_execute r rfl s
    refine hfirst.bind (fun hno => ?_) fun s' hs' hover' hhere => ?_
    · rw [show (sc.set v sc.value).overflow = sc.overflow from rfl, hover] at hno
      cases hno
    · refine (ih hs' hover' (hhere ▸ hrest)).mono fun s'' hs'' => ?_
      rw [hs'', hhere, ← Place.past_append]
      rfl

theorem Statement.reaches (hf : Furnished slots) (x : Statement) {s : State N} {sc : Scene N}
    (h : s.Shows slots sc) (hover : sc.overflow = false)
    (hlist : r.Lists slots s.here x.instructions) :
    Reaches r slots initOnly s (x.eval r.bindings sc) (·.here = s.here.past x.code) := by
  obtain ⟨hvalue, hstores⟩ := lists_append.mp hlist
  rw [x.value.instructions_spec.1] at hstores
  refine (x.value.reaches hf h hover hvalue).andThen fun s' hs' hover' hraised => ?_
  rw [← hraised.here] at hstores
  refine (reaches_stores x.targets hs' hover' hstores).mono fun s'' hs'' => ?_
  rw [hs'', hraised.here, ← Place.past_append]
  rfl

/-- What follows a separator goes on with the same scene. -/
theorem Break.reaches {b : Break} (hb : b ≠ .colon) {s : State N} {sc sc' : Scene N}
    {Q : State N → Prop} {more : List Instruction} (h : s.Shows slots sc)
    (hover : sc.overflow = false) (hlist : r.Lists slots s.here (b.instructions ++ more))
    (hnext : ∀ s', s'.Shows slots sc → s'.here = s.here.past b.code →
      r.Lists slots s'.here more → Reaches r slots initOnly s' sc' Q) :
    Reaches r slots initOnly s sc' Q := by
  obtain ⟨hbreak, hmore⟩ := lists_append.mp hlist
  rw [b.instructions_spec.1] at hmore
  have hfirst : Reaches r slots initOnly s sc (·.here = s.here.past b.code) := by
    cases b with
    | none => exact .refl h hover rfl
    | comma => exact .clear hbreak.1 h
    | colon => exact absurd rfl hb
  refine hfirst.bind (fun hstop => ?_) fun s' hs' _ hhere => hnext s' hs' hhere (hhere ▸ hmore)
  rw [hover] at hstop
  cases hstop

/-! ## Blocks -/

/-- A failed condition leads to where the entry of the jump leads, any other one goes on. -/
theorem reaches_choice {entries : List JumpEntry} (hentries : r.jumps = entries.toArray)
    {s : State N} {sc : Scene N} {there : Place} {Q : State N → Prop} {otherwise inside : Scene N}
    (h : s.Shows slots sc) (hover : sc.overflow = false)
    (hop : r.code[s.here.op]? = some .jumpOnFalse)
    (hlands : Jumps.Lands entries s.here.jumps there) (hforward : s.here.op < there.op)
    (hfalse : ∀ s', s'.Shows slots sc → s'.here = there → Reaches r slots initOnly s' otherwise Q)
    (htrue : ∀ s', s'.Shows slots sc → s'.here = s.here.past [.jumpOnFalse] →
      Reaches r slots initOnly s' inside Q) :
    Reaches r slots initOnly s (if Scalar.isZero sc.value.x then otherwise else inside) Q := by
  have hno {sc' : Scene N} (hstop : sc.overflow = true) : sc' = sc := by
    rw [hover] at hstop
    cases hstop
  by_cases hzero : Scalar.isZero sc.value.x = true
  · rw [if_pos hzero]
    have htaken : s.execute r .jumpOnFalse = s.jump r.jumps[s.here.jumps]? := by
      rw [State.execute, h.value, if_pos hzero]
    exact (Reaches.jump hop rfl hentries htaken hlands hforward h).bind hno
      fun s' hs' _ => hfalse s' hs'
  · rw [if_neg hzero]
    have hpass : s.execute r .jumpOnFalse = s.skipJump := by
      rw [State.execute, h.value, if_neg hzero]
    exact (Reaches.pass hop rfl hpass h).bind hno fun s' hs' _ => htrue s' hs'

/-- From the end of a branch the run goes behind the `endif`. -/
theorem Tail.leave {entries : List JumpEntry} (hentries : r.jumps = entries.toArray) (x : Tail)
    {s : State N} {sc : Scene N} (h : s.Shows slots sc)
    (hlist : r.Lists slots s.here x.instructions) (hwired : x.Wired entries s.here) :
    Reaches r slots initOnly s sc (·.here = s.here.past x.code) := by
  have jump (hclear : r.code[s.here.op]? = some .clear)
      (hjump : r.code[(s.here.past [.clear]).op]? = some .jump)
      (hlands : Jumps.Lands entries (s.here.past [.clear]).jumps (s.here.past x.code))
      (hlen : 1 < x.code.length) :
      Reaches r slots initOnly s sc (·.here = s.here.past x.code) := by
    refine (Reaches.clear hclear h).andMove fun s' hs' _ hhere => ?_
    rw [← hhere] at hjump hlands
    refine .jump hjump rfl hentries rfl hlands ?_ hs'
    rw [hhere]
    exact Nat.add_lt_add_left hlen _
  cases x with
  | endIf =>
    refine (Reaches.clear hlist.1 h).andMove fun s' hs' _ hhere => ?_
    have hlabel : r.code[s'.here.op]? = some .label := hhere ▸ hlist.2.2.1
    refine (Reaches.pass hlabel rfl rfl hs').mono fun s'' hs'' => ?_
    rw [hs'', hhere]
    rfl
  | «else» body => exact jump hlist.1 hlist.2.2.1 hwired.1 (by simp [Tail.code])
  | elseIf c body rest => exact jump hlist.1 hlist.2.2.1 hwired.1 (by simp [Tail.code])

theorem Tail.op_lt_front (x : Tail) (here : Place) : here.op < (here.past (x.code.take 2)).op := by
  refine Nat.lt_add_of_pos_right ?_
  cases x <;> simp [Tail.code]

/-- A condition, and then its branch or what follows the branch, whichever way these are run. -/
theorem reaches_condition (hf : Furnished slots) {entries : List JumpEntry}
    (hentries : r.jumps = entries.toArray) {c : Expr} {body : Block} {rest : Tail} {s : State N}
    {sc : Scene N} {inside after : Place}
    (h : s.Shows slots sc) (hover : sc.overflow = false)
    (hinside : inside = (s.here.past c.postorder).past [.jumpOnFalse])
    (hafter : after = inside.past (body.code .comma))
    (hc : r.Lists slots s.here c.instructions)
    (hop : r.code[(s.here.past c.postorder).op]? = some .jumpOnFalse)
    (hrest : r.Lists slots after rest.instructions)
    (hlands : Jumps.Lands entries (s.here.past c.postorder).jumps (after.past (rest.code.take 2)))
    (hwired : rest.Wired entries after)
    (hbody : ∀ (s' : State N) (sc' : Scene N), s'.Shows slots sc' → sc'.overflow = false →
      s'.here = inside → Reaches r slots initOnly s' (body.eval r.bindings sc') (·.here = after))
    (henter : ∀ (s' : State N) (sc' : Scene N), s'.Shows slots sc' → sc'.overflow = false →
      s'.here = after.past (rest.code.take 2) →
      Reaches r slots initOnly s' (rest.eval r.bindings sc') (·.here = after.past rest.code)) :
    Reaches r slots initOnly s ((c.eval r.bindings sc).andThen fun sc =>
        if Scalar.isZero sc.value.x then rest.eval r.bindings sc else body.eval r.bindings sc)
      (·.here = after.past rest.code) := by
  refine (c.reaches hf h hover hc).andThen fun s₁ h₁ hover₁ hraised => ?_
  rw [← hraised.here] at hinside hop hlands
  refine reaches_choice hentries h₁ hover₁ hop hlands ?_ ?_ ?_
  · refine Nat.lt_of_le_of_lt ?_ (rest.op_lt_front after)
    rw [hafter, hinside]
    show s₁.here.op ≤ s₁.here.op + 1 + _
    omega
  · exact fun s₂ h₂ hhere₂ => henter s₂ _ h₂ hover₁ hhere₂
  · intro s₂ h₂ hhere₂
    refine (hbody s₂ _ h₂ hover₁ (hhere₂.trans hinside.symm)).andMove fun s₃ h₃ _ hhere₃ => ?_
    rw [← hhere₃] at hrest hwired ⊢
    exact rest.leave hentries h₃ hrest hwired

mutual

/-- The code of a block evaluates it. -/
theorem Block.reaches (hf : Furnished slots) {entries : List JumpEntry}
    (hentries : r.jumps = entries.toArray) (b : Break) (hb : b ≠ .colon) :
    ∀ (x : Block) {s : State N} {sc : Scene N}, s.Shows slots sc → sc.overflow = false →
      r.Lists slots s.here (x.instructions b) → x.Wired entries b s.here →
      Reaches r slots initOnly s (x.eval r.bindings sc) (·.here = s.here.past (x.code b))
  | .nil, _, _, h, hover, _, _ => .refl h hover rfl
  | .statement x next, s, sc, h, hover, hlist, hwired => by
    rw [Block.instructions, List.append_assoc] at hlist
    rw [Block.Wired, Place.past_append] at hwired
    rw [Block.code, List.append_assoc, Place.past_append]
    refine Break.reaches hb h hover hlist fun s₁ h₁ hhere hlist => ?_
    obtain ⟨hx, hnext⟩ := lists_append.mp hlist
    rw [x.instructions_spec.1] at hnext
    rw [← hhere, Place.past_append]
    rw [← hhere] at hwired
    refine (x.reaches hf h₁ hover hx).andThen fun s₂ h₂ hover₂ hhere₂ => ?_
    rw [← hhere₂] at hnext hwired ⊢
    exact next.reaches hf hentries .comma nofun h₂ hover₂ hnext hwired
  | .branch c body rest next, s, sc, h, hover, hlist, hwired => by
    have hlist : r.Lists slots s.here (b.instructions ++ (c.instructions ++
        .plain .jumpOnFalse :: body.instructions .comma ++ rest.instructions ++
          next.instructions .comma)) := by
      simpa [Block.instructions] using hlist
    have hend : s.here.past ((Block.branch c body rest next).code b) =
        ((((s.here.past b.code).past c.postorder).past [.jumpOnFalse]).past
          (body.code .comma)).past (rest.code ++ next.code .comma) := by
      rw [Block.code, ← Place.past_append, ← Place.past_append, ← Place.past_append,
        ← Place.past_append]
      simp
    simp only [Block.Wired, Place.past_append] at hwired
    refine Break.reaches hb h hover hlist fun s₁ h₁ hhere₁ hlist => ?_
    rw [← hhere₁] at hwired hend
    obtain ⟨hlands, hwbody, hwrest, hwnext⟩ := hwired
    obtain ⟨hc, hop, hbody, hrest, hnext⟩ := lists_choice hlist
    rw [Block.eval, ← Scene.andThen_assoc]
    refine (reaches_condition hf hentries h₁ hover rfl rfl hc hop hrest hlands hwrest
      (fun s' sc' h' hover' hhere => ?_) fun s' sc' h' hover' hhere => ?_).andThen
      fun s₂ h₂ hover₂ hhere₂ => ?_
    · rw [← hhere] at hbody hwbody ⊢
      exact body.reaches hf hentries .comma nofun h' hover' hbody hwbody
    · exact rest.enter hf hentries h' hover' hrest hwrest hhere
    · rw [hend, Place.past_append, ← hhere₂]
      rw [← hhere₂] at hnext hwnext
      exact next.reaches hf hentries .comma nofun h₂ hover₂ hnext hwnext

/-- Behind its first jump, what follows a branch is run if the condition has failed. -/
theorem Tail.enter (hf : Furnished slots) {entries : List JumpEntry}
    (hentries : r.jumps = entries.toArray) : ∀ (x : Tail) {here : Place} {s : State N}
      {sc : Scene N}, s.Shows slots sc → sc.overflow = false →
      r.Lists slots here x.instructions → x.Wired entries here →
      s.here = here.past (x.code.take 2) →
      Reaches r slots initOnly s (x.eval r.bindings sc) (·.here = here.past x.code)
  | .endIf, here, s, sc, h, hover, _, _, hhere => .refl h hover hhere
  | .else body, here, s, sc, h, hover, hlist, hwired, hhere => by
    have hsplit : r.Lists slots (here.past [.clear, .jump])
        (body.instructions .comma ++ [.plain .clear, .plain .label]) := hlist.2.2.2.2
    have hinside : s.here = here.past [.clear, .jump] := hhere
    obtain ⟨hbody, hclear, -, hlabel, -⟩ := lists_append.mp hsplit
    obtain ⟨-, hwired⟩ := hwired
    rw [← hinside] at hbody hclear hlabel hwired
    rw [body.instructions_spec .comma |>.1] at hclear hlabel
    refine (body.reaches hf hentries .comma nofun h hover hbody hwired).andMove
      fun s₁ h₁ _ hhere₁ => ?_
    rw [← hhere₁] at hclear hlabel
    refine (Reaches.clear hclear h₁).andMove fun s₂ h₂ _ hhere₂ => ?_
    have hlabel : r.code[s₂.here.op]? = some .label := hhere₂ ▸ hlabel
    refine (Reaches.pass hlabel rfl rfl h₂).mono fun s₃ hhere₃ => ?_
    rw [hhere₃, hhere₂, hhere₁, hinside, ← Place.past_append, ← Place.past_append,
      ← Place.past_append]
    simp [Tail.code]
  | .elseIf c body rest, here, s, sc, h, hover, hlist, hwired, hhere => by
    have hclear : r.code[(here.past [.clear, .jump]).op]? = some .clear := hlist.2.2.2.2.1
    have hlist : r.Lists slots (here.past [.clear, .jump, .clear]) (c.instructions ++
        .plain .jumpOnFalse :: body.instructions .comma ++ rest.instructions ++ []) := by
      rw [List.append_nil]
      exact hlist.2.2.2.2.2.2
    have hinside : s.here = here.past [.clear, .jump] := hhere
    simp only [Tail.Wired, Place.past_append] at hwired
    obtain ⟨-, hlands, hwbody, hwrest⟩ := hwired
    rw [← hinside] at hclear
    refine (Reaches.clear hclear h).bind ?_ fun s₁ h₁ _ hhere₁ => ?_
    · rw [hover]
      exact nofun
    have hstart : s₁.here = here.past [.clear, .jump, .clear] := by
      rw [hhere₁, hinside]
      rfl
    rw [← hstart] at hlist hlands hwbody hwrest
    obtain ⟨hc, hop, hbody, hrest, -⟩ := lists_choice hlist
    refine (reaches_condition hf hentries h₁ hover rfl rfl hc hop hrest hlands hwrest
      (fun s' sc' h' hover' hhere => ?_) fun s' sc' h' hover' hhere => ?_).mono fun s₂ hhere₂ => ?_
    · rw [← hhere] at hbody hwbody ⊢
      exact body.reaches hf hentries .comma nofun h' hover' hbody hwbody
    · exact rest.enter hf hentries h' hover' hrest hwrest hhere
    · rw [hhere₂, hstart, ← Place.past_append, ← Place.past_append, ← Place.past_append,
        ← Place.past_append]
      simp [Tail.code]

end

end
end FractalFormula
