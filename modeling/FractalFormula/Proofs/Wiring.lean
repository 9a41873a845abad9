/-
The jumps of a tree in its program.

`Block.Wired` says where each jump of a block goes on, as a place counted off from the beginning of
the block.  `Source.wired` reads it off the leads of the tree.
-/
import FractalFormula.Proofs.Branches

namespace FractalFormula

open Jumps

theorem Block.countP_code (b : Break) (x : Block) :
    (x.code b).countP Opcode.isJump = x.words.length := by
  have := congrArg List.length (x.filter_isJump b [])
  rw [List.append_nil, expected, List.append_nil, length_expected] at this
  rw [List.countP_eq_length_filter, this]

theorem Tail.countP_code (x : Tail) : x.code.countP Opcode.isJump = x.words.length := by
  have := congrArg List.length (x.filter_isJump [])
  rw [List.append_nil, expected, List.append_nil, length_expected] at this
  rw [List.countP_eq_length_filter, this]

/-- The code of a tail begins with a clear and a jump. -/
theorem Tail.exists_front (x : Tail) :
    ∃ op rest, x.code = .clear :: op :: rest ∧ op.isJump = true := by
  cases x with
  | endIf => exact ⟨_, _, rfl, rfl⟩
  | «else» body => exact ⟨_, _, rfl, rfl⟩
  | elseIf c body rest => exact ⟨_, _, rfl, rfl⟩

/-- It ends with a label. -/
theorem Tail.exists_label (x : Tail) : ∃ front, x.code = front ++ [.label] := by
  cases x with
  | endIf => exact ⟨[.clear], rfl⟩
  | «else» body => exact ⟨.clear :: .jump :: body.code .comma ++ [.clear], by simp [Tail.code]⟩
  | elseIf c body rest =>
    obtain ⟨front, hfront⟩ := rest.exists_label
    refine ⟨.clear :: .jump :: .clear :: c.postorder ++ .jumpOnFalse :: body.code .comma ++ front, ?_⟩
    simp [Tail.code, hfront]

mutual

/-- The jumps of a block that begins at the given place lead to where the tree has it: a failed
condition into the tail behind its first jump, the end of a branch behind the whole tail. -/
def Block.Wired (entries : List JumpEntry) (b : Break) (here : Place) : Block → Prop
  | .nil => True
  | .statement s next => next.Wired entries .comma (here.past (b.code ++ s.code))
  | .branch c body rest next =>
    let test := here.past (b.code ++ c.postorder)
    let inside := test.past [.jumpOnFalse]
    let after := inside.past (body.code .comma)
    Lands entries test.jumps (after.past (rest.code.take 2)) ∧ body.Wired entries .comma inside ∧
      rest.Wired entries after ∧ next.Wired entries .comma (after.past rest.code)

def Tail.Wired (entries : List JumpEntry) (here : Place) : Tail → Prop
  | .endIf => True
  | .else body =>
    Lands entries (here.past [.clear]).jumps (here.past (Tail.else body).code) ∧
      body.Wired entries .comma (here.past [.clear, .jump])
  | .elseIf c body rest =>
    let test := here.past ([.clear, .jump, .clear] ++ c.postorder)
    let inside := test.past [.jumpOnFalse]
    let after := inside.past (body.code .comma)
    Lands entries (here.past [.clear]).jumps (here.past (Tail.elseIf c body rest).code) ∧
      Lands entries test.jumps (after.past (rest.code.take 2)) ∧
      body.Wired entries .comma inside ∧ rest.Wired entries after

end

section

variable {code : List Opcode} {words : List FlowWord} {found : List (Option Nat)}

theorem jumps_past (pre ops : List Opcode) :
    (Place.start.past (pre ++ ops)).jumps =
      (Place.start.past pre).jumps + ops.countP Opcode.isJump := by
  rw [Place.past_append]
  rfl

/-- Behind `pre` the code goes on with `ops`, and the entries of `ops`, the first of which has the
number `n`, have these leads. -/
structure Cut (code : List Opcode) (found : List (Option Nat)) (pre : List Opcode) (n : Nat)
    (ops : List Opcode) (leads : List (Option Nat)) : Prop where
  listed : pre ++ ops <+: code
  led : leads <+: found.drop n
  jumps : (Place.start.past pre).jumps = n

namespace Cut

variable {pre ops ops' : List Opcode} {n : Nat} {leads leads' : List (Option Nat)}

theorem left (h : Cut code found pre n (ops ++ ops') (leads ++ leads')) :
    Cut code found pre n ops leads :=
  ⟨(List.prefix_append_right_inj pre).mpr (List.prefix_append ops ops') |>.trans h.listed,
    (List.prefix_append leads leads').trans h.led, h.jumps⟩

theorem right {m : Nat} (h : Cut code found pre n (ops ++ ops') (leads ++ leads'))
    (hjumps : ops.countP Opcode.isJump = leads.length) (hm : n + leads.length = m) :
    Cut code found (pre ++ ops) m ops' leads' := by
  subst hm
  refine ⟨(List.append_assoc pre ops ops').symm ▸ h.listed, ?_, ?_⟩
  · obtain ⟨rest, hrest⟩ := h.led
    refine ⟨rest, ?_⟩
    rw [← List.drop_drop, ← hrest, List.append_assoc, List.drop_left]
  · rw [jumps_past, h.jumps, hjumps]

/-- Instructions without a jump have no entries. -/
theorem quiet (h : Cut code found pre n (ops ++ ops') leads)
    (hquiet : ops.filter Opcode.isJump = []) : Cut code found (pre ++ ops) n ops' leads := by
  have hcut : Cut code found pre n (ops ++ ops') ([] ++ leads) := h
  have hcount : ops.countP Opcode.isJump = 0 := by
    rw [List.countP_eq_length_filter, hquiet]
    rfl
  exact hcut.right hcount rfl

/-- Instructions with one jump have one entry. -/
theorem skip {lead : Option Nat} (h : Cut code found pre n (ops ++ ops') (lead :: leads))
    (hcount : ops.countP Opcode.isJump = 1) : Cut code found (pre ++ ops) (n + 1) ops' leads := by
  have hcut : Cut code found pre n (ops ++ ops') ([lead] ++ leads) := h
  exact hcut.right hcount rfl

theorem jump {op : Opcode} {lead : Option Nat}
    (h : Cut code found pre n (op :: ops) (lead :: leads)) (hop : op.isJump = true) :
    Cut code found (pre ++ [op]) (n + 1) ops leads := by
  have hcut : Cut code found pre n ([op] ++ ops) (lead :: leads) := h
  exact hcut.skip (by simp [hop])

theorem lead {lead : Option Nat} (h : Cut code found pre n ops (lead :: leads)) :
    found[n]? = some lead := by
  obtain ⟨rest, hrest⟩ := h.led
  rw [← List.head?_drop, ← hrest]
  rfl

/-- An entry that leads to the first jump of a tail. -/
theorem lands_front (hlen : words.length = found.length) {k : Nat} {x : Tail}
    (h : Cut code found pre n x.code leads) (hlead : found[k]? = some (some n)) :
    Lands (linked code (words.map .unresolved) found) k
      ((Place.start.past pre).past (x.code.take 2)) := by
  obtain ⟨op, rest, hx, hop⟩ := x.exists_front
  obtain ⟨post, hcode⟩ := h.listed
  have hsplit : code = (pre ++ [.clear]) ++ op :: (rest ++ post) := by
    rw [← hcode, hx]
    simp
  have hjumps : (Place.start.past (pre ++ [.clear])).jumps = n :=
    (jumps_past pre [.clear]).trans h.jumps
  have := lands_of_lead hsplit hop hlen (by rw [hjumps, hlead])
  rw [List.append_assoc, Place.past_append] at this
  rw [hx]
  exact this

/-- An entry that leads to the label of a tail. -/
theorem lands_label (hlen : words.length = found.length) {k : Nat} {x : Tail}
    (h : Cut code found pre n x.code leads)
    (hlead : found[k]? = some (some (n + x.words.length - 1))) :
    Lands (linked code (words.map .unresolved) found) k ((Place.start.past pre).past x.code) := by
  obtain ⟨front, hx⟩ := x.exists_label
  obtain ⟨post, hcode⟩ := h.listed
  have hsplit : code = (pre ++ front) ++ .label :: post := by
    rw [← hcode, hx]
    simp
  have hcount : front.countP Opcode.isJump + 1 = x.words.length := by
    rw [← x.countP_code, hx, List.countP_append]
    rfl
  have hjumps : (Place.start.past (pre ++ front)).jumps = n + x.words.length - 1 := by
    rw [jumps_past, h.jumps]
    omega
  have := lands_of_lead hsplit rfl hlen (by rw [hjumps, hlead])
  rwa [List.append_assoc, ← hx, Place.past_append] at this

end Cut

mutual

theorem Block.wired (hlen : words.length = found.length) : ∀ {x : Block} {b : Break}
    {pre : List Opcode} {n : Nat}, Cut code found pre n (x.code b) (x.leads n) →
    x.Wired (linked code (words.map .unresolved) found) b (Place.start.past pre)
  | .nil, _, _, _, _ => trivial
  | .statement s next, b, pre, n, h => by
    have hquiet : (b.code ++ s.code).filter Opcode.isJump = [] := by
      rw [List.filter_append, b.filter_isJump, s.filter_isJump]
      rfl
    have hnext := next.wired hlen (Cut.quiet h hquiet)
    rwa [Place.past_append] at hnext
  | .branch c body rest next, b, pre, n, h => by
    let r := n + 1 + body.words.length
    let m := r + rest.words.length
    have hquiet : (b.code ++ c.postorder).filter Opcode.isJump = [] := by
      rw [List.filter_append, b.filter_isJump, c.filter_isJump]
      rfl
    have hcode : (Block.branch c body rest next).code b = (b.code ++ c.postorder) ++
        .jumpOnFalse :: (body.code .comma ++ (rest.code ++ next.code .comma)) := by
      simp [Block.code]
    have hleads : (Block.branch c body rest next).leads n =
        some r :: (body.leads (n + 1) ++ (rest.leads r (m - 1) ++ next.leads m)) := by
      simp [Block.leads, r, m]
    rw [hcode, hleads] at h
    have htest := h.quiet hquiet
    have hinside := htest.jump rfl
    have hbehind := hinside.right (m := r) (by rw [body.countP_code, body.length_leads])
      (by rw [body.length_leads])
    have hlast := hbehind.right (m := m) (by rw [rest.countP_code, rest.length_leads])
      (by rw [rest.length_leads])
    have hfront := hbehind.left.lands_front hlen htest.lead
    rw [← htest.jumps] at hfront
    have hbody := body.wired hlen hinside.left
    have hrest := rest.wired hlen hbehind.left
    have hnext := next.wired hlen hlast
    simp only [Place.past_append] at hfront hbody hrest hnext
    simp only [Block.Wired, Place.past_append]
    exact ⟨hfront, hbody, hrest, hnext⟩

theorem Tail.wired (hlen : words.length = found.length) : ∀ {x : Tail} {pre : List Opcode}
    {n : Nat}, Cut code found pre n x.code (x.leads n (n + x.words.length - 1)) →
    x.Wired (linked code (words.map .unresolved) found) (Place.start.past pre)
  | .endIf, _, _, _ => trivial
  | .else body, pre, n, h => by
    have hout := h.lands_label hlen h.lead
    have hcode : (Tail.else body).code =
        [.clear] ++ .jump :: (body.code .comma ++ [.clear, .label]) := rfl
    rw [hcode] at h
    have hjump := h.quiet rfl
    have hinside := hjump.jump rfl
    have hbody := body.wired hlen hinside.left
    rw [← hjump.jumps] at hout
    simp only [Place.past_append] at hout hbody
    exact ⟨hout, hbody⟩
  | .elseIf c body rest, pre, n, h => by
    let r := n + 2 + body.words.length
    have hout := h.lands_label hlen h.lead
    have hjump : (Place.start.past (pre ++ [.clear])).jumps = n :=
      (jumps_past pre [.clear]).trans h.jumps
    have hcode : (Tail.elseIf c body rest).code = ([.clear, .jump, .clear] ++ c.postorder) ++
        .jumpOnFalse :: (body.code .comma ++ rest.code) := by
      simp [Tail.code]
    have hcount : ([Opcode.clear, .jump, .clear] ++ c.postorder).countP Opcode.isJump = 1 := by
      rw [List.countP_append, List.countP_eq_length_filter (l := c.postorder), c.filter_isJump]
      rfl
    have hlast : n + (Tail.elseIf c body rest).words.length - 1 = r + rest.words.length - 1 := by
      simp only [Tail.words, List.length_append, List.length_cons, r]
      omega
    rw [hcode, hlast] at h
    have htest := h.skip hcount
    have hinside := htest.jump rfl
    have hbehind := hinside.right (m := r) (by rw [body.countP_code, body.length_leads])
      (by rw [body.length_leads])
    have hfront := hbehind.lands_front hlen htest.lead
    have hbody := body.wired hlen hinside.left
    have hrest := rest.wired hlen hbehind
    rw [← hjump] at hout
    rw [← htest.jumps] at hfront
    simp only [Place.past_append] at hout hfront hbody hrest
    simp only [Tail.Wired, Place.past_append]
    exact ⟨hout, hfront, hbody, hrest⟩

end

end

theorem Block.code_colon {x : Block} (h : x ≠ .nil) : x.code .colon = .endInit :: x.code .none := by
  cases x with
  | nil => exact absurd rfl h
  | statement s next | branch c body rest next => rfl

namespace Source

/-- The code before the iterated section. -/
def prologue (s : Source) : List Opcode :=
  match s.init with
  | none => []
  | some b => b.code .none ++ [.endInit]

/-- Where the iterated section begins. -/
def entry (s : Source) : Place :=
  Place.start.past s.prologue

/-- The jumps of both sections of a body lead where the tree has it. -/
structure Wired (s : Source) (entries : List JumpEntry) : Prop where
  init : ∀ b ∈ s.init, b.Wired entries .none .start
  loop : s.loop.Wired entries .none s.entry

/-- A colon has something behind it. -/
def Split (s : Source) : Prop :=
  s.init ≠ none → s.loop ≠ .nil

theorem All.split {P : Expr → Prop} {s : Source} (h : s.All P) : s.Split := by
  intro hinit
  obtain ⟨b, hb⟩ := Option.ne_none_iff_exists'.mp hinit
  exact (h.1 b hb).2.1

theorem code_eq {s : Source} (h : s.Split) : s.code = s.prologue ++ s.loop.code .none := by
  obtain ⟨init, loop⟩ := s
  cases init with
  | none => rfl
  | some b =>
    show b.code .none ++ loop.code .colon = (b.code .none ++ [.endInit]) ++ loop.code .none
    rw [Block.code_colon (h nofun), List.append_assoc]
    rfl

theorem wired {s : Source} (h : s.Split) :
    s.Wired (linked s.code (s.words.map .unresolved) s.leads) := by
  have hlen : s.words.length = s.leads.length := by
    obtain ⟨init, loop⟩ := s
    cases init with
    | none => exact (loop.length_leads 0).symm
    | some b =>
      show (b.words ++ loop.words).length = (b.leads 0 ++ loop.leads _).length
      simp [b.length_leads, loop.length_leads]
  have hcode := code_eq h
  obtain ⟨init, loop⟩ := s
  cases init with
  | none => exact ⟨nofun, loop.wired hlen ⟨List.prefix_refl _, List.prefix_refl _, rfl⟩⟩
  | some b =>
    have hboth : Cut (Source.mk (some b) loop).code (Source.mk (some b) loop).leads [] 0
        (b.code .none ++ ([.endInit] ++ loop.code .none))
        (b.leads 0 ++ loop.leads b.words.length) := by
      rw [hcode]
      exact ⟨by simp [prologue], List.prefix_refl _, rfl⟩
    have hloop := (hboth.right (by rw [b.countP_code, b.length_leads])
      (by rw [b.length_leads, Nat.zero_add])).quiet rfl
    refine ⟨fun c hc => ?_, loop.wired hlen hloop⟩
    obtain rfl := Option.some.inj hc
    exact b.wired hlen hboth.left

end Source
end FractalFormula
