/-
What a draft becomes as it reads statements, branches and whole bodies.

`grows_block` carries the account of expressions through everything around them, and
`compile_of_renders` reads the tables of the finished program off it.
-/
import FractalFormula.Proofs.Piece

namespace FractalFormula

/-! ## Statements and blocks -/

open Compile

/-- What becomes pending for assignments of which the first stands at level `n`. -/
def Statement.storesFrom (n : Int) : List String → List (Pending Opcode)
  | [] => []
  | _ :: targets => ⟨some .store, 5 - n * level⟩ :: storesFrom (n + 1) targets

namespace Statement

def piece (s : Statement) : Piece :=
  { pending := storesFrom 0 s.targets, targets := s.targets } ++ s.value.piece s.targets.length

def fold (s : Statement) (known : List String) : Statement × List String :=
  ({ s with value := (s.value.fold false known).1 }, (s.value.fold false known).2)

end Statement

namespace Break

def piece : Break → Piece
  | none => {}
  | comma => { pending := [⟨Option.none, level⟩, ⟨some .clear, separatorPrec⟩] }
  | colon =>
    { pending := [⟨Option.none, level⟩, ⟨some .endInit, separatorPrec⟩], hasInit := true }

end Break

/-- What a word that branches adds to a draft. -/
def FlowWord.piece : FlowWord → Piece
  | .if => { pending := [⟨some .jumpOnFalse, 1⟩], words := [.if] }
  | .elseIf =>
    { pending := [⟨some .jump, 1⟩, ⟨none, level⟩, ⟨some .clear, separatorPrec⟩,
        ⟨some .jumpOnFalse, 1⟩], words := [.elseIf, .elseIf] }
  | .else => { pending := [⟨some .jump, 1⟩], words := [.else] }
  | .endIf => { pending := [⟨some .label, 1⟩], words := [.endIf] }

mutual

def Block.piece (b : Break) : Block → Piece
  | .nil => {}
  | .statement s next => b.piece ++ s.piece ++ next.piece .comma
  | .branch c body rest next =>
    b.piece ++ (FlowWord.if.piece ++ c.piece 0) ++ body.piece .comma ++ rest.piece
      ++ next.piece .comma

def Tail.piece : Tail → Piece
  | .endIf => Break.comma.piece ++ FlowWord.endIf.piece
  | .else body =>
    Break.comma.piece ++ FlowWord.else.piece ++ body.piece .comma
      ++ (Break.comma.piece ++ FlowWord.endIf.piece)
  | .elseIf c body rest =>
    Break.comma.piece ++ (FlowWord.elseIf.piece ++ c.piece 0) ++ body.piece .comma ++ rest.piece

end

mutual

/-- The block that is compiled, and the numbers that have a slot then. -/
def Block.fold : Block → List String → Block × List String
  | .nil, known => (.nil, known)
  | .statement s next, known =>
    let s := s.fold known
    let next := next.fold s.2
    (.statement s.1 next.1, next.2)
  | .branch c body rest next, known =>
    let c := c.fold false known
    let body := body.fold c.2
    let rest := rest.fold body.2
    let next := next.fold rest.2
    (.branch c.1 body.1 rest.1 next.1, next.2)

def Tail.fold : Tail → List String → Tail × List String
  | .endIf, known => (.endIf, known)
  | .else body, known =>
    let body := body.fold known
    (.else body.1, body.2)
  | .elseIf c body rest, known =>
    let c := c.fold false known
    let body := body.fold c.2
    let rest := rest.fold body.2
    (.elseIf c.1 body.1 rest.1, rest.2)

end

namespace Compile

/-- A place where a statement begins. -/
structure AtStart (d : Draft) : Prop where
  parens : d.parens = 0
  assignments : d.assignments = 0
  bar : d.bar = noBar
  wantsOperand : d.wantsOperand = true
  unsigned : Unsigned d.pending

/-- A place where a statement may end. -/
structure AtEnd (d : Draft) : Prop where
  bar : d.bar = noBar
  wantsOperand : d.wantsOperand = false

/-- A statement begins after `b`. -/
structure Breaks (d : Draft) (b : Break) : Prop where
  start : AtStart (d.takeAll b.lexemes)
  grows : Grows d (d.takeAll b.lexemes) b.piece
  slots : (d.takeAll b.lexemes).slots = d.slots

theorem AtStart.breaks {d : Draft} (h : AtStart d) : Breaks d .none :=
  ⟨h, .refl d, rfl⟩

theorem breaks_endStatement {d : Draft} (h : d.bar = noBar) (marker : Opcode)
    (hm : marker ≠ .neg) : AtStart (d.endStatement marker) ∧
      Grows d (d.endStatement marker)
        { pending := [⟨none, level⟩, ⟨some marker, separatorPrec⟩] } :=
  ⟨⟨rfl, rfl, h, rfl, .cons hm _ _⟩, rfl, List.prefix_refl _, ⟨[], rfl, .nil⟩, ⟨[], rfl, .nil⟩, rfl,
    (Bool.or_false _).symm⟩

theorem AtEnd.breaks {d : Draft} (h : AtEnd d) : Breaks d .comma := by
  have htake : d.takeAll Break.comma.lexemes = d.endStatement .clear := by
    simp [Draft.takeAll, Break.lexemes, Draft.take, Draft.operator, h.wantsOperand]
  obtain ⟨hstart, hgrows⟩ := breaks_endStatement h.bar .clear Opcode.noConfusion
  exact ⟨by rwa [htake], by rwa [htake], by rw [htake]; rfl⟩

theorem AtEnd.breaks_colon {d : Draft} (h : AtEnd d) : Breaks d .colon := by
  obtain ⟨hstart, hgrows⟩ := breaks_endStatement h.bar .endInit Opcode.noConfusion
  exact ⟨⟨hstart.1, hstart.2, hstart.3, hstart.4, hstart.5⟩,
    ⟨hgrows.pending, hgrows.slots, hgrows.loads, hgrows.stores, hgrows.jumps,
      (Bool.or_true _).symm⟩, rfl⟩

/-! ### Statements -/

theorem levels_le {e : Expr} (h : e.Legible) :
    e.levels ≤ 2 * e.depth + if e.hasBar then 1 else 0 := by
  induction e with
  | name | literal => exact Nat.zero_le _
  | group e ih =>
    have := ih h
    simp only [Expr.levels, Expr.depth, Expr.hasBar]
    split at this <;> simp <;> omega
  | call f e ih => exact ih h.2
  | minus e ih => exact ih h
  | binary o l r ihl ihr =>
    have hl := ihl h.2.1
    have hr := ihr h.2.2
    simp only [Expr.levels, Expr.depth, Expr.hasBar, Bool.or_eq_true]
    split at hl <;> split at hr <;> simp_all <;> omega
  | modulus e ih =>
    have := ih h.2
    rw [h.1] at this
    simp only [Expr.levels, Expr.depth, Expr.hasBar, if_true]
    simp at this
    omega

theorem fits_of_readable {d : Draft} {e : Expr} (h : Check.Frame.Readable e) (hp : d.parens = 0)
    (hb : d.bar = noBar) : Fits d e := by
  have hlevels := levels_le h.1
  have hdepth := h.2
  refine ⟨fun _ => ?_, .inl hb, ?_⟩
  · rw [hb, hp]
    decide
  · rw [hp]
    show 0 + (e.levels : Int) < 999
    split at hlevels <;> omega

theorem receives_of_readable {d : Draft} {known : List String} {e : Expr}
    (h : Check.Frame.Readable e) (hs : ∀ l ∈ e.lexemes, l.Spelled) (hsound : Sound d.slots known)
    (hp : d.parens = 0) (hb : d.bar = noBar) (hw : d.wantsOperand = true)
    (hu : Unsigned d.pending) : Receives d d.pending known false e :=
  ⟨hs, hsound, fits_of_readable h hp hb, hw, .unsigned fun _ => hu⟩

/-- The variable to the left of an assignment is stored to instead of being loaded. -/
theorem grows_target {d : Draft} {known : List String} {v : String} (h : Sound d.slots known)
    (hv : Lexeme.IsName v) :
    let d' := d.takeAll [.name v, .operator .assign]
    Grows d d' { pending := [⟨some .store, d.prec 5⟩], targets := [v] } ∧ d'.parens = d.parens ∧
      d'.assignments = d.assignments + 1 ∧ d'.bar = d.bar ∧ d'.wantsOperand = true ∧
      Sound d'.slots known := by
  obtain ⟨hgrows, hpasses, hsound⟩ := grows_name h hv
  have htake : d.takeAll [.name v, .operator .assign] = (d.take (.name v)).assign := rfl
  rw [htake]
  generalize d.take (.name v) = d₁ at hgrows hpasses hsound
  obtain ⟨idx, hloads, hidx⟩ := hgrows.loads
  obtain ⟨nostores, hstores, hnone⟩ := hgrows.stores
  obtain ⟨i, hi, rfl⟩ : ∃ i, Holds d₁.slots i (.name v) ∧ idx = [i] := by
    obtain ⟨i, is, hi, his, rfl⟩ := List.forall₂_cons_right_iff.mp hidx
    obtain rfl := List.forall₂_nil_right_iff.mp his
    exact ⟨i, hi, rfl⟩
  obtain rfl := List.forall₂_nil_right_iff.mp hnone
  have hpending : d₁.pending = _ :: d.pending := hgrows.pending
  have hassign : d₁.assign = { d₁ with
      pending := ⟨some .store, d₁.prec 5⟩ :: d.pending, loads := d.loads,
      stores := i :: d₁.stores, wantsOperand := true, assignments := d₁.assignments + 1 } := by
    simp [Draft.assign, hpending, hloads, Draft.prec]
  have hprec : d₁.prec 5 = d.prec 5 := by
    rw [Draft.prec, hpasses.parens, hpasses.assignments]
    rfl
  rw [hassign, hprec, hpasses.assignments]
  refine ⟨⟨rfl, hgrows.slots, ⟨[], rfl, .nil⟩, ⟨[i], ?_, .cons hi .nil⟩, hgrows.jumps,
    hgrows.hasInit⟩, hpasses.parens, rfl, hpasses.bar, rfl, hsound⟩
  show i :: d₁.stores = [i].reverse ++ d.stores
  rw [hstores]
  rfl

theorem grows_targets (targets : List String) : ∀ {d : Draft} {known : List String} {n : Int},
    (∀ v ∈ targets, Lexeme.IsName v) → Sound d.slots known → d.parens = 0 → d.assignments = n →
    d.bar = noBar → d.wantsOperand = true → Unsigned d.pending →
    let d' := d.takeAll (targets.flatMap fun v => [.name v, .operator .assign])
    Grows d d' { pending := Statement.storesFrom n targets, targets } ∧ d'.parens = 0 ∧
      d'.assignments = n + targets.length ∧ d'.bar = noBar ∧ d'.wantsOperand = true ∧
      Unsigned d'.pending ∧ Sound d'.slots known := by
  induction targets with
  | nil =>
    intro d known n _ hsound hp ha hb hw hu
    exact ⟨.refl d, hp, ha.trans (Int.add_zero n).symm, hb, hw, hu, hsound⟩
  | cons v targets ih =>
    intro d known n hnames hsound hp ha hb hw hu
    obtain ⟨hgrows, hp₁, ha₁, hb₁, hw₁, hsound₁⟩ :=
      grows_target hsound (hnames v List.mem_cons_self)
    have htake : d.takeAll ((v :: targets).flatMap fun v => [.name v, .operator .assign]) =
        (d.takeAll [.name v, .operator .assign]).takeAll
          (targets.flatMap fun v => [.name v, .operator .assign]) := by
      rw [List.flatMap_cons, Draft.takeAll_append]
    have hu₁ : Unsigned (d.takeAll [.name v, .operator .assign]).pending := by
      rw [hgrows.pending]
      exact .cons Opcode.noConfusion _ _
    obtain ⟨hgrows', hp', ha', hb', hw', hu', hsound'⟩ := ih (n := n + 1)
      (fun w hw => hnames w (List.mem_cons_of_mem _ hw)) hsound₁ (hp₁.trans hp) (by rw [ha₁, ha])
      (hb₁.trans hb) hw₁ hu₁
    have hprec : d.prec 5 = 5 - n * level := by rw [Draft.prec, hp, ha, Int.zero_add]
    dsimp only
    rw [htake]
    refine ⟨?_, hp', ?_, hb', hw', hu', hsound'⟩
    · have := hgrows.trans hgrows'
      rwa [hprec] at this
    · rw [ha', List.length_cons]
      omega

theorem grows_statement {s : Statement} {d : Draft} {known : List String}
    (h : Check.Frame.Readable s.value) (hs : ∀ l ∈ s.lexemes, l.Spelled)
    (hsound : Sound d.slots known) (hd : AtStart d) :
    Grows d (d.takeAll s.lexemes) (s.fold known).1.piece ∧ AtEnd (d.takeAll s.lexemes) ∧
      Sound (d.takeAll s.lexemes).slots (s.fold known).2 := by
  have hnames : ∀ v ∈ s.targets, Lexeme.IsName v := fun v hv =>
    hs (.name v) (List.mem_append_left _ (List.mem_flatMap.mpr ⟨v, hv, List.mem_cons_self⟩))
  obtain ⟨hgrows, hp, ha, hb, hw, hu, hsound₁⟩ := grows_targets s.targets hnames hsound hd.parens
    hd.assignments hd.bar hd.wantsOperand hd.unsigned
  rw [Statement.lexemes, Draft.takeAll_append]
  generalize Draft.takeAll d _ = d₁ at hgrows hp ha hb hw hu hsound₁
  obtain ⟨hgrows', hpasses, hsound'⟩ := (receives_of_readable h
    (fun l hl => hs l (List.mem_append_right _ hl)) hsound₁ hp hb hw hu).becomes h.1
  have hlevel : d₁.parens + d₁.assignments = s.targets.length := by omega
  rw [hlevel] at hgrows'
  exact ⟨hgrows.trans hgrows', ⟨hpasses.bar.trans hb, hpasses.wantsOperand⟩, hsound'⟩

/-! ### Branches -/

theorem grows_flow {d : Draft} (hd : AtStart d) (w : FlowWord) :
    Grows d (d.take (.flow w)) w.piece ∧
      (if w.takesCondition then AtStart (d.take (.flow w)) else AtEnd (d.take (.flow w))) ∧
      (d.take (.flow w)).slots = d.slots := by
  cases w with
  | «if» | elseIf =>
    exact ⟨⟨rfl, List.prefix_refl _, ⟨[], rfl, .nil⟩, ⟨[], rfl, .nil⟩, rfl,
      (Bool.or_false _).symm⟩, ⟨hd.parens, hd.assignments, hd.bar, rfl,
      .cons Opcode.noConfusion _ _⟩, rfl⟩
  | «else» | endIf =>
    exact ⟨⟨rfl, List.prefix_refl _, ⟨[], rfl, .nil⟩, ⟨[], rfl, .nil⟩, rfl,
      (Bool.or_false _).symm⟩, ⟨hd.bar, rfl⟩, rfl⟩

/-- A condition with the word in front of it. -/
theorem grows_condition {w : FlowWord} (hcond : w.takesCondition = true) {c : Expr} {d : Draft}
    {known : List String} (h : Check.Frame.Readable c) (hs : ∀ l ∈ c.lexemes, l.Spelled)
    (hsound : Sound d.slots known) (hd : AtStart d) :
    Grows d (d.takeAll (.flow w :: c.lexemes)) (w.piece ++ (c.fold false known).1.piece 0) ∧
      AtEnd (d.takeAll (.flow w :: c.lexemes)) ∧
      Sound (d.takeAll (.flow w :: c.lexemes)).slots (c.fold false known).2 := by
  obtain ⟨hgrows, hstart, hslots⟩ := grows_flow hd w
  rw [if_pos hcond] at hstart
  rw [Draft.takeAll_cons]
  generalize d.take (.flow w) = d₁ at hgrows hstart hslots
  obtain ⟨hgrows', hpasses, hsound'⟩ := (receives_of_readable h hs (hslots ▸ hsound) hstart.parens
    hstart.bar hstart.wantsOperand hstart.unsigned).becomes h.1
  have hlevel : d₁.parens + d₁.assignments = 0 := by rw [hstart.parens, hstart.assignments]; rfl
  rw [hlevel] at hgrows'
  exact ⟨hgrows.trans hgrows', ⟨hpasses.bar.trans hstart.bar, hpasses.wantsOperand⟩, hsound'⟩

/-- A word that ends its statement, with the comma in front of it. -/
theorem grows_word {w : FlowWord} (hcond : w.takesCondition = false) {d : Draft} (hd : AtEnd d) :
    Grows d (d.takeAll [.operator .comma, .flow w]) (Break.comma.piece ++ w.piece) ∧
      AtEnd (d.takeAll [.operator .comma, .flow w]) ∧
      (d.takeAll [.operator .comma, .flow w]).slots = d.slots := by
  have hb := hd.breaks
  obtain ⟨hgrows, hend, hslots⟩ := grows_flow hb.start w
  rw [hcond] at hend
  exact ⟨hb.grows.trans hgrows, hend, hslots.trans hb.slots⟩

mutual

theorem grows_block {b : Break} : ∀ {x : Block} {d : Draft} {known : List String},
    x.All Check.Frame.Readable → (∀ l ∈ x.lexemes b, l.Spelled) → Sound d.slots known →
    (x = .nil → AtEnd d) → Breaks d b →
    Grows d (d.takeAll (x.lexemes b)) ((x.fold known).1.piece b) ∧
      AtEnd (d.takeAll (x.lexemes b)) ∧ Sound (d.takeAll (x.lexemes b)).slots (x.fold known).2
  | .nil, d, _, _, _, hsound, hend, _ => ⟨.refl d, hend rfl, hsound⟩
  | .statement s next, d, known, h, hs, hsound, _, hb => by
    rw [Block.lexemes] at hs ⊢
    rw [Draft.takeAll_append, Draft.takeAll_append]
    have hs₀ : ∀ l ∈ s.lexemes, l.Spelled := fun l hl =>
      hs l (List.mem_append_left _ (List.mem_append_right _ hl))
    obtain ⟨hgrows₁, hend₁, hsound₁⟩ := grows_statement h.1 hs₀ (hb.slots ▸ hsound) hb.start
    obtain ⟨hgrows₂, hend₂, hsound₂⟩ := grows_block (x := next) h.2
      (fun l hl => hs l (List.mem_append_right _ hl)) hsound₁ (fun _ => hend₁) hend₁.breaks
    exact ⟨(hb.grows.trans hgrows₁).trans hgrows₂, hend₂, hsound₂⟩
  | .branch c body rest next, d, known, h, hs, hsound, _, hb => by
    obtain ⟨⟨-, hc⟩, hbody, hrest, hnext⟩ := h
    rw [Block.lexemes, List.append_assoc, List.append_assoc, List.append_assoc] at hs
    have hlex : (Block.branch c body rest next).lexemes b = b.lexemes ++ (.flow .if :: c.lexemes)
        ++ body.lexemes .comma ++ rest.lexemes ++ next.lexemes .comma := by
      rw [Block.lexemes]
    rw [hlex, Draft.takeAll_append, Draft.takeAll_append, Draft.takeAll_append,
      Draft.takeAll_append]
    obtain ⟨hgrows₁, hend₁, hsound₁⟩ := grows_condition (w := .if) rfl hc
      (fun l hl => hs l (by simp [hl])) (hb.slots ▸ hsound) hb.start
    obtain ⟨hgrows₂, hend₂, hsound₂⟩ := grows_block (x := body) hbody
      (fun l hl => hs l (by simp [hl])) hsound₁ (fun _ => hend₁) hend₁.breaks
    obtain ⟨hgrows₃, hend₃, hsound₃⟩ := grows_tail (x := rest) hrest
      (fun l hl => hs l (by simp [hl])) hsound₂ hend₂
    obtain ⟨hgrows₄, hend₄, hsound₄⟩ := grows_block (x := next) hnext
      (fun l hl => hs l (by simp [hl])) hsound₃ (fun _ => hend₃) hend₃.breaks
    exact ⟨(((hb.grows.trans hgrows₁).trans hgrows₂).trans hgrows₃).trans hgrows₄, hend₄, hsound₄⟩

theorem grows_tail : ∀ {x : Tail} {d : Draft} {known : List String},
    x.All Check.Frame.Readable → (∀ l ∈ x.lexemes, l.Spelled) → Sound d.slots known → AtEnd d →
    Grows d (d.takeAll x.lexemes) (x.fold known).1.piece ∧ AtEnd (d.takeAll x.lexemes) ∧
      Sound (d.takeAll x.lexemes).slots (x.fold known).2
  | .endIf, d, known, _, _, hsound, hd => by
    obtain ⟨hgrows, hend, hslots⟩ := grows_word (w := .endIf) rfl hd
    exact ⟨hgrows, hend, by rw [Tail.lexemes, hslots]; exact hsound⟩
  | .else body, d, known, h, hs, hsound, hd => by
    obtain ⟨hgrows₁, hend₁, hslots₁⟩ := grows_word (w := .else) rfl hd
    have hlex : (Tail.else body).lexemes = [.operator .comma, .flow .else] ++ body.lexemes .comma
        ++ [.operator .comma, .flow .endIf] := by
      rw [Tail.lexemes]
      rfl
    rw [hlex] at hs
    rw [hlex, Draft.takeAll_append, Draft.takeAll_append]
    obtain ⟨hgrows₂, hend₂, hsound₂⟩ := grows_block (x := body) h
      (fun l hl => hs l (by simp [hl])) (hslots₁ ▸ hsound) (fun _ => hend₁) hend₁.breaks
    obtain ⟨hgrows₃, hend₃, hslots₃⟩ := grows_word (w := .endIf) rfl hend₂
    exact ⟨(hgrows₁.trans hgrows₂).trans hgrows₃, hend₃, hslots₃ ▸ hsound₂⟩
  | .elseIf c body rest, d, known, h, hs, hsound, hd => by
    obtain ⟨⟨-, hc⟩, hbody, hrest⟩ := h
    have hb := hd.breaks
    have hlex : (Tail.elseIf c body rest).lexemes = Break.comma.lexemes
        ++ (.flow .elseIf :: c.lexemes) ++ body.lexemes .comma ++ rest.lexemes := by
      rw [Tail.lexemes]
      rfl
    rw [hlex] at hs
    rw [hlex, Draft.takeAll_append, Draft.takeAll_append, Draft.takeAll_append]
    obtain ⟨hgrows₁, hend₁, hsound₁⟩ := grows_condition (w := .elseIf) rfl hc
      (fun l hl => hs l (by simp [hl])) (hb.slots ▸ hsound) hb.start
    obtain ⟨hgrows₂, hend₂, hsound₂⟩ := grows_block (x := body) hbody
      (fun l hl => hs l (by simp [hl])) hsound₁ (fun _ => hend₁) hend₁.breaks
    obtain ⟨hgrows₃, hend₃, hsound₃⟩ := grows_tail (x := rest) hrest
      (fun l hl => hs l (by simp [hl])) hsound₂ hend₂
    exact ⟨((hb.grows.trans hgrows₁).trans hgrows₂).trans hgrows₃, hend₃, hsound₃⟩

end

end Compile

/-! ## Whole bodies -/

namespace Source

def piece (s : Source) : Piece :=
  match s.init with
  | none => s.loop.piece .none
  | some b => b.piece .none ++ s.loop.piece .colon

/-- The body that is compiled. -/
def fold (s : Source) : Source :=
  match s.init with
  | none => ⟨none, (s.loop.fold []).1⟩
  | some b => ⟨some (b.fold []).1, (s.loop.fold (b.fold []).2).1⟩

/-- The lexemes without the closing brace. -/
def body (s : Source) : List Lexeme :=
  match s.init with
  | none => s.loop.lexemes .none
  | some b => b.lexemes .none ++ s.loop.lexemes .colon

theorem lexemes_eq (s : Source) : s.lexemes = s.body ++ [.close] := by
  rw [lexemes, body]
  cases s.init <;> rfl

end Source

namespace Lexeme

/-- Nothing from here on becomes code. -/
def isEnd : Lexeme → Bool
  | .close | .fault _ => true
  | _ => false

end Lexeme

theorem Expr.isEnd_eq_false {e : Expr} : ∀ l ∈ e.lexemes, l.isEnd = false := by
  induction e with
  | name | literal =>
    intro l hl
    rw [List.mem_singleton.mp hl]
    rfl
  | group e ih | modulus e ih =>
    intro l hl
    simp only [Expr.lexemes, List.cons_append, List.mem_cons, List.mem_append, List.not_mem_nil,
      or_false] at hl
    rcases hl with rfl | hl | rfl
    · rfl
    · exact ih l hl
    · rfl
  | call f e ih | minus e ih =>
    intro l hl
    rcases List.mem_cons.mp hl with rfl | hl
    · rfl
    · exact ih l hl
  | binary o l r ihl ihr =>
    intro x hx
    simp only [Expr.lexemes, List.mem_append, List.mem_cons] at hx
    rcases hx with hx | rfl | hx
    · exact ihl x hx
    · rfl
    · exact ihr x hx

theorem Statement.isEnd_eq_false {s : Statement} : ∀ l ∈ s.lexemes, l.isEnd = false := by
  intro l hl
  rcases List.mem_append.mp hl with hl | hl
  · obtain ⟨v, -, hl⟩ := List.mem_flatMap.mp hl
    simp only [List.mem_cons, List.not_mem_nil, or_false] at hl
    rcases hl with rfl | rfl <;> rfl
  · exact Expr.isEnd_eq_false l hl

theorem Break.isEnd_eq_false {b : Break} : ∀ l ∈ b.lexemes, l.isEnd = false := by
  intro l hl
  cases b with
  | none => exact absurd hl List.not_mem_nil
  | comma | colon =>
    rw [List.mem_singleton.mp hl]
    rfl

mutual

theorem Block.isEnd_eq_false {b : Break} :
    ∀ (x : Block), ∀ l ∈ x.lexemes b, l.isEnd = false
  | .nil, l, hl => absurd hl List.not_mem_nil
  | .statement s next, l, hl => by
    simp only [Block.lexemes, List.mem_append] at hl
    rcases hl with (hl | hl) | hl
    · exact Break.isEnd_eq_false l hl
    · exact Statement.isEnd_eq_false l hl
    · exact Block.isEnd_eq_false next l hl
  | .branch c body rest next, l, hl => by
    simp only [Block.lexemes, List.mem_append, List.mem_cons] at hl
    rcases hl with (((hl | rfl | hl) | hl) | hl) | hl
    · exact Break.isEnd_eq_false l hl
    · rfl
    · exact Expr.isEnd_eq_false l hl
    · exact Block.isEnd_eq_false body l hl
    · exact Tail.isEnd_eq_false rest l hl
    · exact Block.isEnd_eq_false next l hl

theorem Tail.isEnd_eq_false : ∀ (x : Tail), ∀ l ∈ x.lexemes, l.isEnd = false
  | .endIf, l, hl => by
    simp only [Tail.lexemes, List.mem_cons, List.not_mem_nil, or_false] at hl
    rcases hl with rfl | rfl <;> rfl
  | .else body, l, hl => by
    simp only [Tail.lexemes, List.cons_append, List.mem_append, List.mem_cons, List.not_mem_nil,
      or_false] at hl
    rcases hl with rfl | rfl | hl | rfl | rfl
    · rfl
    · rfl
    · exact Block.isEnd_eq_false body l hl
    · rfl
    · rfl
  | .elseIf c body rest, l, hl => by
    simp only [Tail.lexemes, List.cons_append, List.mem_append, List.mem_cons] at hl
    rcases hl with rfl | rfl | (hl | hl) | hl
    · rfl
    · rfl
    · exact Expr.isEnd_eq_false l hl
    · exact Block.isEnd_eq_false body l hl
    · exact Tail.isEnd_eq_false rest l hl

end

theorem Source.isEnd_eq_false (s : Source) : ∀ l ∈ s.body, l.isEnd = false := by
  intro l hl
  obtain ⟨init, loop⟩ := s
  cases init with
  | none => exact loop.isEnd_eq_false l hl
  | some init =>
    rcases List.mem_append.mp hl with hl | hl
    · exact init.isEnd_eq_false l hl
    · exact loop.isEnd_eq_false l hl

namespace Compile

/-! ### Tokens that become code -/

/-- A comma without a statement before it does nothing. -/
theorem Draft.takeAll_dropWhile {d : Draft} (h : d.wantsOperand = true) (ls : List Lexeme) :
    d.takeAll (ls.dropWhile (· == .operator .comma)) = d.takeAll ls := by
  induction ls with
  | nil => rfl
  | cons l ls ih =>
    rw [List.dropWhile_cons]
    by_cases hl : (l == .operator .comma) = true
    · obtain rfl := eq_of_beq hl
      have htake : d.take (.operator .comma) = d := if_pos h
      rw [if_pos hl, ih, Draft.takeAll_cons, htake]
    · rw [if_neg hl]

theorem map_significant (tokens : List Token) :
    (significant tokens).map Token.lexeme =
      ((tokens.map Token.lexeme).dropWhile (· == .operator .comma)).takeWhile (!·.isEnd) := by
  have hcomma : (fun t : Token => t.kind == .operator .comma) =
      (fun l : Lexeme => l == .operator .comma) ∘ Token.lexeme := by
    funext t
    obtain ⟨text, kind, span⟩ := t
    cases kind with
    | operator o => cases o <;> rfl
    | _ => rfl
  have hend : (fun t : Token => !(t.kind == .close || t.isFault)) =
      (fun l : Lexeme => !l.isEnd) ∘ Token.lexeme := by
    funext t
    obtain ⟨text, kind, span⟩ := t
    cases kind <;> rfl
  rw [significant, hcomma, hend, List.dropWhile_map, List.takeWhile_map]

theorem untilFault_append {pre tokens : List Token} (h : ∀ t ∈ pre, t.isFault = false) :
    Token.untilFault (pre ++ tokens) = pre ++ Token.untilFault tokens := by
  induction pre with
  | nil => rfl
  | cons t pre ih =>
    have ht : ¬ t.isFault = true := by rw [h t List.mem_cons_self]; exact Bool.false_ne_true
    rw [List.cons_append, Token.untilFault, if_neg ht,
      ih fun u hu => h u (List.mem_cons_of_mem _ hu)]
    rfl

theorem isEnd_lexeme (t : Token) : t.lexeme.isEnd = (t.kind == .close || t.isFault) := by
  obtain ⟨text, kind, span⟩ := t
  cases kind <;> rfl

/-- The tokens up to the closing brace become code, commas in front included: they do nothing. -/
theorem foldl_significant_append {pre rest : List Token} {t : Token} (ht : t.kind = .close)
    (h : ∀ u ∈ pre, (u.kind == .close || u.isFault) = false) (env : Environment) :
    (significant (Token.untilFault (pre ++ t :: rest))).foldl Draft.token (.start env) =
      (Draft.start env).takeAll (pre.map Token.lexeme) := by
  have hfault : ∀ u ∈ pre, u.isFault = false := fun u hu => (Bool.or_eq_false_iff.mp (h u hu)).2
  have hclose : Token.untilFault (t :: rest) = t :: Token.untilFault rest := by
    have hno : ¬ t.isFault = true := by simp [Token.isFault, ht]
    rw [Token.untilFault, if_neg hno]
  have hlex : t.lexeme = .close := by rw [Token.lexeme, ht]
  have hend : ∀ l ∈ (pre.map Token.lexeme).dropWhile (· == .operator .comma),
      (!l.isEnd) = true := by
    intro l hl
    obtain ⟨u, hu, rfl⟩ := List.mem_map.mp ((List.dropWhile_suffix _).subset hl)
    rw [isEnd_lexeme, h u hu]
    rfl
  have hdrop (ls : List Lexeme) : (pre.map Token.lexeme ++ .close :: ls).dropWhile
      (· == .operator .comma) =
      (pre.map Token.lexeme).dropWhile (· == .operator .comma) ++ .close :: ls := by
    rw [List.dropWhile_append]
    split
    · rename_i hempty
      rw [List.isEmpty_iff.mp hempty]
      rfl
    · rfl
  rw [untilFault_append hfault, hclose, Draft.foldl_token, map_significant, List.map_append,
    List.map_cons, hlex, hdrop, List.takeWhile_append_of_pos hend, List.takeWhile_cons]
  exact (congrArg _ (List.append_nil _)).trans (Draft.takeAll_dropWhile rfl _)

/-- The lexemes that become code are those between a separator in front and the closing brace. -/
theorem foldl_significant {s : Source} {tokens : List Token} (h : s.Renders tokens)
    (env : Environment) :
    (significant (Token.untilFault tokens)).foldl Draft.token (.start env) =
      (Draft.start env).takeAll s.body := by
  obtain ⟨b, hb, htokens⟩ := h
  rw [s.lexemes_eq, ← List.append_assoc] at htokens
  obtain ⟨pre, last, rfl, hpre, hlast⟩ := List.map_eq_append_iff.mp htokens
  obtain ⟨t, rfl, ht⟩ := List.map_eq_singleton_iff.mp hlast
  have hclose : t.kind = .close := by
    obtain ⟨text, kind, span⟩ := t
    cases kind <;> first | rfl | cases ht
  have hend : ∀ u ∈ pre, (u.kind == .close || u.isFault) = false := by
    intro u hu
    rw [← isEnd_lexeme]
    have hmem : u.lexeme ∈ b.lexemes ++ s.body := hpre ▸ List.mem_map_of_mem hu
    exact (List.mem_append.mp hmem).elim (Break.isEnd_eq_false _) (s.isEnd_eq_false _)
  have hlead : (Draft.start env).takeAll (b.lexemes ++ s.body) =
      (Draft.start env).takeAll s.body := by
    cases b with
    | none => rfl
    | comma => rfl
    | colon => exact absurd rfl hb
  rw [foldl_significant_append hclose hend, hpre, hlead]

theorem grows_source {s : Source} (env : Environment) (h : s.All Check.Frame.Readable)
    (hs : ∀ l ∈ s.body, l.Spelled) :
    Grows (.start env) ((Draft.start env).takeAll s.body) s.fold.piece ∧
      ∃ known, Sound ((Draft.start env).takeAll s.body).slots known := by
  have hstart : AtStart (.start env) :=
    ⟨rfl, rfl, rfl, rfl, fun p hp => absurd hp (by simp [Draft.start])⟩
  have hsound : Sound (Draft.start env).slots [] := .start env
  obtain ⟨init, loop⟩ := s
  cases init with
  | none =>
    by_cases hnil : loop = .nil
    · subst hnil
      exact ⟨.refl _, [], hsound⟩
    · obtain ⟨hgrows, -, hsound'⟩ :=
        grows_block h.2 hs hsound (fun h => absurd h hnil) hstart.breaks
      exact ⟨hgrows, _, hsound'⟩
  | some init =>
    obtain ⟨hnil, hloop, hinit⟩ := h.1 init rfl
    obtain ⟨hgrows, hend, hsound'⟩ := grows_block hinit
      (fun l hl => hs l (List.mem_append_left _ hl)) hsound (fun h => absurd h hnil) hstart.breaks
    obtain ⟨hgrows', -, hsound''⟩ := grows_block h.2
      (fun l hl => hs l (List.mem_append_right _ hl)) hsound' (fun h => absurd h hloop)
      hend.breaks_colon
    have htake : (Draft.start env).takeAll (Source.body ⟨some init, loop⟩) =
        ((Draft.start env).takeAll (init.lexemes .none)).takeAll (loop.lexemes .colon) :=
      Draft.takeAll_append _ _ _
    rw [htake]
    exact ⟨hgrows.trans hgrows', _, hsound''⟩

end Compile

/-- The tables of the program of a body that `s` renders. -/
structure Compiled (s : Source) (env : Environment) (p : Program) : Prop where
  code : p.code = Pending.linearize s.fold.piece.pending
  loads : List.Forall₂ (Holds p.slots) p.loads s.fold.piece.operands
  stores : List.Forall₂ (Holds p.slots) p.stores (s.fold.piece.targets.map .name)
  jumps : p.jumps = s.fold.piece.words.map .unresolved
  hasInit : p.hasInit = s.fold.piece.hasInit
  builtin : Draft.builtinSlots env <+: p.slots
  sound : ∃ known, Sound p.slots known

theorem compile_of_renders {s : Source} {text : String} {offset : Nat}
    (h : s.All Check.Frame.Readable) (hrender : s.Renders (Token.stream (Cursor.seek text offset)))
    (env : Environment) : Compiled s env (compile (Token.body text offset) env) := by
  have hspelled : ∀ l ∈ s.body, l.Spelled := by
    intro l hl
    obtain ⟨b, -, htokens⟩ := hrender
    have hmem : l ∈ (Token.stream (Cursor.seek text offset)).map Token.lexeme := by
      rw [htokens, s.lexemes_eq]
      exact List.mem_append_right _ (List.mem_append_left _ hl)
    obtain ⟨t, ht, rfl⟩ := List.mem_map.mp hmem
    exact Token.spelled_of_mem_stream ht
  obtain ⟨hgrows, hsound⟩ := grows_source env h hspelled
  obtain ⟨loads, hloads, hoperands⟩ := hgrows.loads
  obtain ⟨stores, hstores, htargets⟩ := hgrows.stores
  have hcompile : compile (Token.body text offset) env =
      ((Draft.start env).takeAll s.body).finish
        (String.join ((significant (Token.body text offset)).map Token.text)) := by
    rw [← foldl_significant hrender env]
    rfl
  rw [hcompile]
  generalize (Draft.start env).takeAll s.body = d at *
  refine ⟨?_, ?_, ?_, ?_, ?_, hgrows.slots, hsound⟩
  · show Pending.linearize d.pending.reverse = _
    rw [hgrows.pending]
    simp [Draft.start]
  · show List.Forall₂ _ d.loads.reverse _
    rw [hloads, List.reverse_append, List.reverse_reverse]
    exact hoperands
  · show List.Forall₂ _ d.stores.reverse _
    rw [hstores, List.reverse_append, List.reverse_reverse]
    exact htargets
  · show d.jumps.reverse = _
    rw [hgrows.jumps]
    simp [Draft.start]
  · exact hgrows.hasInit

end FractalFormula
