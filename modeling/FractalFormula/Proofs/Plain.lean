/-
Bodies without minus signs and bars.

Nothing is folded in them, so a conventional tree of such a body is compiled as it stands
(`Source.tables_of_parse`).  `statements_in_postorder` spells this out for a list of statements.
-/
import FractalFormula.Proofs.Postorder

namespace FractalFormula

open Compile

mutual

theorem Block.All.mono {P Q : Expr → Prop} (hPQ : ∀ e, P e → Q e) :
    ∀ {x : Block}, x.All P → x.All Q
  | .nil, _ => trivial
  | .statement _ _, h => ⟨hPQ _ h.1, Block.All.mono hPQ h.2⟩
  | .branch _ _ _ _, h =>
    ⟨⟨h.1.1, hPQ _ h.1.2⟩, Block.All.mono hPQ h.2.1, Tail.All.mono hPQ h.2.2.1,
      Block.All.mono hPQ h.2.2.2⟩

theorem Tail.All.mono {P Q : Expr → Prop} (hPQ : ∀ e, P e → Q e) :
    ∀ {x : Tail}, x.All P → x.All Q
  | .endIf, _ => trivial
  | .else body, h => Block.All.mono (x := body) hPQ h
  | .elseIf _ _ _, h =>
    ⟨⟨h.1.1, hPQ _ h.1.2⟩, Block.All.mono hPQ h.2.1, Tail.All.mono hPQ h.2.2⟩

end

theorem Source.All.mono {P Q : Expr → Prop} (hPQ : ∀ e, P e → Q e) {s : Source} (h : s.All P) :
    s.All Q :=
  ⟨fun b hb => ⟨(h.1 b hb).1, (h.1 b hb).2.1, (h.1 b hb).2.2.mono hPQ⟩, h.2.mono hPQ⟩

/-! ## Nothing is folded -/

theorem Expr.Plain.fold_eq {e : Expr} (h : e.Plain) : ∀ known, (e.fold false known).1 = e := by
  induction e with
  | name | literal => exact fun _ => rfl
  | group e ih => exact fun known => congrArg group (ih h known)
  | call f e ih => exact fun known => congrArg (call f) (ih h.2 known)
  | binary o l r ihl ihr =>
    intro known
    rw [fold, ihl h.1, ihr h.2]
  | minus | modulus => exact h.elim

mutual

theorem Block.fold_eq : ∀ {x : Block}, x.All Expr.Plain → ∀ known, (x.fold known).1 = x
  | .nil, _, _ => rfl
  | .statement s next, h, known => by
    simp only [Block.fold, Statement.fold, h.1.fold_eq, next.fold_eq h.2]
  | .branch c body rest next, h, known => by
    simp only [Block.fold, h.1.2.fold_eq, body.fold_eq h.2.1, rest.fold_eq h.2.2.1,
      next.fold_eq h.2.2.2]

theorem Tail.fold_eq : ∀ {x : Tail}, x.All Expr.Plain → ∀ known, (x.fold known).1 = x
  | .endIf, _, _ => rfl
  | .else body, h, known => by
    simp only [Tail.fold, body.fold_eq h]
  | .elseIf c body rest, h, known => by
    simp only [Tail.fold, h.1.2.fold_eq, body.fold_eq h.2.1, rest.fold_eq h.2.2]

end

theorem Source.fold_eq {s : Source} (h : s.All Expr.Plain) : s.fold = s := by
  obtain ⟨init, loop⟩ := s
  cases init with
  | none => exact congrArg (Source.mk none) (Block.fold_eq h.2 _)
  | some init =>
    show Source.mk (some (init.fold []).1) (loop.fold (init.fold []).2).1 = _
    rw [Block.fold_eq (h.1 init rfl).2.2, Block.fold_eq h.2]

/-! ## Parses -/

/-- The tree of an expression as the language has it, without minus signs and bars. -/
structure Expr.Parsed (e : Expr) : Prop where
  plain : e.Plain
  conventional : e.Conventional
  depth : e.depth < 64

theorem Expr.Parsed.readable {e : Expr} (h : e.Parsed) : Check.Frame.Readable e :=
  ⟨h.plain.legible, h.depth⟩

theorem Expr.Parsed.settled {e : Expr} (h : e.Parsed) : Settled e := by
  refine ⟨h.plain.untied h.conventional, ?_⟩
  have hdepth := h.depth
  have hlevels := levels_le h.plain.legible
  split at hlevels <;> omega

theorem Source.tables_of_parse {s : Source} {text : String} {offset : Nat}
    (h : s.All Expr.Parsed) (hrender : s.Renders (Token.stream (Cursor.seek text offset)))
    (env : Environment) : s.Tables (compile (Token.body text offset) env) := by
  have hcompiled := compile_of_renders (h.mono fun _ => Expr.Parsed.readable) hrender env
  have hfold : s.fold = s := s.fold_eq (h.mono fun _ => Expr.Parsed.plain)
  have := s.tables_of_compiled hcompiled (by
    rw [hfold]
    exact h.mono fun _ => Expr.Parsed.settled)
  rwa [hfold] at this

/-! ## Lists of statements -/

def Block.ofStatements : List Statement → Block
  | [] => .nil
  | s :: rest => .statement s (ofStatements rest)

/-- `s'` is the parse of a statement `s` of which only the lexemes are known. -/
structure Statement.Parses (s' s : Statement) : Prop where
  targets : s'.targets = s.targets
  lexemes : s'.value.lexemes = s.value.lexemes
  parsed : s'.value.Parsed

theorem Statement.exists_parses {s : Statement} (h : s.value.Plain ∧ s.value.depth < 64) :
    ({ s with value := s.value.rebuild } : Statement).Parses s :=
  ⟨rfl, s.value.lexemes_rebuild,
    h.1.rebuild, h.1.conventional_rebuild, by rw [s.value.depth_rebuild]; exact h.2⟩

namespace Block

theorem all_ofStatements {P : Expr → Prop} {l : List Statement} (h : ∀ s ∈ l, P s.value) :
    (ofStatements l).All P := by
  induction l with
  | nil => trivial
  | cons s l ih =>
    exact ⟨h s List.mem_cons_self, ih fun t ht => h t (List.mem_cons_of_mem _ ht)⟩

theorem lexemes_ofStatements {parse l : List Statement}
    (h : List.Forall₂ Statement.Parses parse l) : ∀ b : Break,
    (ofStatements parse).lexemes b = (ofStatements l).lexemes b := by
  induction h with
  | nil => exact fun _ => rfl
  | cons hs _ ih =>
    intro b
    simp only [ofStatements, lexemes, Statement.lexemes, hs.targets, hs.lexemes, ih]

theorem code_ofStatements (l : List Statement) :
    (ofStatements l).code .none = [Opcode.clear].intercalate (l.map Statement.code) := by
  have hrest (l : List Statement) : (ofStatements l).code .comma =
      (l.map fun s => .clear :: s.code).flatten := by
    induction l with
    | nil => rfl
    | cons s l ih => simp [ofStatements, code, Break.code, ih]
  cases l with
  | nil => rfl
  | cons s l =>
    simp only [ofStatements, code, Break.code, hrest, List.nil_append, List.map_cons]
    induction l generalizing s with
    | nil => simp
    | cons t l ih =>
      rw [List.map_cons, List.map_cons, List.intercalate_cons_cons, ← ih]
      simp

theorem operands_ofStatements (l : List Statement) :
    (ofStatements l).operands = l.flatMap (·.value.operands) := by
  induction l with
  | nil => rfl
  | cons s l ih => rw [ofStatements, operands, ih, List.flatMap_cons]

theorem targets_ofStatements (l : List Statement) :
    (ofStatements l).targets = l.flatMap Statement.targets := by
  induction l with
  | nil => rfl
  | cons s l ih => rw [ofStatements, targets, ih, List.flatMap_cons]

theorem words_ofStatements (l : List Statement) : (ofStatements l).words = [] := by
  induction l with
  | nil => rfl
  | cons s l ih => rw [ofStatements, words, ih]

end Block

/-- A body of statements between commas is accepted, and its code is the postorder of the parse of
each statement with its stores, with a clear between two statements.  The tables of loads and stores
hold the slots of the operands and of the targets in the order of the text. -/
theorem statements_in_postorder {text : String} {offset : Nat} {l : List Statement}
    (h : ∀ s ∈ l, s.value.Plain ∧ s.value.depth < 64)
    (hrender : (Source.mk none (.ofStatements l)).Renders
      (Token.stream (Cursor.seek text offset))) (env : Environment) :
    (∃ tally, check text offset = .ok tally) ∧
      (∃ parse, List.Forall₂ Statement.Parses parse l) ∧
      ∀ parse, List.Forall₂ Statement.Parses parse l →
        let p := compile (Token.body text offset) env
        p.code = [Opcode.clear].intercalate (parse.map Statement.code) ∧
          List.Forall₂ (Holds p.slots) p.loads (parse.flatMap (·.value.operands)) ∧
          List.Forall₂ (Holds p.slots) p.stores ((parse.flatMap Statement.targets).map .name) := by
  have hread : (Source.mk none (.ofStatements l)).All Check.Frame.Readable :=
    ⟨nofun, Block.all_ofStatements fun s hs => ⟨(h s hs).1.legible, (h s hs).2⟩⟩
  refine ⟨Source.check_of_renders hread ?_ hrender, ?_, ?_⟩
  · show (Block.words _).length < Check.jumpLimit
    rw [Block.words_ofStatements]
    decide
  · refine ⟨l.map fun s => { s with value := s.value.rebuild }, ?_⟩
    rw [List.forall₂_map_left_iff]
    exact List.forall₂_same.mpr fun s hs => s.exists_parses (h s hs)
  · intro parse hparse
    have hall : (Source.mk none (.ofStatements parse)).All Expr.Parsed := by
      refine ⟨nofun, Block.all_ofStatements fun s hs => ?_⟩
      obtain ⟨i, hi, rfl⟩ := List.mem_iff_getElem.mp hs
      exact (hparse.get hi (hparse.length_eq ▸ hi)).parsed
    have hlex : (Source.mk none (.ofStatements parse)).lexemes =
        (Source.mk none (.ofStatements l)).lexemes :=
      congrArg (· ++ [Lexeme.close]) (Block.lexemes_ofStatements hparse .none)
    have hrender' : (Source.mk none (.ofStatements parse)).Renders
        (Token.stream (Cursor.seek text offset)) := by
      obtain ⟨b, hb, htokens⟩ := hrender
      exact ⟨b, hb, by rw [hlex, htokens]⟩
    obtain ⟨hcode, hloads, hstores, -, -⟩ := Source.tables_of_parse hall hrender' env
    refine ⟨hcode.trans (Block.code_ofStatements parse), ?_, ?_⟩
    · rwa [Source.operands, Block.operands_ofStatements] at hloads
    · rwa [Source.targets, Block.targets_ofStatements] at hstores

theorem two_statements_in_postorder :
    let text := "z=a+b*2^c^2,x=y=sin(z-(1,2))<=2&&z\n\x7d"
    let l : List Statement :=
      [⟨["z"], .binary .add (.name "a") (.binary .mul (.name "b") (.binary .pow
          (.literal "2" ⟨Decimal.leading ['2'], 0⟩ false) (.binary .pow (.name "c")
            (.literal "2" ⟨Decimal.leading ['2'], 0⟩ false))))⟩,
        ⟨["x", "y"], .binary .le (.call .sin (.group (.binary .sub (.name "z")
          (.literal "(1,2)" ⟨Decimal.leading ['1'], Decimal.leading ['2']⟩ true))))
          (.binary .and (.literal "2" ⟨Decimal.leading ['2'], 0⟩ false) (.name "z"))⟩]
    (∀ s ∈ l, s.value.Plain ∧ s.value.depth < 64) ∧
      (Source.mk none (.ofStatements l)).Renders (Token.stream (Cursor.seek text 0)) ∧
      (compile (Token.body text 0) {}).code =
        [.load, .load, .load, .load, .pow, .load, .pow, .mul, .add, .store, .clear,
          .load, .load, .sub, .call .sin, .load, .le, .load, .and, .store, .store] := by
  intro text l
  have hplain : ∀ s ∈ l, s.value.Plain ∧ s.value.depth < 64 := by
    intro s hs
    simp only [l, List.mem_cons, List.not_mem_nil, or_false] at hs
    rcases hs with rfl | rfl <;> simp [Expr.Plain, Expr.depth, Expr.isBracketed]
  have hrender : (Source.mk none (.ofStatements l)).Renders (Token.stream (Cursor.seek text 0)) := by
    refine ⟨.none, by decide, ?_⟩
    rw [Token.stream_eq_firstTokens (n := 40) (by decide +kernel)]
    decide +kernel
  refine ⟨hplain, hrender, ?_⟩
  obtain ⟨-, -, h⟩ := statements_in_postorder hplain hrender {}
  have hparse : List.Forall₂ Statement.Parses
      (l.map fun s => { s with value := s.value.rebuild }) l :=
    List.forall₂_map_left_iff.mpr (List.forall₂_same.mpr fun s hs => s.exists_parses (hplain s hs))
  exact (h _ hparse).1.trans (by decide +kernel)
end FractalFormula
