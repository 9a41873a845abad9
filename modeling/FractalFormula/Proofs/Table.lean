/-
The tables of jumps that are accepted.

The groups of a table are found from its end.  What closes a group outside all others, what stands
before an `elseif` and whether an `else` has come already is not looked at, so that the tables that
are accepted are those that can be read as groups of a looser kind (`exists_leads_iff`).  There is one
reading at most (`table_injective`), and it tells whether the groups are nested as they should be
(`sound_iff_nested`).
-/
import FractalFormula.Proofs.Grouped

namespace FractalFormula

namespace Jumps

/-! ## Groups as they are found from the end -/

/-- What stands in a group behind its `if`.  An `elseif` takes the entry before it along. -/
inductive Inside where
  | nil
  | group (inside rest : Inside)
  | else (rest : Inside)
  | elseIf (half : FlowWord) (rest : Inside)
  deriving Repr

/-- A group outside all others, and the entry that closes it. -/
structure Outermost where
  inside : Inside
  closer : FlowWord
  deriving Repr

/-- Groups whose `if` has not been met yet: what has been found of the innermost, what has been found
of those around it, and the entry that closes the last of them. -/
structure Unmet where
  inside : Inside
  around : List Inside
  closer : FlowWord

namespace Inside

def words : Inside → List FlowWord
  | nil => []
  | group inside rest => .if :: inside.words ++ .endIf :: rest.words
  | .else rest => .else :: rest.words
  | elseIf half rest => half :: .elseIf :: rest.words

def append : Inside → Inside → Inside
  | nil, j => j
  | group inside rest, j => group inside (rest.append j)
  | .else rest, j => .else (rest.append j)
  | elseIf half rest, j => elseIf half (rest.append j)

theorem append_nil (i : Inside) : i.append nil = i := by
  induction i with
  | nil => rfl
  | group inside rest _ ih => rw [append, ih]
  | «else» rest ih => rw [append, ih]
  | elseIf half rest ih => rw [append, ih]

/-- Behind the `else` of a group there are only other groups, and the halves of an `elseif` belong
together. -/
def sound (elseSeen : Bool) : Inside → Bool
  | nil => true
  | group inside rest => inside.sound false && rest.sound elseSeen
  | .else rest => !elseSeen && rest.sound true
  | elseIf half rest => !elseSeen && half == .elseIf && rest.sound false

end Inside

namespace Outermost

def words (o : Outermost) : List FlowWord :=
  .if :: o.inside.words ++ [o.closer]

/-- The table that consists of the groups. -/
def table (t : List Outermost) : List FlowWord :=
  t.flatMap words

def sound (o : Outermost) : Bool :=
  o.closer == .endIf && o.inside.sound false

end Outermost

/-- Reads words from the end; `t` is what has been read outside the groups that are unmet. -/
def read : Option Unmet → List Outermost → List FlowWord → Option (List Outermost)
  | none, t, [] => some t
  | some _, _, [] => none
  | none, t, w :: rest => read (some ⟨.nil, [], w⟩) t rest
  | some ⟨i, [], c⟩, t, .if :: rest => read none (⟨i, c⟩ :: t) rest
  | some ⟨i, j :: around, c⟩, t, .if :: rest => read (some ⟨.group i j, around, c⟩) t rest
  | some ⟨i, around, c⟩, t, .else :: rest => read (some ⟨.else i, around, c⟩) t rest
  | some ⟨i, around, c⟩, t, .endIf :: rest => read (some ⟨.nil, i :: around, c⟩) t rest
  | some ⟨i, around, c⟩, t, .elseIf :: half :: rest =>
    read (some ⟨.elseIf half i, around, c⟩) t rest
  | some _, _, [.elseIf] => none

/-- How many groups are unmet. -/
def depth : Option Unmet → Nat
  | none => 0
  | some u => u.around.length + 1

/-- The jumps of a table lead somewhere exactly if the table can be read. -/
theorem isSome_leads {groups : List Group} {found : List (Option Nat)} {rest : List (Nat × FlowWord)}
    {u : Option Unmet} (t : List Outermost) (h : groups.length = depth u) :
    (leads groups found rest).isSome = (read u t (rest.map Prod.snd)).isSome := by
  have unmet {u : Option Unmet} {n : Nat} (h : n + 1 = depth u) :
      ∃ i around c, u = some ⟨i, around, c⟩ ∧ n = around.length := by
    cases u with
    | none => cases h
    | some u => exact ⟨u.inside, u.around, u.closer, rfl, Nat.succ.inj h⟩
  fun_induction leads groups found rest generalizing u t with
  | case1 =>
    cases u with
    | none => rfl
    | some u => cases h
  | case3 found i w rest ih =>
    cases u with
    | none => exact ih t rfl
    | some u => cases h
  | case4 g outer found i rest ih =>
    obtain ⟨i, around, c, rfl, hlength⟩ := unmet h
    cases around with
    | nil => exact ih _ hlength
    | cons j around => exact ih t hlength
  | case2 | case8 =>
    obtain ⟨i, around, c, rfl, -⟩ := unmet h
    rfl
  | case5 _ _ _ _ _ ih | case6 _ _ _ _ _ ih | case7 _ _ _ _ _ _ _ ih =>
    obtain ⟨i, around, c, rfl, hlength⟩ := unmet h
    exact ih t (by simpa [depth] using hlength)

namespace Unmet

/-- The words that have been read since the closing entry of the outermost group. -/
def behind (u : Unmet) : List FlowWord :=
  u.inside.words ++ u.around.flatMap (.endIf :: ·.words) ++ [u.closer]

end Unmet

/-- A reading is one of the words that have been read. -/
theorem table_of_read {u : Option Unmet} {t t' : List Outermost} {rest : List FlowWord}
    (h : read u t rest = some t') :
    Outermost.table t' = rest.reverse ++ u.elim [] Unmet.behind ++ Outermost.table t := by
  fun_induction read u t rest with
  | case1 t =>
    obtain rfl := Option.some.inj h
    rfl
  | case2 | case9 => cases h
  | _ =>
    rename_i ih
    rw [ih h]
    simp [Unmet.behind, Outermost.table, Outermost.words, Inside.words]

/-- What stands in the innermost group is read as such. -/
theorem read_inside (i : Inside) : ∀ (j : Inside) (around : List Inside) (c : FlowWord)
    (t : List Outermost) (rest : List FlowWord),
    read (some ⟨j, around, c⟩) t (i.words.reverse ++ rest) =
      read (some ⟨i.append j, around, c⟩) t rest := by
  induction i with
  | nil => exact fun _ _ _ _ _ => rfl
  | group inside tail ihi iht =>
    intro j around c t rest
    have hsplit : (Inside.group inside tail).words.reverse ++ rest =
        tail.words.reverse ++ .endIf :: (inside.words.reverse ++ .if :: rest) := by
      simp [Inside.words]
    rw [hsplit, iht, read, ihi, Inside.append_nil]
    rfl
  | «else» tail ih =>
    intro j around c t rest
    have hsplit : (Inside.else tail).words.reverse ++ rest =
        tail.words.reverse ++ .else :: rest := by
      simp [Inside.words]
    rw [hsplit, ih]
    rfl
  | elseIf half tail ih =>
    intro j around c t rest
    have hsplit : (Inside.elseIf half tail).words.reverse ++ rest =
        tail.words.reverse ++ .elseIf :: half :: rest := by
      simp [Inside.words]
    rw [hsplit, ih]
    rfl

theorem read_outermost (o : Outermost) (t : List Outermost) (rest : List FlowWord) :
    read none t (o.words.reverse ++ rest) = read none (o :: t) rest := by
  have hsplit : o.words.reverse ++ rest =
      o.closer :: (o.inside.words.reverse ++ .if :: rest) := by
    simp [Outermost.words]
  rw [hsplit, read, read_inside, Inside.append_nil]
  rfl

theorem read_table (t t' : List Outermost) :
    read none t' (Outermost.table t).reverse = some (t ++ t') := by
  induction t using List.reverseRecOn generalizing t' with
  | nil => rfl
  | append_singleton t o ih =>
    have hsplit : (Outermost.table (t ++ [o])).reverse =
        o.words.reverse ++ (Outermost.table t).reverse := by
      simp [Outermost.table]
    rw [hsplit, read_outermost, ih, List.append_assoc]
    rfl

/-- A table can be read in one way only. -/
theorem table_injective {t t' : List Outermost} (h : Outermost.table t = Outermost.table t') :
    t = t' := by
  have hread := read_table t []
  rw [h, read_table] at hread
  simpa using (Option.some.inj hread).symm

theorem exists_leads_iff {words : List FlowWord} :
    (∃ found, leads [] [] (backward 0 words) = some found) ↔
      ∃ t, Outermost.table t = words := by
  have hwords : (backward 0 words).map Prod.snd = words.reverse := by
    rw [backward, List.map_map, List.map_reverse]
    exact congrArg List.reverse (List.zipIdx_map_fst 0 words)
  rw [← Option.isSome_iff_exists, isSome_leads [] (u := none) rfl, hwords]
  constructor
  · intro h
    obtain ⟨t, ht⟩ := Option.isSome_iff_exists.mp h
    exact ⟨t, by simpa [Outermost.table] using table_of_read ht⟩
  · rintro ⟨t, rfl⟩
    rw [read_table]
    rfl

/-! ## Nested groups -/

/-- The entries of branches. -/
def entries (ws : List FlowWord) : List FlowWord :=
  ws.flatMap fun w => (Lexeme.flow w).words

/-- The entries are those of groups, one after another and in one another, as they are written. -/
def Nested (words : List FlowWord) : Prop :=
  ∃ ws, FlowWord.Grouped ws ∧ entries ws = words

theorem entries_append (a b : List FlowWord) : entries (a ++ b) = entries a ++ entries b :=
  List.flatMap_append

open FlowWord

/-- What is sound in a group goes on from whole groups to the end of that group. -/
theorem shape_of_sound {i : Inside} : ∀ {elseSeen : Bool} {g : List FlowWord},
    i.sound elseSeen = true → Grouped g →
      ∃ ws, Shape (.rest elseSeen) (g ++ ws) ∧ entries ws = i.words ++ [.endIf] := by
  induction i with
  | nil => exact fun _ hg => ⟨[.endIf], .endIf hg, rfl⟩
  | group inside tail ihi iht =>
    intro elseSeen g h hg
    obtain ⟨hinside, htail⟩ := Bool.and_eq_true_iff.mp h
    obtain ⟨ws, hws, hwords⟩ := ihi (g := []) hinside .nil
    obtain ⟨vs, hvs, hrest⟩ := iht htail (hg.append (.group hws .nil))
    refine ⟨.if :: ws ++ vs, by simpa using hvs, ?_⟩
    show .if :: entries (ws ++ vs) = _
    rw [entries_append, hwords, hrest]
    simp [Inside.words]
  | «else» tail ih =>
    intro elseSeen g h hg
    obtain ⟨hseen, htail⟩ := Bool.and_eq_true_iff.mp h
    obtain rfl : elseSeen = false := by simpa using hseen
    obtain ⟨ws, hws, hwords⟩ := ih (g := []) htail .nil
    exact ⟨.else :: ws, .else hg hws, congrArg (FlowWord.else :: ·) hwords⟩
  | elseIf half tail ih =>
    intro elseSeen g h hg
    obtain ⟨hhead, htail⟩ := Bool.and_eq_true_iff.mp h
    obtain ⟨rfl, rfl⟩ : elseSeen = false ∧ half = .elseIf := by simpa using hhead
    obtain ⟨ws, hws, hwords⟩ := ih (g := []) htail .nil
    exact ⟨.elseIf :: ws, .elseIf hg hws, congrArg (FlowWord.elseIf :: .elseIf :: ·) hwords⟩

theorem nested_of_sound {t : List Outermost} (h : ∀ o ∈ t, o.sound = true) :
    Nested (Outermost.table t) := by
  induction t with
  | nil => exact ⟨[], .nil, rfl⟩
  | cons o t ih =>
    obtain ⟨ho, ht⟩ := List.forall_mem_cons.mp h
    obtain ⟨ws, hws, hwords⟩ := ih ht
    obtain ⟨hcloser, hinside⟩ := Bool.and_eq_true_iff.mp ho
    obtain ⟨vs, hvs, hrest⟩ := shape_of_sound (g := []) hinside .nil
    refine ⟨.if :: vs ++ ws, .group hvs hws, ?_⟩
    show .if :: entries (vs ++ ws) = _
    rw [entries_append, hrest, hwords]
    simp [Outermost.table, Outermost.words, eq_of_beq hcloser]

/-- The groups as they stand in another one. -/
def within (t : List Outermost) (rest : Inside) : Inside :=
  t.foldr (fun o rest => .group o.inside rest) rest

theorem words_within {t : List Outermost} (h : ∀ o ∈ t, o.sound = true) (rest : Inside) :
    (within t rest).words = Outermost.table t ++ rest.words ∧
      ∀ elseSeen, (within t rest).sound elseSeen = rest.sound elseSeen := by
  induction t with
  | nil => exact ⟨rfl, fun _ => rfl⟩
  | cons o t ih =>
    obtain ⟨ho, ht⟩ := List.forall_mem_cons.mp h
    obtain ⟨hwords, hsound⟩ := ih ht
    obtain ⟨hcloser, hinside⟩ := Bool.and_eq_true_iff.mp ho
    refine ⟨?_, fun elseSeen => ?_⟩
    · show .if :: o.inside.words ++ .endIf :: (within t rest).words = _
      rw [hwords]
      simp [Outermost.table, Outermost.words, eq_of_beq hcloser]
    · show (o.inside.sound false && (within t rest).sound elseSeen) = _
      rw [hinside, hsound, Bool.true_and]

/-- How groups are read, or what remains of a group up to its end. -/
def Reads : Part → List FlowWord → Prop
  | .groups, ws => ∃ t, (∀ o ∈ t, o.sound = true) ∧ Outermost.table t = entries ws
  | .rest elseSeen, ws => ∃ i : Inside, i.sound elseSeen = true ∧ i.words ++ [.endIf] = entries ws

theorem reads_of_shape {part : Part} {ws : List FlowWord} (h : Shape part ws) : Reads part ws := by
  induction h with
  | nil => exact ⟨[], nofun, rfl⟩
  | @group r g _ _ ihr ihg =>
    obtain ⟨i, hi, hwords⟩ := ihr
    obtain ⟨t, ht, htable⟩ := ihg
    refine ⟨⟨i, .endIf⟩ :: t, List.forall_mem_cons.mpr ⟨hi, ht⟩, ?_⟩
    show .if :: i.words ++ [.endIf] ++ Outermost.table t = .if :: entries (r ++ g)
    rw [entries_append, ← hwords, htable, List.cons_append, List.cons_append]
  | @elseIf g r _ _ ihg ihr =>
    obtain ⟨t, ht, htable⟩ := ihg
    obtain ⟨i, hi, hwords⟩ := ihr
    obtain ⟨hwithin, hsound⟩ := words_within ht (.elseIf .elseIf i)
    refine ⟨within t (.elseIf .elseIf i), by rw [hsound]; exact hi, ?_⟩
    rw [hwithin, entries_append, htable, List.append_assoc]
    exact congrArg (entries g ++ .elseIf :: .elseIf :: ·) hwords
  | @«else» g r _ _ ihg ihr =>
    obtain ⟨t, ht, htable⟩ := ihg
    obtain ⟨i, hi, hwords⟩ := ihr
    obtain ⟨hwithin, hsound⟩ := words_within ht (.else i)
    refine ⟨within t (.else i), by rw [hsound]; exact hi, ?_⟩
    rw [hwithin, entries_append, htable, List.append_assoc]
    exact congrArg (entries g ++ .else :: ·) hwords
  | @endIf elseSeen g _ ihg =>
    obtain ⟨t, ht, htable⟩ := ihg
    obtain ⟨hwithin, hsound⟩ := words_within ht .nil
    refine ⟨within t .nil, by rw [hsound]; rfl, ?_⟩
    rw [hwithin, entries_append, htable, List.append_assoc]
    rfl

/-- The groups of a table are nested exactly if its reading is sound. -/
theorem sound_iff_nested {t : List Outermost} :
    (∀ o ∈ t, o.sound = true) ↔ Nested (Outermost.table t) := by
  refine ⟨nested_of_sound, ?_⟩
  rintro ⟨ws, hws, hwords⟩
  obtain ⟨t', ht', htable⟩ := reads_of_shape hws
  rwa [table_injective (htable.trans hwords)] at ht'

end Jumps

namespace Program

open Jumps

/-- A program that consists of the jumps of a table. -/
def jumping (words : List FlowWord) : Program :=
  ⟨"", expected false words, [], [], [], words.map .unresolved, false, {}⟩

theorem getLast?_of_resolve {p q : Program} (hne : p.jumps ≠ []) (h : p.resolve = .ok q) :
    (p.jumps.map JumpEntry.word).getLast? = some .endIf := by
  unfold resolve at h
  dsimp only at h
  rw [if_neg (by simpa using hne)] at h
  split at h
  · cases h
  split at h
  · cases h
  split at h
  · cases h
  · rename_i hends
    exact Decidable.not_not.mp (not_or.mp hends).2

/-- A table is accepted exactly if its entries are the jumps of the code, in order, the last is an
`endif`, and there is a reading of it; and its groups are nested exactly if that reading is sound. -/
theorem resolves_iff (p : Program) (hne : p.jumps ≠ []) :
    let words := p.jumps.map JumpEntry.word
    ((∃ q, p.resolve = .ok q) ↔ p.code.filter Opcode.isJump = expected false words ∧
      words.getLast? = some .endIf ∧ ∃ t, Outermost.table t = words) ∧
    ∀ t, Outermost.table t = words → ((∀ o ∈ t, o.sound = true) ↔ Nested words) := by
  intro words
  refine ⟨⟨?_, ?_⟩, fun t ht => ht ▸ sound_iff_nested⟩
  · rintro ⟨q, hq⟩
    rcases resolve_ok hq with ⟨hnil, -⟩ | ⟨found, hjumps, hfound, -⟩
    · exact absurd hnil hne
    · exact ⟨hjumps, getLast?_of_resolve hne hq, exists_leads_iff.mp ⟨found, hfound⟩⟩
  · rintro ⟨hjumps, hlast, t, ht⟩
    obtain ⟨found, hfound⟩ := exists_leads_iff.mpr ⟨t, ht⟩
    have hhead : words.head? = some .if := by
      rw [← ht]
      cases t with
      | nil => exact absurd (List.map_eq_nil_iff.mp ht.symm) hne
      | cons o t => rfl
    exact ⟨_, resolve_of hjumps hhead hlast hfound⟩

/-- An `elseif` and an `else` with a group in it. -/
theorem resolves_nested : ∃ p q : Program, p.jumps ≠ [] ∧ p.resolve = .ok q ∧
    p.jumps.map JumpEntry.word = [.if, .elseIf, .elseIf, .else, .if, .endIf, .endIf] ∧
    Nested (p.jumps.map JumpEntry.word) := by
  let p := jumping [.if, .elseIf, .elseIf, .else, .if, .endIf, .endIf]
  let t : List Outermost := [⟨.elseIf .elseIf (.else (.group .nil .nil)), .endIf⟩]
  have hne : p.jumps ≠ [] := nofun
  obtain ⟨haccepted, hnested⟩ := resolves_iff p hne
  obtain ⟨q, hq⟩ := haccepted.mpr ⟨rfl, rfl, t, rfl⟩
  exact ⟨p, q, hne, hq, rfl, (hnested t rfl).mp (by decide)⟩

/-- An `else` can close a group, and then leads nowhere; it can come twice in a group, and any entry can
stand before an `elseif`. -/
theorem exists_unnested :
    (∃ q, (jumping [.if, .else, .if, .endIf]).resolve = .ok q ∧
      q.jumps[1]? = some (.unresolved .else)) ∧ ¬ Nested [.if, .else, .if, .endIf] ∧
    (∃ q, (jumping [.if, .else, .else, .endIf]).resolve = .ok q) ∧
      ¬ Nested [.if, .else, .else, .endIf] ∧
    (∃ q, (jumping [.if, .if, .elseIf, .endIf]).resolve = .ok q) ∧
      ¬ Nested [.if, .if, .elseIf, .endIf] := by
  have unnested (t : List Outermost) (h : ¬ ∀ o ∈ t, o.sound = true) :
      ¬ Nested (Outermost.table t) := mt sound_iff_nested.mpr h
  exact ⟨⟨_, rfl, rfl⟩, unnested [⟨.nil, .else⟩, ⟨.nil, .endIf⟩] (by decide), ⟨_, rfl⟩,
    unnested [⟨.else (.else .nil), .endIf⟩] (by decide), ⟨_, rfl⟩,
    unnested [⟨.elseIf .if .nil, .endIf⟩] (by decide)⟩

end Program
end FractalFormula
