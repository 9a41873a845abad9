/-
The jumps of a loaded program.

`resolve` takes the entries of the table for the jump instructions of the code in order
(`resolve_ok`).  In a balanced table every jump then leads forward, to just after another jump, with
the cursors of that place (`Linked`).
-/
import FractalFormula.Proofs.Checked
import FractalFormula.Proofs.Place

namespace FractalFormula

namespace Jumps

theorem length_expected (words : List FlowWord) : ∀ second,
    (expected second words).length = words.length := by
  induction words with
  | nil => exact fun _ => rfl
  | cons w words ih => intro second; cases w <;> simp [expected, ih]

theorem firstWrong_eq_none (words : List FlowWord) : ∀ (i : Nat) (wanted ops : List Opcode),
    wanted.length = words.length → ops.length = words.length →
    (firstWrong i words wanted ops = none ↔ wanted = ops) := by
  induction words with
  | nil =>
    intro i wanted ops hw ho
    rw [List.eq_nil_of_length_eq_zero hw, List.eq_nil_of_length_eq_zero ho]
    simp [firstWrong]
  | cons w words ih =>
    intro i wanted ops hw ho
    cases wanted with
    | nil => cases hw
    | cons want wanted =>
      cases ops with
      | nil => cases ho
      | cons op ops =>
        rw [firstWrong]
        by_cases hop : want = op
        · rw [if_pos hop, ih _ _ _ (Nat.succ.inj hw) (Nat.succ.inj ho), hop]
          simp
        · simp [hop]

/-- The entries of a table, each of which leads to the landing of another one. -/
def linked (code : List Opcode) (entries : List JumpEntry) (found : List (Option Nat)) :
    List JumpEntry :=
  List.zipWith (close ((landings .zero code).map Prod.snd)) entries found

/-- The entry of number `k`, if it is taken, goes on at the given place. -/
def Lands (entries : List JumpEntry) (k : Nat) (there : Place) : Prop :=
  ∃ e, entries[k]? = some e ∧
    ⟨e.target.op + 1, e.target.loads, e.target.stores, e.dest⟩ = there

/-- An entry that leads to number `l` lands just after jump number `l` of the code. -/
theorem lands_of_lead {code : List Opcode} {words : List FlowWord} {found : List (Option Nat)}
    {k : Nat} {pre post : List Opcode} {op : Opcode} (hcode : code = pre ++ op :: post)
    (hjump : op.isJump = true) (hlen : words.length = found.length)
    (hlead : found[k]? = some (some (Place.start.past pre).jumps)) :
    Lands (linked code (words.map .unresolved) found) k (Place.start.past (pre ++ [op])) := by
  have hk : k < words.length := hlen ▸ (List.getElem?_eq_some_iff.mp hlead).1
  have hland : ((landings .zero code).map Prod.snd).getD (Place.start.past pre).jumps .zero =
      (Place.start.past pre).landing := by
    rw [hcode, List.getD_eq_getElem?_getD, List.getElem?_map, getElem?_landings hjump]
    rfl
  let e := close ((landings .zero code).map Prod.snd) (.unresolved words[k])
    (some (Place.start.past pre).jumps)
  refine ⟨e, ?_, ?_⟩
  · rw [linked, List.getElem?_zipWith_eq_some]
    exact ⟨_, _, by rw [List.getElem?_map, List.getElem?_eq_getElem hk]; rfl, hlead, rfl⟩
  · rw [Place.past_append, Place.past_jump hjump]
    simp only [e, close, hland]
    rfl

/-- A jump instruction is the one its entry stands for. -/
theorem getElem?_filter_isJump {code : List Opcode} {n : Nat} {op : Opcode} (hn : code[n]? = some op)
    (hjump : op.isJump = true) :
    (code.filter Opcode.isJump)[(Place.index code n).jumps]? = some op := by
  obtain ⟨pre, post, rfl, -, hindex⟩ := Place.exists_split hn
  rw [hindex, ← map_fst_landings _ .start, List.getElem?_map]
  exact congrArg (Option.map Prod.fst) (getElem?_landings hjump)

theorem getElem?_expected_endIf {words : List FlowWord} : ∀ {second : Bool} {k : Nat},
    words[k]? = some .endIf → (expected second words)[k]? = some .label := by
  induction words with
  | nil => intro second k h; cases h
  | cons w words ih =>
    intro second k h
    cases k with
    | zero =>
      obtain rfl := Option.some.inj h
      rfl
    | succ k => cases w <;> exact ih h

theorem Forward.getElem? {total : Nat} {words : List FlowWord} : ∀ {k : Nat}
    {found : List (Option Nat)}, Forward k total words found → found.length = words.length ∧
      ∀ i w, words[i]? = some w → (w = .endIf → found[i]? = some none) ∧
        (w ≠ .endIf → ∃ l, found[i]? = some (some l) ∧ k + i < l ∧ l < total) := by
  induction words with
  | nil =>
    rintro k found rfl
    exact ⟨rfl, fun i w h => by cases h⟩
  | cons w words ih =>
    rintro k found ⟨lead, rest, rfl, hrest, hlead⟩
    obtain ⟨hlen, hget⟩ := ih hrest
    refine ⟨congrArg (· + 1) hlen, fun i v hv => ?_⟩
    cases i with
    | zero =>
      obtain rfl := Option.some.inj hv
      rcases hlead with ⟨hend, rfl⟩ | ⟨hne, l, rfl, hl⟩
      · exact ⟨fun _ => rfl, fun hne => absurd hend hne⟩
      · exact ⟨fun hend => absurd hend hne, fun _ => ⟨l, rfl, hl⟩⟩
    | succ i =>
      obtain ⟨hend, hopen⟩ := hget i v hv
      refine ⟨hend, fun hne => ?_⟩
      obtain ⟨l, hl, hlt, htotal⟩ := hopen hne
      exact ⟨l, hl, by omega, htotal⟩

theorem forward_of_leads {words : List FlowWord} {found : List (Option Nat)}
    (h : Balanced 0 words) (hleads : leads [] [] (backward 0 words) = some found) :
    Forward 0 words.length words found := by
  obtain ⟨found', hforward, hfound⟩ := leads_of_balanced h 0
  have hsame : leads [] [] (backward 0 words) = some found' := by
    have := hfound []
    rwa [List.append_nil, leads] at this
  obtain rfl := Option.some.inj (hsame.symm.trans hleads)
  rwa [Nat.zero_add] at hforward

end Jumps

namespace Place

theorem jumps_index_mono {code : List Opcode} {m n : Nat} (h : m ≤ n) :
    (index code m).jumps ≤ (index code n).jumps := by
  show 0 + (code.take m).countP _ ≤ 0 + (code.take n).countP _
  have := (List.take_sublist_take_left (l := code) h).countP_le (p := Opcode.isJump)
  omega

/-- Of two places the one with fewer jumps before it comes first. -/
theorem lt_of_jumps_index_lt (code : List Opcode) {m n : Nat}
    (h : (index code m).jumps < (index code n).jumps) : m < n :=
  Nat.lt_of_not_le fun hle => Nat.not_le_of_lt h (jumps_index_mono hle)

end Place

namespace Program

open Jumps

/-- What it takes for the jumps of a program to be resolved. -/
theorem resolve_ok {p r : Program} (h : p.resolve = .ok r) :
    (p.jumps = [] ∧ r = p) ∨
      ∃ found, p.code.filter Opcode.isJump = expected false (p.jumps.map JumpEntry.word) ∧
        leads [] [] (backward 0 (p.jumps.map JumpEntry.word)) = some found ∧
        r = { p with jumps := linked p.code p.jumps found } := by
  unfold resolve at h
  dsimp only at h
  split at h
  · rename_i hempty
    exact Or.inl ⟨by simpa using hempty, (Except.ok.inj h).symm⟩
  · split at h
    · cases h
    · rename_i hwrong
      split at h
      · cases h
      · rename_i hlen
        split at h
        · cases h
        · split at h
          · cases h
          · rename_i found hfound
            refine Or.inr ⟨found, ?_, hfound, (Except.ok.inj h).symm⟩
            rw [← map_fst_landings p.code .start]
            refine ((firstWrong_eq_none _ _ _ _ (length_expected _ _) ?_).mp hwrong).symm
            rw [List.length_map]
            exact Decidable.not_not.mp hlen

theorem resolve_of {p : Program} {found : List (Option Nat)}
    (hjumps : p.code.filter Opcode.isJump = expected false (p.jumps.map JumpEntry.word))
    (hhead : (p.jumps.map JumpEntry.word).head? = some .if)
    (hlast : (p.jumps.map JumpEntry.word).getLast? = some .endIf)
    (hfound : leads [] [] (backward 0 (p.jumps.map JumpEntry.word)) = some found) :
    p.resolve = .ok { p with jumps := linked p.code p.jumps found } := by
  have hlen : (landings .zero p.code).length = (p.jumps.map JumpEntry.word).length := by
    rw [← length_expected _ false, ← hjumps, ← map_fst_landings p.code .start, List.length_map]
    rfl
  have hwrong : firstWrong 0 (p.jumps.map JumpEntry.word)
      (expected false (p.jumps.map JumpEntry.word)) ((landings .zero p.code).map Prod.fst) =
      none := by
    refine (firstWrong_eq_none _ _ _ _ (length_expected _ _) ?_).mpr ?_
    · rw [List.length_map, hlen]
    · rw [← hjumps, ← map_fst_landings p.code .start]
      rfl
  have hempty : ¬ (p.jumps.map JumpEntry.word).isEmpty = true := by
    intro hnil
    rw [List.isEmpty_iff.mp hnil] at hhead
    cases hhead
  unfold resolve
  dsimp only
  rw [if_neg hempty, hwrong]
  dsimp only
  rw [if_neg (by rw [hlen]; exact fun h => h rfl), if_neg (by simp [hhead, hlast])]
  unfold backward at hfound
  rw [hfound]
  rfl

/-- The jumps of `r` are those of `p` with the places filled in where the entries lead, as `found`
says; the words of the table are balanced. -/
structure Resolved (p r : Program) (words : List FlowWord) (found : List (Option Nat)) : Prop where
  jumps : p.jumps = words.map .unresolved
  filter : p.code.filter Opcode.isJump = expected false words
  forward : Forward 0 words.length words found
  eq : r = { p with jumps := linked p.code p.jumps found }

theorem resolved_of_checked {p r : Program} (h : p.Checked) (hr : p.resolve = .ok r) :
    ∃ words found, Resolved p r words found := by
  obtain ⟨⟨words, hbalanced, hjumps, hcount⟩, -, -⟩ := h
  have hwords : p.jumps.map JumpEntry.word = words := by
    rw [hjumps, List.map_map]
    exact List.map_id words
  rcases resolve_ok hr with ⟨hnil, rfl⟩ | ⟨found, hfilter, hleads, rfl⟩
  · rw [hnil] at hwords
    obtain rfl := hwords.symm
    have hnone : r.code.filter Opcode.isJump = [] := by
      rw [← List.length_eq_zero_iff, ← List.countP_eq_length_filter]
      exact Nat.eq_zero_of_le_zero hcount
    refine ⟨[], [], hjumps, hnone, rfl, ?_⟩
    cases r
    cases hnil
    rfl
  · rw [hwords] at hfilter hleads
    exact ⟨words, found, hjumps, hfilter, forward_of_leads hbalanced hleads, rfl⟩

namespace Resolved

variable {p r : Program} {words : List FlowWord} {found : List (Option Nat)}

theorem code (h : Resolved p r words found) : r.code = p.code := by
  rw [h.eq]

theorem entries (h : Resolved p r words found) :
    r.jumps = linked p.code (words.map .unresolved) found := by
  rw [h.eq, h.jumps]

theorem count (h : Resolved p r words found) : p.code.countP Opcode.isJump = words.length := by
  rw [List.countP_eq_length_filter, h.filter, length_expected]

/-- The entry of number `k` is that of the word of number `k`. -/
theorem entry (h : Resolved p r words found) {k : Nat} {e : JumpEntry}
    (he : r.jumps[k]? = some e) : ∃ w lead, words[k]? = some w ∧ found[k]? = some lead ∧
      e.word = w ∧ e = close ((landings .zero p.code).map Prod.snd) (.unresolved w) lead := by
  rw [h.entries] at he
  obtain ⟨u, lead, hu, hlead, rfl⟩ := List.getElem?_zipWith_eq_some.mp he
  rw [List.getElem?_map] at hu
  obtain ⟨w, hw, rfl⟩ := Option.map_eq_some_iff.mp hu
  refine ⟨w, lead, hw, hlead, ?_, rfl⟩
  cases lead <;> rfl

/-- A number of an entry is that of a jump instruction, and its landing is the place of that. -/
theorem exists_jump (h : Resolved p r words found) {l : Nat} (hl : l < words.length) :
    ∃ m op, p.code[m]? = some op ∧ op.isJump = true ∧ (Place.index p.code m).jumps = l ∧
      ((landings .zero p.code).map Prod.snd).getD l .zero = (Place.index p.code m).landing := by
  have hbound : l < (landings .zero p.code).length := by
    rw [show Landing.zero = Place.start.landing from rfl, length_landings, h.count]
    exact hl
  obtain ⟨m, hm, hjump, hindex, hland⟩ :=
    exists_of_getElem?_landings (List.getElem?_eq_getElem hbound)
  refine ⟨m, _, hm, hjump, hindex, ?_⟩
  rw [List.getD_eq_getElem?_getD, List.getElem?_map, List.getElem?_eq_getElem hbound, hland]
  rfl

/-- The word of a jump instruction, which is that of an `endif` only if it is a label. -/
theorem exists_word (h : Resolved p r words found) {n : Nat} {op : Opcode}
    (hn : p.code[n]? = some op) (hjump : op.isJump = true) (hlabel : op ≠ .label) :
    ∃ w, words[(Place.index p.code n).jumps]? = some w ∧ w ≠ .endIf := by
  have hop := getElem?_filter_isJump hn hjump
  rw [h.filter] at hop
  have hk : (Place.index p.code n).jumps < words.length :=
    length_expected words false ▸ (List.getElem?_eq_some_iff.mp hop).1
  refine ⟨_, List.getElem?_eq_getElem hk, fun hend => ?_⟩
  have hwant : (expected false words)[(Place.index p.code n).jumps]? = some .label :=
    getElem?_expected_endIf ((List.getElem?_eq_getElem hk).trans (congrArg some hend))
  exact hlabel (Option.some.inj (hop.symm.trans hwant))

end Resolved

/-- Every jump leads forward, to just after another jump, with the cursors of that place. -/
structure Linked (p : Program) : Prop where
  lands : ∀ {n : Nat} {op : Opcode}, p.code[n]? = some op → op.isJump = true → op ≠ .label →
    ∃ m, n < m ∧ m < p.code.length ∧
      Lands p.jumps (Place.index p.code n).jumps (Place.index p.code (m + 1))
  ends : p.code.count .endInit ≤ 1
  noInit : p.hasInit = false → .endInit ∉ p.code

theorem linked_of_resolve {p r : Program} (h : p.Checked) (hr : p.resolve = .ok r) : r.Linked := by
  obtain ⟨words, found, hres⟩ := resolved_of_checked h hr
  obtain ⟨-, hends, hno⟩ := h
  obtain ⟨hlen, hget⟩ := hres.forward.getElem?
  have hjumps := hres.entries
  obtain rfl := hres.eq
  refine ⟨fun {n op} hn hjump hlabel => ?_, hends, hno⟩
  obtain ⟨w, hw, hne⟩ := hres.exists_word hn hjump hlabel
  obtain ⟨l, hl, hlt, htotal⟩ := (hget _ w hw).2 hne
  obtain ⟨m, op', hm, hmjump, hindex, -⟩ := hres.exists_jump htotal
  obtain ⟨pre, post, hsplit, -, hpre⟩ := Place.exists_split hm
  refine ⟨m, Place.lt_of_jumps_index_lt p.code (by omega),
    (List.getElem?_eq_some_iff.mp hm).1, ?_⟩
  rw [← hindex, hpre] at hl
  rw [hjumps, Place.index_succ hm, hpre, ← Place.past_append]
  exact lands_of_lead hsplit hmjump hlen.symm hl

/-- The table has an entry for each jump.  That of an `endif` leads nowhere; any other leads to a
jump behind all those that have no more jumps before them than its number says. -/
structure Ordered (p : Program) : Prop where
  count : p.jumps.length = p.code.countP Opcode.isJump
  closed : ∀ e ∈ p.jumps, e.word = .endIf → e.target = .zero
  forward : ∀ {k : Nat} {e : JumpEntry}, p.jumps[k]? = some e → e.word ≠ .endIf →
    (∃ op, p.code[e.target.op]? = some op ∧ op.isJump = true) ∧
      e.dest = (Place.index p.code (e.target.op + 1)).jumps ∧
      ∀ n, (Place.index p.code n).jumps ≤ k → n < e.target.op

theorem ordered_of_resolve {p r : Program} (h : p.Checked) (hr : p.resolve = .ok r) : r.Ordered := by
  obtain ⟨words, found, hres⟩ := resolved_of_checked h hr
  obtain ⟨hlen, hget⟩ := hres.forward.getElem?
  refine ⟨?_, fun e he hend => ?_, fun {k e} he hne => ?_⟩
  · rw [hres.entries, hres.code, linked, List.length_zipWith, List.length_map, hlen, hres.count,
      Nat.min_self]
  · obtain ⟨k, hk⟩ := List.mem_iff_getElem?.mp he
    obtain ⟨w, lead, hw, hlead, hword, rfl⟩ := hres.entry hk
    have hnone := (hget k w hw).1 (hword.symm.trans hend)
    obtain rfl := Option.some.inj (hlead.symm.trans hnone)
    rfl
  · obtain ⟨w, lead, hw, hlead, hword, rfl⟩ := hres.entry he
    obtain ⟨l, hl, hlt, htotal⟩ := (hget k w hw).2 (hword ▸ hne)
    obtain rfl := Option.some.inj (hlead.symm.trans hl)
    obtain ⟨m, op, hm, hmjump, hindex, hland⟩ := hres.exists_jump htotal
    have htarget : (close ((landings .zero p.code).map Prod.snd) (.unresolved w) (some l)).target =
        (Place.index p.code m).landing := hland
    have hop : ((Place.index p.code m).landing).op = m :=
      Place.index_op (Nat.le_of_lt (List.getElem?_eq_some_iff.mp hm).1)
    rw [htarget, hop, hres.code]
    refine ⟨⟨op, hm, hmjump⟩, ?_, fun n hn => Place.lt_of_jumps_index_lt p.code (by omega)⟩
    show l + 1 = _
    rw [Place.index_succ hm, Place.past_jump hmjump, hindex]

end Program
end FractalFormula
