/-
The slots of a program under construction.

Names, numbers, pairs and negated literals begin with letters of their own, so a name is never taken
for a literal, and a number shares its slot with nothing but the same number (`Sound`).
-/
import FractalFormula.Proofs.Syntax
import Mathlib.Data.List.Forall2

namespace FractalFormula
namespace Lexeme

/-! ## First letters -/

theorem isAlpha_eq (c : Char) : c.isAlpha =
    (decide (c.val ≥ 'A'.val ∧ c.val ≤ 'Z'.val) ||
      decide (c.val ≥ 'a'.val) && decide (c.val ≤ 'z'.val)) := rfl

theorem not_isNumber_of_isName {text : String} (h : IsName text) : ¬ IsNumber text := by
  obtain ⟨c, rest, htext, hname⟩ := h
  rintro ⟨c', rest', htext', hnumber⟩
  obtain rfl : c = c' := (List.cons.inj (htext.symm.trans htext')).1
  simp only [Token.isNameStart, startsNumber, isAlpha_eq, Char.isDigit, Bool.or_eq_true,
    Bool.and_eq_true, decide_eq_true_eq, beq_iff_eq, ge_iff_le, UInt32.le_iff_toNat_le,
    ← Char.toNat_inj, Char.toNat, Char.reduceVal, UInt32.reduceToNat] at hname hnumber
  omega

/-- No text that begins with `c` is a name or a number. -/
theorem not_isName_cons {c : Char} {text : String} {rest : List Char} (htext : text.toList = c :: rest)
    (h : Token.isNameStart c = false) : ¬ IsName text := by
  rintro ⟨c', rest', htext', hname⟩
  obtain rfl : c = c' := (List.cons.inj (htext.symm.trans htext')).1
  exact Bool.noConfusion (h.symm.trans hname)

theorem not_isNumber_cons {c : Char} {text : String} {rest : List Char}
    (htext : text.toList = c :: rest) (h : startsNumber c = false) : ¬ IsNumber text := by
  rintro ⟨c', rest', htext', hnumber⟩
  obtain rfl : c = c' := (List.cons.inj (htext.symm.trans htext')).1
  exact Bool.noConfusion (h.symm.trans hnumber)

theorem isNameStart_toLower (c : Char) : Token.isNameStart c.toLower = Token.isNameStart c := by
  unfold Char.toLower
  split
  · rename_i h
    rw [Bool.eq_iff_iff]
    simp only [ge_iff_le, UInt32.le_iff_toNat_le] at h
    simp [Token.isNameStart, isAlpha_eq, UInt32.le_iff_toNat_le, UInt32.toNat_add] at h ⊢
    omega
  · rfl

theorem isName_of_sameName {a b : String} (h : Text.sameName a b = true) (hb : IsName b) :
    IsName a := by
  obtain ⟨c, rest, hlist, hname⟩ := hb
  rw [Text.sameName, hlist, List.map_cons, beq_iff_eq] at h
  obtain ⟨c', rest', ha, hc, -⟩ := List.map_eq_cons_iff.mp h
  refine ⟨c', rest', ha, ?_⟩
  rw [← isNameStart_toLower, hc, isNameStart_toLower, hname]

end Lexeme

/-! ## Slots -/

namespace Compile

open Lexeme

/-- Slot `i` is what `o` refers to.  A variable is never a literal, and it is the first of its
name. -/
def Holds (slots : List Slot) (i : Nat) : Operand → Prop
  | .name text =>
    slots.findIdx? (Text.sameName ·.name text) = some i ∧
      ∃ s, slots[i]? = some s ∧ s.kind ≠ .constant
  | .literal text value => slots[i]? = some ⟨text, .constant, value⟩

theorem getElem?_append {slots : List Slot} {i : Nat} {s : Slot} (h : slots[i]? = some s)
    (extra : List Slot) : (slots ++ extra)[i]? = some s := by
  rw [List.getElem?_append_left (List.getElem?_eq_some_iff.mp h).1, h]

theorem Holds.mono {slots slots' : List Slot} (h : slots <+: slots') {i : Nat} {o : Operand}
    (hi : Holds slots i o) : Holds slots' i o := by
  obtain ⟨extra, rfl⟩ := h
  cases o with
  | name text =>
    obtain ⟨hfind, s, hs, hkind⟩ := hi
    refine ⟨?_, s, getElem?_append hs extra, hkind⟩
    rw [List.findIdx?_append, hfind]
    rfl
  | literal text value => exact getElem?_append hi extra

/-- The names of slots tell what they hold, and `known` are the numbers that have a slot. -/
structure Sound (slots : List Slot) (known : List String) : Prop where
  names : ∀ s ∈ slots, IsName s.name → s.kind ≠ .constant
  numbers : ∀ s ∈ slots, IsNumber s.name →
    s = ⟨s.name, .constant, ⟨Decimal.leading s.name.toList, 0⟩⟩ ∧ s.name ∈ known
  known : ∀ text ∈ known, ∃ s ∈ slots, s.name = text

namespace Sound

variable {slots : List Slot} {known : List String}

theorem push (h : Sound slots known) {s : Slot} (hname : IsName s.name → s.kind ≠ .constant)
    (hnumber : ¬ IsNumber s.name) : Sound (slots ++ [s]) known := by
  refine ⟨?_, ?_, ?_⟩
  · intro t ht
    rcases List.mem_append.mp ht with ht | ht
    · exact h.names t ht
    · rw [List.mem_singleton.mp ht]
      exact hname
  · intro t ht
    rcases List.mem_append.mp ht with ht | ht
    · exact h.numbers t ht
    · rw [List.mem_singleton.mp ht]
      exact fun hn => absurd hn hnumber
  · intro text htext
    obtain ⟨t, ht, hname⟩ := h.known text htext
    exact ⟨t, List.mem_append_left _ ht, hname⟩

theorem pushNumber (h : Sound slots known) {text : String} (hn : IsNumber text) :
    Sound (slots ++ [⟨text, .constant, ⟨Decimal.leading text.toList, 0⟩⟩]) (text :: known) := by
  refine ⟨?_, ?_, ?_⟩
  · intro t ht
    rcases List.mem_append.mp ht with ht | ht
    · exact h.names t ht
    · rw [List.mem_singleton.mp ht]
      exact fun hname => absurd hn (not_isNumber_of_isName hname)
  · intro t ht hnum
    rcases List.mem_append.mp ht with ht | ht
    · exact ⟨(h.numbers t ht hnum).1, List.mem_cons_of_mem _ (h.numbers t ht hnum).2⟩
    · rw [List.mem_singleton.mp ht]
      exact ⟨rfl, List.mem_cons_self⟩
  · intro t ht
    rcases List.mem_cons.mp ht with rfl | ht
    · exact ⟨_, List.mem_append_right _ List.mem_cons_self, rfl⟩
    · obtain ⟨s, hs, hname⟩ := h.known t ht
      exact ⟨s, List.mem_append_left _ hs, hname⟩

/-- A slot that is found under a name is a variable. -/
theorem holds_name (h : Sound slots known) {name : String} (hname : IsName name) {i : Nat}
    (hi : slots.findIdx? (Text.sameName ·.name name) = some i) :
    Holds slots i (.name name) := by
  obtain ⟨hlt, hsame, _⟩ := List.findIdx?_eq_some_iff_getElem.mp hi
  exact ⟨hi, slots[i], List.getElem?_eq_getElem hlt,
    h.names _ (List.getElem_mem hlt) (isName_of_sameName hsame hname)⟩

/-- A slot that is found under the text of a number holds that number. -/
theorem holds_number (h : Sound slots known) {text : String} (hn : IsNumber text) {i : Nat}
    (hi : slots.findIdx? (·.name == text) = some i) :
    Holds slots i (.literal text ⟨Decimal.leading text.toList, 0⟩) ∧ text ∈ known := by
  obtain ⟨hlt, hsame, _⟩ := List.findIdx?_eq_some_iff_getElem.mp hi
  have hname : slots[i].name = text := beq_iff_eq.mp hsame
  obtain ⟨hslot, hknown⟩ := h.numbers _ (List.getElem_mem hlt) (hname ▸ hn)
  rw [hname] at hslot hknown
  exact ⟨by rw [Holds, List.getElem?_eq_getElem hlt, hslot], hknown⟩

theorem not_mem_known (h : Sound slots known) {text : String}
    (hi : slots.findIdx? (·.name == text) = none) : text ∉ known := by
  intro hmem
  obtain ⟨s, hs, hname⟩ := h.known text hmem
  have := List.findIdx?_eq_none_iff.mp hi s hs
  rw [hname] at this
  simp at this

theorem isName_builtin (v : Builtin) : IsName v.name := by
  cases v <;> refine ⟨_, _, rfl, ?_⟩ <;> decide

theorem start (env : Environment) : Sound (Draft.builtinSlots env) [] := by
  have hname : ∀ s ∈ Draft.builtinSlots env, IsName s.name ∧ s.kind = .predefined := by
    intro s hs
    obtain ⟨v, -, rfl⟩ := List.mem_map.mp hs
    exact ⟨isName_builtin v, rfl⟩
  refine ⟨?_, ?_, ?_⟩
  · intro s hs _
    rw [(hname s hs).2]
    exact SlotKind.noConfusion
  · intro s hs hnum
    exact absurd hnum (not_isNumber_of_isName (hname s hs).1)
  · intro text htext
    simp at htext

end Sound
end Compile
end FractalFormula
