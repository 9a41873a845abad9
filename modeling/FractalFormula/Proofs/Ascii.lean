/-
Texts without foreign characters.

The letters of an ASCII text are ASCII characters (`Cursor.ascii_seek`), and so are the texts of its
tokens, of which only that of the end of the text can be empty (`Token.printable_stream`).
-/
import FractalFormula.Proofs.Heading
import FractalFormula.Proofs.Verbatim

namespace FractalFormula

namespace Text

/-- All characters are ASCII characters. -/
def Ascii (cs : List Char) : Prop :=
  ∀ k ∈ cs, k.toNat < 128

instance (cs : List Char) : Decidable (Ascii cs) :=
  List.decidableBAll (fun k : Char => k.toNat < 128) cs

theorem ascii_toLower {k : Char} (h : k.toNat < 128) : k.toLower.toNat < 128 := by
  have hall : ∀ n < 128, (Char.ofNat n).toLower.toNat < 128 := by decide
  have hk := hall k.toNat h
  rwa [Char.ofNat_toNat] at hk

/-- An ASCII character takes up one byte. -/
theorem Ascii.width_eq {cs : List Char} (h : Ascii cs) : width cs = cs.length := by
  refine width_eq_length_iff.mpr fun k hk => ?_
  have hsmall : k.val ≤ 0x7f := Nat.le_of_lt_succ (h k hk)
  exact if_pos hsmall

theorem Ascii.bytes {text : String} (h : Ascii text.toList) :
    ∀ b ∈ bytes text, (latin1 b).toNat < 128 := by
  intro b hb
  obtain ⟨k, hk, hb⟩ := List.mem_flatMap.mp hb
  rcases utf8_cases k with ⟨b', hbytes, hlatin⟩ | ⟨hhigh, -⟩
  · rw [hbytes, List.mem_singleton] at hb
    rw [hb, hlatin]
    exact h k hk
  · exact absurd (h k hk) (Nat.not_lt.mpr hhigh)

end Text

open Text

/-! ## Letters -/

theorem Letter.ascii_listFrom {bs : List UInt8} (h : ∀ b ∈ bs, (latin1 b).toNat < 128)
    (joined comment : Bool) (offset : Nat) :
    Ascii ((listFrom joined comment offset bs).map char) := by
  induction bs generalizing joined comment offset with
  | nil => exact nofun
  | cons b bs ih =>
    obtain ⟨hb, hbs⟩ := List.forall_mem_cons.mp h
    have next (joined comment : Bool) := ih hbs joined comment (offset + 1)
    unfold listFrom
    dsimp only
    repeat' split
    · exact next _ _
    · rename_i hnewline _
      have hsmall : '\n'.toNat < 128 := by decide
      rw [hnewline]
      exact List.forall_mem_cons.mpr ⟨hsmall, next _ _⟩
    · exact next _ _
    · exact next _ _
    · exact next _ _
    · exact next _ _
    · exact List.forall_mem_cons.mpr ⟨ascii_toLower hb, next _ _⟩

theorem Cursor.ascii_seek {text : String} (h : Ascii text.toList) (offset : Nat) :
    Ascii (seek text offset).chars :=
  Letter.ascii_listFrom (fun b hb => h.bytes b (List.mem_of_mem_drop hb)) _ _ _

/-! ## Tokens -/

namespace Token

/-- The text of the token is made of ASCII characters, and it can be seen but for the end of the
text. -/
structure Printable (t : Token) : Prop where
  ascii : Ascii t.text.toList
  visible : t.kind = .fault .endOfText ∨ t.text.toList ≠ []

variable {c : Cursor}

theorem Numeral.Draft.text_turn {d d' : Draft} {k : Char} {rest : List Letter}
    (h : d.turn k rest = .grow d' ∨ d.turn k rest = .spoil d') : d'.text = k :: d.text := by
  unfold turn at h
  repeat' split at h
  all_goals
    rcases h with h | h <;> cases h <;> rfl

theorem Numeral.printable_readFrom {d : Draft} {place : Cursor} {ahead : List Letter}
    (hd : Ascii d.text ∧ d.text ≠ []) (h : Ascii (ahead.map Letter.char)) :
    Ascii (readFrom d place ahead).text ∧ (readFrom d place ahead).text ≠ [] := by
  have shown {d : Draft} (hd : Ascii d.text ∧ d.text ≠ []) :
      Ascii d.text.reverse ∧ d.text.reverse ≠ [] :=
    ⟨fun k hk => hd.1 k (List.mem_reverse.mp hk), List.reverse_ne_nil_iff.mpr hd.2⟩
  induction ahead generalizing d place with
  | nil => exact shown hd
  | cons l rest ih =>
    obtain ⟨hl, hrest⟩ := List.forall_mem_cons.mp h
    have hnext {d' : Draft}
        (hturn : d.turn l.char rest = .grow d' ∨ d.turn l.char rest = .spoil d') :
        Ascii d'.text ∧ d'.text ≠ [] := by
      rw [Draft.text_turn hturn]
      exact ⟨List.forall_mem_cons.mpr ⟨hl, hd.1⟩, List.cons_ne_nil _ _⟩
    rw [readFrom]
    split
    · rename_i d' hturn
      split
      · exact shown (hnext (.inl hturn))
      · exact ih (hnext (.inl hturn)) hrest
    · rename_i d' hturn
      exact shown (hnext (.inr hturn))
    · exact shown hd

/-- Whatever kind of token it is, its text is printed as it is. -/
theorem printable_upTo {cs : List Char} (h : Ascii cs ∧ cs ≠ []) (start : Nat) (kind : Kind)
    (c : Cursor) : (upTo start (String.ofList cs) kind c).1.Printable := by
  have htext : (upTo start (String.ofList cs) kind c).1.text.toList = cs := String.toList_ofList
  constructor
  case ascii => rw [htext]; exact h.1
  case visible => exact .inr (by rw [htext]; exact h.2)

/-- A mark that is a token by itself. -/
theorem printable_single {mark : Char} (h : mark.toNat < 128) (start : Nat) (kind : Kind) (c : Cursor) :
    (upTo start (ofChar mark) kind c).1.Printable :=
  printable_upTo ⟨List.forall_mem_singleton.mpr h, List.cons_ne_nil mark []⟩ start kind c

theorem printable_end (start : Nat) (c : Cursor) :
    (upTo start "" (.fault .endOfText) c).1.Printable :=
  ⟨show Ascii "".toList by decide, .inl rfl⟩

theorem printable_readNumber (start : Nat) {first : Char} (hfirst : first.toNat < 128)
    (h : Ascii c.chars) : (readNumber start first c).1.Printable := by
  have htext : Ascii (Numeral.read first c).text ∧ (Numeral.read first c).text ≠ [] :=
    Numeral.printable_readFrom ⟨List.forall_mem_singleton.mpr hfirst, List.cons_ne_nil _ _⟩ h
  match readNumber start first c, numberRead start first c with
  | _, .number _ | _, .fault _ => exact printable_upTo htext _ _ _

theorem printable_readName (start : Nat) {first : Char} (hfirst : first.toNat < 128)
    (h : Ascii c.chars) : (readName start first c).1.Printable := by
  let name := first :: (c.ahead.takeWhile (isNameChar ·.char)).map Letter.char
  have hname : Ascii (name.take keptNameLength) ∧ name.take keptNameLength ≠ [] := by
    refine ⟨fun k hk => ?_, List.cons_ne_nil _ _⟩
    rcases List.mem_cons.mp (List.mem_of_mem_take hk) with rfl | hk
    · exact hfirst
    · exact h k (((List.takeWhile_prefix _).map Letter.char).subset hk)
  match readName start first c, nameRead start first c with
  | _, .ended _ => exact printable_end _ _
  | _, .dotted .. =>
    have hpoint : keptName first c ++ "." =
        String.ofList (name.take keptNameLength ++ ['.']) := String.ofList_append.symm
    rw [hpoint]
    refine printable_upTo ⟨List.forall_mem_append.mpr ⟨hname.1, ?_⟩, ?_⟩ _ _ _
    · exact List.forall_mem_singleton.mpr (by decide)
    · exact List.append_ne_nil_of_right_ne_nil _ (List.cons_ne_nil _ _)
  | _, .tooLong _ | _, .name .. => exact printable_upTo hname _ _ _

theorem ascii_of_isPlain {k : Char} (h : isPlain k = true) : k.toNat < 128 := by
  simp only [isPlain, Bool.and_eq_true, decide_eq_true_eq] at h
  exact Nat.lt_succ_of_lt h.1.1.2

theorem printable_readParen (start : Nat) (c : Cursor) : (readParen start c).1.Printable := by
  match readParen start c, parenRead start c with
  | _, .single _ => exact printable_single (show '('.toNat < 128 by decide) _ _ _
  | _, .pair hpair =>
    obtain ⟨used, htext, hused, -⟩ := pair?_verbatim hpair
    refine ⟨?_, .inr (htext ▸ List.cons_ne_nil _ _)⟩
    show Ascii _
    rw [upTo, htext]
    refine List.forall_mem_cons.mpr ⟨by decide, List.forall_mem_append.mpr ⟨fun k hk => ?_, ?_⟩⟩
    · rcases hused k hk with hk | rfl
      · exact ascii_of_isPlain (isPlain_of_isNumeric hk)
      · decide
    · exact List.forall_mem_singleton.mpr (by decide)

theorem printable_readSeparators (start : Nat) (first : Char) (c : Cursor) :
    (readSeparators start first c).1.Printable := by
  match readSeparators start first c, separatorsRead start first c with
  | _, .brace .. => exact printable_single (show '}'.toNat < 128 by decide) _ _ _
  | _, .run _ =>
    obtain ⟨s, hs, hseparator, -⟩ := exists_symbol (endsStatement_separatorOf first c)
    refine ⟨?_, .inr (hs ▸ List.cons_ne_nil _ _)⟩
    rw [upTo, hs]
    refine List.forall_mem_singleton.mpr ?_
    rcases eq_of_isSeparator hseparator with rfl | rfl | rfl <;> decide

theorem printable_readMark (start : Nat) {mark : Char} (hmark : mark.toNat < 128) (c : Cursor) :
    (readMark start mark c).1.Printable := by
  match readMark start mark c, markRead start mark c with
  | _, .two hsecond _ =>
    have hplain := ascii_of_isPlain (plain_of_secondOf hsecond).2.2.1
    exact printable_upTo ⟨List.forall_mem_cons.mpr
      ⟨hmark, List.forall_mem_singleton.mpr hplain⟩, List.cons_ne_nil _ _⟩ _ _ _
  | _, .one .. | _, .operator .. | _, .other .. => exact printable_single hmark _ _ _
  | _, .brace _ => exact printable_single (show '}'.toNat < 128 by decide) _ _ _
  | _, .rightParen _ => exact printable_single (show ')'.toNat < 128 by decide) _ _ _
  | _, .leftParen _ => exact printable_readParen start c
  | _, .separator _ => exact printable_readSeparators start mark c

theorem printable_read (h : Ascii c.chars) : (read c).1.Printable := by
  cases hc : c.ahead with
  | nil =>
    rw [read, hc]
    exact printable_end _ _
  | cons l rest =>
    rw [Cursor.chars_of_ahead hc] at h
    obtain ⟨hl, hrest⟩ := List.forall_mem_cons.mp h
    rw [read_of_ahead hc]
    split
    · exact printable_readNumber _ hl hrest
    · split
      · exact printable_readName _ hl hrest
      · exact printable_readMark _ hl _

theorem printable_stream (h : Ascii c.chars) : ∀ t ∈ stream c, t.Printable := by
  fun_induction stream c with
  | case1 c hlast => exact List.forall_mem_singleton.mpr (printable_read h)
  | case2 c hlast ih =>
    refine List.forall_mem_cons.mpr ⟨printable_read h, ih fun k hk => h k ?_⟩
    exact ((suffix_read c).map Letter.char).subset hk

end Token
end FractalFormula
