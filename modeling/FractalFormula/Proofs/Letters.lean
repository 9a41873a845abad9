/-
Tokens are read off letters.

What a token is and what is left for the next one depends on the letters ahead, not on where they
stand: places with the same letters ahead (`Cursor.Like`) are alike to every reader, so the tokens
from there on are spelled the same (`Token.spellings_stream`).
-/
import FractalFormula.Token.Stream

namespace FractalFormula

namespace Cursor

/-- The letters from a place to the end of the text, read one by one. -/
def letters (c : Cursor) : List Char :=
  match _h : c.letter with
  | (none, _) => []
  | (some x, next) => x :: next.letters
termination_by c.ahead.length
decreasing_by
  unfold letter at _h
  split at _h
  · cases _h
  · rename_i hc
    cases _h
    rw [hc]
    exact Nat.lt_succ_self _

/-- The letters ahead, wherever they stand. -/
def chars (c : Cursor) : List Char :=
  c.ahead.map Letter.char

theorem chars_of_ahead {c : Cursor} {l : Letter} {rest : List Letter} (hc : c.ahead = l :: rest) :
    c.chars = l.char :: rest.map Letter.char := by
  rw [chars, hc]
  rfl

theorem letters_eq (c : Cursor) : c.letters = c.chars := by
  fun_induction letters c with
  | case1 c next h =>
    unfold letter at h
    split at h
    · rename_i hc
      rw [chars, hc]
      rfl
    · cases h
  | case2 c x next h ih =>
    unfold letter at h
    split at h
    · cases h
    · rename_i hc
      cases h
      rw [ih, chars_of_ahead hc]
      rfl

/-- The same letters are ahead. -/
def Like (c c' : Cursor) : Prop :=
  c.chars = c'.chars

namespace Like

variable {c c' : Cursor}

theorem nil (h : c.Like c') (hc : c.ahead = []) : c'.ahead = [] := by
  rw [Like, chars, hc] at h
  exact List.map_eq_nil_iff.mp h.symm

theorem cons {l : Letter} {rest : List Letter} (h : c.Like c') (hc : c.ahead = l :: rest) :
    ∃ l' rest', c'.ahead = l' :: rest' ∧ l'.char = l.char ∧
      rest'.map Letter.char = rest.map Letter.char := by
  rw [Like, chars_of_ahead hc] at h
  obtain ⟨l', rest', hc', hl, hrest⟩ := List.map_eq_cons_iff.mp h.symm
  exact ⟨l', rest', hc', hl, hrest⟩

/-- Letters of one kind are followed by the same others. -/
theorem takeWhile (h : c.Like c') (p : Char → Bool) :
    (c.ahead.takeWhile (p ·.char)).map Letter.char =
      (c'.ahead.takeWhile (p ·.char)).map Letter.char := by
  have htake (c : Cursor) :
      (c.ahead.takeWhile (p ·.char)).map Letter.char = c.chars.takeWhile p :=
    (List.takeWhile_map ..).symm
  rw [htake, htake, h]

theorem dropWhile (h : c.Like c') (p : Char → Bool) :
    (c.ahead.dropWhile (p ·.char)).map Letter.char =
      (c'.ahead.dropWhile (p ·.char)).map Letter.char := by
  have hdrop (c : Cursor) :
      (c.ahead.dropWhile (p ·.char)).map Letter.char = c.chars.dropWhile p :=
    (List.dropWhile_map ..).symm
  rw [hdrop, hdrop, h]

end Like
end Cursor

namespace Token

/-- A token without its place. -/
def spelling (t : Token) : String × Kind :=
  (t.text, t.kind)

/-- Tokens that are spelled the same, with the same letters behind them. -/
def Alike (r r' : Token × Cursor) : Prop :=
  r.1.spelling = r'.1.spelling ∧ r.2.Like r'.2

theorem alike_upTo {c c' : Cursor} (h : c.Like c') (start start' : Nat) (text : String)
    (kind : Kind) : Alike (upTo start text kind c) (upTo start' text kind c') :=
  ⟨rfl, h⟩

theorem like_pastAll {rest rest' : List Letter}
    (h : rest.map Letter.char = rest'.map Letter.char) (c c' : Cursor) (run run' : List Letter) :
    (pastAll c run rest).Like (pastAll c' run' rest') := by
  rw [Cursor.Like, Cursor.chars, Cursor.chars, pastAll_ahead, pastAll_ahead, h]

variable {c c' : Cursor}

/-! ## Numbers and pairs -/

theorem Numeral.readFrom_like {d : Numeral.Draft} {place place' : Cursor} {ahead : List Letter} :
    ∀ {ahead' : List Letter}, ahead.map Letter.char = ahead'.map Letter.char →
      let n := Numeral.readFrom d place ahead
      let n' := Numeral.readFrom d place' ahead'
      n.text = n'.text ∧ n.value = n'.value ∧ n.cursor.Like n'.cursor := by
  induction ahead generalizing d place place' with
  | nil =>
    intro ahead' h
    obtain rfl := List.map_eq_nil_iff.mp h.symm
    exact ⟨rfl, rfl, rfl⟩
  | cons l rest ih =>
    intro ahead' h
    obtain ⟨l', rest', rfl, hl, hrest⟩ := List.map_eq_cons_iff.mp h.symm
    have hsign : Numeral.signAhead rest' = Numeral.signAhead rest := by
      cases rest with
      | nil =>
        obtain rfl := List.map_eq_nil_iff.mp hrest
        rfl
      | cons k rest =>
        obtain ⟨k', rest', rfl, hk, -⟩ := List.map_eq_cons_iff.mp hrest
        rw [Numeral.signAhead, Numeral.signAhead, hk]
    have hturn : d.turn l'.char rest' = d.turn l.char rest := by
      unfold Numeral.Draft.turn
      rw [hl, hsign]
    rw [Numeral.readFrom, Numeral.readFrom, hturn]
    cases d.turn l.char rest with
    | grow d' =>
      dsimp only
      split
      · exact ⟨rfl, rfl, hrest.symm⟩
      · exact ih hrest.symm
    | spoil d' => exact ⟨rfl, rfl, hrest.symm⟩
    | complete => exact ⟨rfl, rfl, h⟩

theorem Numeral.read_like (first : Char) (h : c.Like c') :
    let n := Numeral.read first c
    let n' := Numeral.read first c'
    n.text = n'.text ∧ n.value = n'.value ∧ n.cursor.Like n'.cursor :=
  Numeral.readFrom_like h

theorem alike_readNumber (start start' : Nat) (first : Char) (h : c.Like c') :
    Alike (readNumber start first c) (readNumber start' first c') := by
  obtain ⟨htext, hvalue, hcursor⟩ := Numeral.read_like first h
  unfold readNumber
  dsimp only
  rw [htext, hvalue]
  split <;> exact alike_upTo hcursor _ _ _ _

theorem part?_like (h : c.Like c') :
    Option.Rel (fun r r' => r.1 = r'.1 ∧ r.2.1 = r'.2.1 ∧ r.2.2.Like r'.2.2)
      (part? c) (part? c') := by
  unfold part?
  cases hc : c.ahead with
  | nil =>
    rw [h.nil hc]
    exact .none
  | cons l rest =>
    obtain ⟨l', rest', hc', hl, hrest⟩ := h.cons hc
    rw [hc']
    dsimp only
    rw [hl]
    split
    · cases rest with
      | nil =>
        obtain rfl := List.map_eq_nil_iff.mp hrest
        exact .none
      | cons d rest =>
        obtain ⟨d', rest', rfl, hd, hrest⟩ := List.map_eq_cons_iff.mp hrest
        dsimp only
        rw [hd]
        split
        · have hpast : (c.past d rest).Like (c'.past d' rest') := hrest.symm
          obtain ⟨htext, hvalue, hcursor⟩ := Numeral.read_like d.char hpast
          rw [htext, hvalue]
          split
          · exact .some ⟨rfl, rfl, hcursor⟩
          · exact .none
        · exact .none
    · split
      · have hpast : (c.past l rest).Like (c'.past l' rest') := hrest.symm
        obtain ⟨htext, hvalue, hcursor⟩ := Numeral.read_like l.char hpast
        rw [htext, hvalue]
        split
        · exact .some ⟨rfl, rfl, hcursor⟩
        · exact .none
      · exact .none

theorem after?_like (want : Char) (h : c.Like c') :
    Option.Rel Cursor.Like (after? want c) (after? want c') := by
  unfold after?
  cases hc : c.ahead with
  | nil =>
    rw [h.nil hc]
    exact .none
  | cons l rest =>
    obtain ⟨l', rest', hc', hl, hrest⟩ := h.cons hc
    rw [hc']
    dsimp only
    rw [hl]
    split
    · exact .some hrest.symm
    · exact .none

theorem rel_bind {α β γ δ : Type} {R : α → β → Prop} {S : γ → δ → Prop} {a : Option α}
    {b : Option β} {f : α → Option γ} {g : β → Option δ} (h : Option.Rel R a b)
    (hfg : ∀ x y, R x y → Option.Rel S (f x) (g y)) : Option.Rel S (a.bind f) (b.bind g) := by
  cases h with
  | none => exact .none
  | some h => exact hfg _ _ h

theorem pair?_like (h : c.Like c') :
    Option.Rel (fun r r' => r.1 = r'.1 ∧ r.2.1 = r'.2.1 ∧ r.2.2.1 = r'.2.2.1 ∧
      r.2.2.2.Like r'.2.2.2) (pair? c) (pair? c') := by
  refine rel_bind (part?_like h) fun re re' hre => ?_
  obtain ⟨hre, hx, h⟩ := hre
  refine rel_bind (after?_like ',' h) fun c₂ c₂' h => ?_
  refine rel_bind (part?_like h) fun im im' him => ?_
  obtain ⟨him, hy, h⟩ := him
  refine rel_bind (after?_like ')' h) fun c₄ c₄' h => ?_
  rw [hre, hx, him, hy]
  exact .some ⟨rfl, rfl, rfl, h⟩

theorem alike_readParen (start start' : Nat) (h : c.Like c') :
    Alike (readParen start c) (readParen start' c') := by
  unfold readParen
  have hpair := pair?_like h
  generalize pair? c = found at hpair
  generalize pair? c' = found' at hpair
  cases hpair with
  | none => exact alike_upTo h _ _ _ _
  | some hpair =>
    obtain ⟨htext, hx, hy, h⟩ := hpair
    dsimp only
    rw [htext, hx, hy]
    exact alike_upTo h _ _ _ _

/-! ## Names and marks -/

theorem alike_readName (start start' : Nat) (first : Char) (h : c.Like c') :
    Alike (readName start first c) (readName start' first c') := by
  have hmore := h.takeWhile isNameChar
  have hrest := h.dropWhile isNameChar
  unfold readName
  dsimp only
  rw [hmore]
  cases hdrop : c.ahead.dropWhile (isNameChar ·.char) with
  | nil =>
    rw [hdrop] at hrest
    rw [List.map_eq_nil_iff.mp hrest.symm]
    exact ⟨rfl, rfl⟩
  | cons next rest =>
    rw [hdrop] at hrest
    obtain ⟨next', rest', hdrop', hnext, hrest'⟩ := List.map_eq_cons_iff.mp hrest.symm
    have hpast : (c.past next rest).Like (c'.past next' rest') := hrest'.symm
    rw [hdrop'] at hrest ⊢
    dsimp only
    rw [hnext]
    split
    · exact alike_upTo hpast _ _ _ _
    · split <;> exact alike_upTo (like_pastAll hrest _ _ _ _) _ _ _ _

theorem alike_readSeparators (start start' : Nat) (first : Char) (h : c.Like c') :
    Alike (readSeparators start first c) (readSeparators start' first c') := by
  have hrun : (c.ahead.takeWhile (isSeparator ·.char)).any (·.char == ':') =
      (c'.ahead.takeWhile (isSeparator ·.char)).any (·.char == ':') := by
    have hany (run : List Letter) :
        run.any (·.char == ':') = (run.map Letter.char).any (· == ':') := by
      rw [List.any_map]
      rfl
    rw [hany, hany, h.takeWhile isSeparator]
  have hrest := h.dropWhile isSeparator
  unfold readSeparators
  dsimp only
  rw [hrun]
  cases hdrop : c.ahead.dropWhile (isSeparator ·.char) with
  | nil =>
    rw [hdrop] at hrest
    rw [List.map_eq_nil_iff.mp hrest.symm]
    exact alike_upTo (like_pastAll rfl _ _ _ _) _ _ _ _
  | cons next rest =>
    rw [hdrop] at hrest
    obtain ⟨next', rest', hdrop', hnext, hrest'⟩ := List.map_eq_cons_iff.mp hrest.symm
    have hpast : (c.past next rest).Like (c'.past next' rest') := hrest'.symm
    rw [hdrop'] at hrest ⊢
    dsimp only
    rw [hnext]
    split
    · exact alike_upTo hpast _ _ _ _
    · exact alike_upTo (like_pastAll hrest _ _ _ _) _ _ _ _

theorem alike_readDoubled (start start' : Nat) (first second : Char) (h : c.Like c') :
    Alike (readDoubled start first second c) (readDoubled start' first second c') := by
  have operator (text : String) {c c' : Cursor} (h : c.Like c') :
      Alike (readDoubled.operatorUpTo start text c) (readDoubled.operatorUpTo start' text c') := by
    rw [operatorUpTo_eq, operatorUpTo_eq]
    exact alike_upTo h _ _ _ _
  unfold readDoubled
  have hafter := after?_like second h
  generalize after? second c = after at hafter
  generalize after? second c' = after' at hafter
  cases hafter with
  | none => exact operator _ h
  | some hafter => exact operator _ hafter

theorem alike_readMark (start start' : Nat) (mark : Char) (h : c.Like c') :
    Alike (readMark start mark c) (readMark start' mark c') := by
  unfold readMark
  split
  · exact alike_readDoubled start start' mark _ h
  · repeat' split
    · exact alike_upTo h _ _ _ _
    · exact alike_upTo h _ _ _ _
    · exact alike_readParen start start' h
    · exact alike_readSeparators start start' mark h
    · exact alike_upTo h _ _ _ _
    · exact alike_upTo h _ _ _ _

/-! ## Tokens -/

/-- From places with the same letters ahead the same token is read. -/
theorem alike_read (h : c.Like c') : Alike (read c) (read c') := by
  unfold read
  cases hc : c.ahead with
  | nil =>
    rw [h.nil hc]
    exact ⟨rfl, rfl⟩
  | cons l rest =>
    obtain ⟨l', rest', hc', hl, hrest⟩ := h.cons hc
    have hpast : (c.past l rest).Like (c'.past l' rest') := hrest.symm
    rw [hc']
    dsimp only
    rw [hl]
    split
    · exact alike_readNumber _ _ _ hpast
    · split
      · exact alike_readName _ _ _ hpast
      · exact alike_readMark _ _ _ hpast

theorem isLast_of_spelling {t t' : Token} (h : t.spelling = t'.spelling) :
    t.isLast = t'.isLast := by
  have hkind : t.kind = t'.kind := congrArg Prod.snd h
  rw [isLast, isLast, hkind]

theorem isFault_of_spelling {t t' : Token} (h : t.spelling = t'.spelling) :
    t.isFault = t'.isFault := by
  have hkind : t.kind = t'.kind := congrArg Prod.snd h
  rw [isFault, isFault, hkind]

theorem spellings_stream (h : c.Like c') :
    (stream c).map spelling = (stream c').map spelling := by
  fun_induction stream c generalizing c' with
  | case1 c hlast =>
    obtain ⟨hspelling, -⟩ := alike_read h
    rw [stream, dif_pos (isLast_of_spelling hspelling ▸ hlast)]
    exact congrArg ([·]) hspelling
  | case2 c hlast ih =>
    obtain ⟨hspelling, hnext⟩ := alike_read h
    rw [stream.eq_def c', dif_neg (isLast_of_spelling hspelling ▸ hlast), List.map_cons,
      List.map_cons, hspelling, ih hnext]

theorem spellings_untilFault {ts ts' : List Token} (h : ts.map spelling = ts'.map spelling) :
    (untilFault ts).map spelling = (untilFault ts').map spelling := by
  induction ts generalizing ts' with
  | nil =>
    obtain rfl := List.map_eq_nil_iff.mp h.symm
    rfl
  | cons t ts ih =>
    obtain ⟨t', ts', rfl, ht, hts⟩ := List.map_eq_cons_iff.mp h.symm
    rw [untilFault, untilFault, isFault_of_spelling ht]
    split
    · exact congrArg ([·]) ht.symm
    · rw [List.map_cons, List.map_cons, ht, ih hts.symm]

end Token
end FractalFormula
