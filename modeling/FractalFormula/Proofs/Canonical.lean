/-
The text of a program, read again.

The text of a program is made of the texts of its tokens, with nothing between them.  Behind each
token the same letter comes as when it was read first, or a separator in place of a break, so the
tokens are read again one by one (`Token.spellings_canonical`).  Only for a parenthesis the letters
up to its closing one count: they are the same too, since no statement ends inside it
(`Token.exists_paren`).
-/
import FractalFormula.Proofs.Extent
import FractalFormula.Proofs.Insignificant
import FractalFormula.Proofs.Verbatim

namespace FractalFormula

namespace Check

/-- Inside a parenthesis nothing ends, and only its closing one leaves it. -/
theorem Stance.Step.stays_open {t t' : Stance} {l : Lexeme} (h : t.Step t' l)
    (hopen : t.openParens ≠ 0) (hl : l ≠ .rightParen) :
    t'.openParens ≠ 0 ∧ ¬ l.Separates := by
  cases l with
  | rightParen => exact absurd rfl hl
  | leftParen =>
    obtain ⟨-, -, rfl⟩ := h
    exact ⟨Nat.succ_ne_zero _, id⟩
  | operator o =>
    cases o with
    | comma | colon => exact absurd h.1.1 hopen
    | _ =>
      obtain ⟨-, rfl⟩ := h
      exact ⟨hopen, Bool.false_ne_true⟩
  | close => exact absurd h.1.1 hopen
  | fault f => exact h.elim
  | _ =>
    obtain ⟨-, rfl⟩ := h
    exact ⟨hopen, id⟩

end Check

namespace Token

open Check

variable {c c' : Cursor} {ts : List Token}

/-! ## Tokens -/

/-- The texts of tokens, one after the other, and the end of a body. -/
def canonical (ts : List Token) : List Char :=
  ts.flatMap (·.text.toList) ++ ['\n', '}']

theorem canonical_cons (t : Token) (ts : List Token) :
    canonical (t :: ts) = t.text.toList ++ canonical ts := by
  rw [canonical, List.flatMap_cons, List.append_assoc]
  rfl

/-- A token before the last one ends a statement, or separates nothing. -/
theorem separates_cases {t : Token} (hlast : t.isLast = false) (hfault : t.isFault = false) :
    (∃ o, t.kind = .operator o ∧ o.endsStatement = true) ∨
      (∀ f, t.kind ≠ .fault f) ∧ ¬ t.lexeme.Separates := by
  have hgood (f : Fault) : t.kind ≠ .fault f := by
    intro hkind
    rw [isFault, hkind] at hfault
    cases hfault
  unfold lexeme
  cases hkind : t.kind with
  | close =>
    rw [isLast, hkind] at hlast
    cases hlast
  | fault f => exact absurd hkind (hgood f)
  | operator o =>
    cases ho : o.endsStatement with
    | true => exact .inl ⟨o, rfl, ho⟩
    | false =>
      refine .inr ⟨hkind ▸ hgood, ?_⟩
      rw [Lexeme.Separates, ho]
      exact Bool.false_ne_true
  | _ => exact .inr ⟨hkind ▸ hgood, id⟩

theorem abreast_canonical (h : Reads c ts c') (hclose : (read c').1.kind = .close)
    (hfault : ∀ t ∈ ts, t.isFault = false) : Abreast c.chars (canonical ts) := by
  cases h with
  | nil =>
    obtain ⟨k, rest, hc, hk⟩ := exists_break_of_separates (c := c) (by rw [lexeme, hclose]; trivial)
    exact ⟨k, rest, '\n', ['}'], hc, rfl, .inr ⟨hk, rfl⟩⟩
  | cons hlast hreads =>
    rename_i ts
    rw [canonical_cons]
    rcases separates_cases hlast (hfault _ List.mem_cons_self) with ⟨o, hkind, ho⟩ | ⟨hgood, hends⟩
    · obtain ⟨k, rest, hc, hk⟩ :=
        exists_break_of_separates (c := c) (by rw [lexeme, hkind]; exact ho)
      obtain ⟨s, hs, hseparator, -⟩ := exists_symbol ho
      have htext : (read c).1.text = o.symbol :=
        congrArg Prod.fst (spelling_of_endsStatement hkind ho).1
      rw [htext, hs]
      exact ⟨k, rest, s, canonical ts, hc, rfl, .inr ⟨hk, hseparator⟩⟩
    · obtain ⟨first, used, -, hverbatim⟩ := read_verbatim hgood hends
      rw [hverbatim.text, hverbatim.chars]
      exact abreast_cons first _ _

/-- A parenthesis of its own has no pair behind it, and the one that closes is its letter. -/
def Bracketed (r : Token × Cursor) : Prop :=
  (r.1.kind = .leftParen → pair? r.2 = none) ∧ (r.1.kind = .rightParen → r.1.text = ")")

theorem bracketed_readNumber (start : Nat) (first : Char) (c : Cursor) :
    Bracketed (readNumber start first c) := by
  match readNumber start first c, numberRead start first c with
  | _, .number _ | _, .fault _ => exact ⟨nofun, nofun⟩

theorem bracketed_kindOfName (start : Nat) (name : String) (next : Char) (c : Cursor) :
    Bracketed (upTo start name (kindOfName name next) c) := by
  unfold kindOfName
  repeat' split
  all_goals exact ⟨nofun, nofun⟩

theorem bracketed_readName (start : Nat) (first : Char) (c : Cursor) :
    Bracketed (readName start first c) := by
  match readName start first c, nameRead start first c with
  | _, .ended _ | _, .dotted .. | _, .tooLong _ => exact ⟨nofun, nofun⟩
  | _, .name .. => exact bracketed_kindOfName _ _ _ _

theorem bracketed_readParen (start : Nat) (c : Cursor) : Bracketed (readParen start c) := by
  match readParen start c, parenRead start c with
  | _, .pair _ => exact ⟨nofun, nofun⟩
  | _, .single hpair => exact ⟨fun _ => hpair, nofun⟩

theorem bracketed_readSeparators (start : Nat) (first : Char) (c : Cursor) :
    Bracketed (readSeparators start first c) := by
  match readSeparators start first c, separatorsRead start first c with
  | _, .brace .. | _, .run _ => exact ⟨nofun, nofun⟩

theorem bracketed_kindOfOperator (start : Nat) (text : String) (c : Cursor) :
    Bracketed (upTo start text (kindOfOperator text) c) := by
  rcases kindOfOperator_cases text with ⟨o, -, hkind⟩ | hkind <;>
  · rw [hkind]
    exact ⟨nofun, nofun⟩

theorem bracketed_readMark (start : Nat) (mark : Char) (c : Cursor) :
    Bracketed (readMark start mark c) := by
  match readMark start mark c, markRead start mark c with
  | _, .two .. | _, .one .. => exact bracketed_kindOfOperator _ _ _
  | _, .rightParen _ => exact ⟨nofun, fun _ => rfl⟩
  | _, .leftParen _ => exact bracketed_readParen start c
  | _, .separator _ => exact bracketed_readSeparators start mark c
  | _, .brace _ | _, .operator .. | _, .other .. => exact ⟨nofun, nofun⟩

theorem bracketed_read (c : Cursor) : Bracketed (read c) := by
  unfold read
  split
  · exact ⟨nofun, nofun⟩
  · dsimp only
    split
    · exact bracketed_readNumber _ _ _
    · split
      · exact bracketed_readName _ _ _
      · exact bracketed_readMark _ _ _

/-- Inside a parenthesis the letters are the same up to the next one that closes. -/
theorem exists_paren (h : Reads c ts c') (hfault : ∀ t ∈ ts, t.isFault = false) {t u : Stance}
    (hsteps : t.Steps (ts.map lexeme) u) (hends : u.Ends) (hopen : t.openParens ≠ 0) :
    ∃ front rest rest', c.chars = front ++ ')' :: rest ∧ canonical ts = front ++ ')' :: rest' ∧
      ')' ∉ front := by
  induction h generalizing t with
  | nil =>
    cases hsteps
    exact absurd hends.1 hopen
  | cons hlast hreads ih =>
    rename_i c c' ts
    obtain ⟨hfirst, hrest⟩ := List.forall_mem_cons.mp hfault
    cases hsteps with
    | cons hstep hsteps =>
      rcases separates_cases hlast hfirst with ⟨o, hkind, ho⟩ | ⟨hgood, hseparates⟩
      · have hlexeme : (read c).1.lexeme = .operator o := by rw [lexeme, hkind]
        rw [hlexeme] at hstep
        have hne : Lexeme.operator o ≠ .rightParen := fun h => by cases h
        exact absurd ho (hstep.stays_open hopen hne).2
      obtain ⟨first, used, -, hverbatim⟩ := read_verbatim hgood hseparates
      rw [hverbatim.chars, canonical_cons, hverbatim.text]
      -- The next parenthesis that closes is in this token or behind it.
      by_cases hmem : ')' ∈ first :: used
      · obtain ⟨front, back, hsplit, hfront⟩ := List.eq_append_cons_of_mem hmem
        refine ⟨front, back ++ (read c).2.chars, back ++ canonical ts, ?_, ?_, hfront⟩
        · rw [hsplit, List.append_assoc]
          rfl
        · rw [List.nil_append, hsplit, List.append_assoc]
          rfl
      · have hright : (read c).1.lexeme ≠ .rightParen := by
          intro hright
          have hkind : (read c).1.kind = .rightParen := by
            cases hk : (read c).1.kind <;> rw [lexeme, hk] at hright <;> first | rfl | cases hright
          have hmark : ')' ∈ ")".toList := by decide
          rw [← (bracketed_read c).2 hkind, hverbatim.text] at hmark
          exact hmem hmark
        obtain ⟨front, rest, rest', hc, hcanonical, hfront⟩ :=
          ih hrest hsteps (hstep.stays_open hopen hright).1
        refine ⟨first :: used ++ front, rest, rest', ?_, ?_, ?_⟩
        · rw [hc, List.append_assoc]
        · rw [hcanonical, List.nil_append, List.append_assoc]
        · exact fun h => (List.mem_append.mp h).elim hmem hfront

/-- A parenthesis of its own stays one. -/
theorem lone_canonical (h : Reads c ts c') (hfault : ∀ t ∈ ts, t.isFault = false) {t u : Stance}
    (hsteps : t.Steps (ts.map lexeme) u) (hends : u.Ends) (hopen : t.openParens ≠ 0)
    (hpair : pair? c = none) : Lone (canonical ts) := by
  intro d hd
  obtain ⟨front, rest, rest', hc, hcanonical, hfront⟩ := exists_paren h hfault hsteps hends hopen
  cases hfound : pair? d with
  | none => rfl
  | some r =>
    obtain ⟨text, x, y, d'⟩ := r
    obtain ⟨used, -, hused, hchars, hagain⟩ := pair?_verbatim hfound
    have hclosing : ')' ∉ used := by
      intro hmem
      rcases hused _ hmem with hnumeric | hcomma
      · exact absurd hnumeric (by decide)
      · cases hcomma
    have before {l rest : List Char} (hl : ')' ∉ l) :
        (l ++ ')' :: rest).takeWhile (· != ')') = l := by
      have hgo : ∀ k ∈ l, (k != ')') = true := fun k hk => bne_iff_ne.mpr fun heq => hl (heq ▸ hk)
      rw [List.takeWhile_append_of_pos hgo]
      exact List.append_nil l
    have hsame : front = used := by
      rw [hd, hcanonical] at hchars
      rw [← before hfront, hchars, before hclosing]
    obtain ⟨c'', hpair', -⟩ := hagain c rest (hsame ▸ hc)
    rw [hpair] at hpair'
    cases hpair'

/-- The end of a body is a token of its own. -/
theorem stream_of_end {d : Cursor} (h : d.chars = ['\n', '}']) :
    (stream d).map spelling = [("\x7d", .close)] := by
  obtain ⟨l, rest, hl, hline, hrest⟩ := ahead_of_chars h
  obtain ⟨m, rest, rfl, hbrace, -⟩ := List.map_eq_cons_iff.mp hrest
  have hkind : (read d).1.kind = .close := by
    have hdrop : (d.past l (m :: rest)).ahead.dropWhile (isSeparator ·.char) = m :: rest := by
      rw [show (d.past l (m :: rest)).ahead = m :: rest from rfl, List.dropWhile_cons, hbrace]
      rfl
    rw [read_of_separator hl (.inr (.inl hline)), readSeparators, hdrop]
    dsimp only
    rw [if_pos hbrace]
    rfl
  have hlast : (read d).1.isLast = true := by rw [isLast, hkind]
  rw [stream_of_isLast hlast, List.map_singleton, spelling_of_close hkind]

/-- The tokens of a body are read again from their texts. -/
theorem spellings_canonical (h : Reads c ts c') (hclose : (read c').1.kind = .close)
    (hfault : ∀ t ∈ ts, t.isFault = false) {t u : Stance} (hsteps : t.Steps (ts.map lexeme) u)
    (hends : u.Ends) {d : Cursor} (hd : d.chars = canonical ts) :
    (stream d).map spelling = ts.map spelling ++ [("\x7d", .close)] := by
  induction h generalizing t d with
  | nil => exact stream_of_end hd
  | cons hlast hreads ih =>
    rename_i c c' ts
    obtain ⟨hfirst, hrest⟩ := List.forall_mem_cons.mp hfault
    have habreast := abreast_canonical hreads hclose hrest
    cases hsteps with
    | cons hstep hsteps =>
      rename_i t'
      have hread : (read d).1.spelling = (read c).1.spelling ∧ (read d).2.chars = canonical ts := by
        rw [canonical_cons] at hd
        -- A separator has come down to its symbol; everything else is there letter by letter.
        rcases separates_cases hlast hfirst with ⟨o, hkind, ho⟩ | ⟨hgood, hseparates⟩
        · obtain ⟨hspelling, hbehind⟩ := spelling_of_endsStatement hkind ho
          obtain ⟨k, rest, k', rest', hk, hk', hsame⟩ := habreast
          have hbreak := hbehind k rest hk
          obtain rfl : k' = k := by
            rcases hsame with hsame | ⟨hbreak', -⟩
            · exact hsame
            · rw [hbreak] at hbreak'
              cases hbreak'
          have htext : (read c).1.text = o.symbol := congrArg Prod.fst hspelling
          rw [htext, hk'] at hd
          rw [hspelling, hk']
          exact read_symbol ho hbreak hd
        · obtain ⟨first, used, -, hverbatim⟩ := read_verbatim hgood hseparates
          rw [hverbatim.text] at hd
          refine hverbatim.again 0 d (canonical ts) habreast (fun hkind => ?_) hd
          have hlexeme : (read c).1.lexeme = .leftParen := by rw [lexeme, hkind]
          rw [hlexeme] at hstep
          obtain ⟨-, -, rfl⟩ := hstep
          exact lone_canonical hreads hrest hsteps hends (Nat.succ_ne_zero _)
            ((bracketed_read c).1 hkind)
      obtain ⟨hspelling, hnext⟩ := hread
      rw [stream, dif_neg (by rw [isLast_of_spelling hspelling, hlast]; exact Bool.false_ne_true),
        List.map_cons, hspelling, ih hclose hrest hsteps hnext]
      rfl

/-! ## Texts -/

theorem plain_of_symbol {o : Operator} (ho : o.endsStatement = true) :
    ∀ k ∈ o.symbol.toList, isPlain k = true ∧ k.toLower = k := by
  have hcomma : Operator.comma.symbol.toList = [','] := by decide
  have hcolon : Operator.colon.symbol.toList = [':'] := by decide
  cases o with
  | comma =>
    rw [hcomma]
    exact List.forall_mem_singleton.mpr ⟨rfl, by decide⟩
  | colon =>
    rw [hcolon]
    exact List.forall_mem_singleton.mpr ⟨rfl, by decide⟩
  | _ => cases ho

/-- The texts of tokens are made of plain letters in lower case. -/
theorem plain_of_reads (h : Reads c ts c') (hfault : ∀ t ∈ ts, t.isFault = false)
    (hlower : ∀ k ∈ c.chars, k.toLower = k) :
    ∀ k ∈ ts.flatMap (·.text.toList), isPlain k = true ∧ k.toLower = k := by
  induction h with
  | nil => exact nofun
  | cons hlast hreads ih =>
    rename_i c c' ts
    obtain ⟨hfirst, hrest⟩ := List.forall_mem_cons.mp hfault
    intro k hk
    rw [List.flatMap_cons] at hk
    rcases List.mem_append.mp hk with hk | hk
    · rcases separates_cases hlast hfirst with ⟨o, hkind, ho⟩ | ⟨hgood, hseparates⟩
      · have htext : (read c).1.text = o.symbol :=
          congrArg Prod.fst (spelling_of_endsStatement hkind ho).1
        rw [htext] at hk
        exact plain_of_symbol ho k hk
      · obtain ⟨first, used, -, hverbatim⟩ := read_verbatim hgood hseparates
        rw [hverbatim.text] at hk
        refine ⟨hverbatim.plain k hk, hlower k ?_⟩
        rw [hverbatim.chars]
        exact List.mem_append_left _ hk
    · refine ih hrest (fun k hk => hlower k ?_) k hk
      exact ((suffix_read c).map Letter.char).subset hk

end Token

theorem Text.toLower_toLower (c : Char) : c.toLower.toLower = c.toLower := by
  unfold Char.toLower
  split
  · rename_i h
    refine dif_neg fun h' => ?_
    simp only [ge_iff_le, UInt32.le_iff_toNat_le] at h h'
    simp [UInt32.toNat_add] at h h'
    omega
  · rfl

namespace Letter

theorem toLower_of_mem_listFrom {bs : List UInt8} {joined comment : Bool} {offset : Nat} {l : Letter}
    (h : l ∈ listFrom joined comment offset bs) : l.char.toLower = l.char := by
  induction bs generalizing joined comment offset with
  | nil => cases h
  | cons b bs ih =>
    unfold listFrom at h
    dsimp only at h
    repeat' split at h
    · exact ih h
    · rename_i hline _
      rcases List.mem_cons.mp h with rfl | h
      · dsimp only
        rw [hline]
        rfl
      · exact ih h
    · exact ih h
    · exact ih h
    · exact ih h
    · exact ih h
    · rcases List.mem_cons.mp h with rfl | h
      · exact Text.toLower_toLower _
      · exact ih h

theorem listFrom_plain {k : Char} (hplain : Token.isPlain k = true) (hlower : k.toLower = k)
    (offset : Nat) (rest : List UInt8) :
    listFrom false false offset (String.utf8EncodeChar k ++ rest) =
      ⟨k, offset⟩ :: listFrom false false (offset + 1) rest := by
  have hne {c : Char} (hc : Token.isPlain c = false) : k ≠ c := by
    rintro rfl
    rw [hplain] at hc
    cases hc
  have hblank : ¬ Text.isBlank k = true := by
    simp [Text.isBlank, hne (c := ' ') rfl, hne (c := '\t') rfl, hne (c := '\r') rfl]
  rcases Text.utf8_cases k with ⟨b, hb, hlatin⟩ | ⟨hhigh, -⟩
  · rw [hb, List.singleton_append, listFrom, hlatin, if_neg (hne rfl), if_neg Bool.false_ne_true,
      if_neg hblank, if_neg (hne rfl), if_neg (hne rfl), hlower]
  · have hlow : k.toNat < 127 := by
      simp only [Token.isPlain, Bool.and_eq_true, decide_eq_true_eq] at hplain
      exact hplain.1.1.2
    exact absurd hhigh (Nat.not_lt_of_lt hlow)

/-- Plain letters in lower case are read as they are. -/
theorem chars_listFrom {ks : List Char} (rest : List UInt8) : ∀ offset : Nat,
    (∀ k ∈ ks, Token.isPlain k = true ∧ k.toLower = k) →
      ∃ n, (listFrom false false offset (ks.flatMap String.utf8EncodeChar ++ rest)).map char =
        ks ++ (listFrom false false n rest).map char := by
  induction ks with
  | nil => exact fun offset _ => ⟨offset, rfl⟩
  | cons k ks ih =>
    intro offset h
    obtain ⟨hk, hks⟩ := List.forall_mem_cons.mp h
    obtain ⟨n, hn⟩ := ih (offset + 1) hks
    refine ⟨n, ?_⟩
    rw [List.flatMap_cons, List.append_assoc, listFrom_plain hk.1 hk.2, List.map_cons, hn]
    rfl

end Letter

theorem Token.chars_seek_canonical {ts : List Token}
    (h : ∀ k ∈ ts.flatMap (·.text.toList), isPlain k = true ∧ k.toLower = k) :
    (Cursor.seek (String.join (ts.map Token.text) ++ "\n\x7d") 0).chars = canonical ts := by
  have htext : (String.join (ts.map Token.text) ++ "\n\x7d").toList =
      ts.flatMap (·.text.toList) ++ ['\n', '}'] := by
    rw [String.toList_append, String.toList_join, List.flatMap_map]
    rfl
  rw [Cursor.seek_of_le (Nat.zero_le _), Cursor.chars, Text.bytes, htext, List.flatMap_append]
  obtain ⟨n, hn⟩ := Letter.chars_listFrom (['\n', '}'].flatMap String.utf8EncodeChar) 0 h
  exact hn

/-! ## Accepted bodies -/

theorem Compile.significant_append {pre : List Token} {t : Token} (ht : t.kind = .close)
    (hpre : ∀ u ∈ pre, (u.kind == .close || u.isFault) = false)
    (hhead : ∀ u ∈ pre.head?, u.kind ≠ .operator .comma) : significant (pre ++ [t]) = pre := by
  have hdrop : (pre ++ [t]).dropWhile (·.kind == .operator .comma) = pre ++ [t] := by
    cases pre with
    | nil =>
      rw [List.nil_append, List.dropWhile_cons, ht]
      rfl
    | cons u pre =>
      rw [List.cons_append, List.dropWhile_cons, beq_eq_false_iff_ne.mpr (hhead u rfl)]
      rfl
  have hgo : ∀ u ∈ pre, (!(u.kind == .close || u.isFault)) = true := fun u hu => by
    rw [hpre u hu]
    rfl
  rw [significant, hdrop, List.takeWhile_append_of_pos hgo, List.takeWhile_cons, ht]
  exact List.append_nil pre

/-- Behind a comma comes no comma. -/
theorem Token.head_of_comma {c c' : Cursor} {ts : List Token}
    (h : (read c).1.kind = .operator .comma) (hreads : Reads (read c).2 ts c') :
    ∀ u ∈ ts.head?, u.kind ≠ .operator .comma := by
  obtain ⟨-, hbehind⟩ := spelling_of_endsStatement h rfl
  cases hreads with
  | nil => exact nofun
  | cons hlast hreads =>
    intro u hu hkind
    obtain rfl := Option.some.inj hu
    obtain ⟨k, rest, hk, hbreak⟩ :=
      exists_break_of_separates (c := (read c).2) (by rw [lexeme, hkind]; rfl)
    rw [hbehind k rest hk] at hbreak
    cases hbreak

theorem Cursor.toLower_seek (text : String) (offset : Nat) :
    ∀ k ∈ (seek text offset).chars, k.toLower = k := by
  intro k hk
  obtain ⟨l, hl, rfl⟩ := List.mem_map.mp hk
  exact Letter.toLower_of_mem_listFrom hl

namespace Check

/-- After a comma that begins a body the check stands as at first, but for what it has counted. -/
theorem parallel_comma (offset : Nat) {t : Token} (ht : t.kind = .operator .comma) :
    Parallel ⟨2, 0 + t.size, 1, t.span.stop + 1⟩ (.start 0) ((State.start offset).read t) := by
  obtain ⟨text, kind, span⟩ := t
  obtain rfl : kind = .operator .comma := ht
  have not_noted {s : State} (h : s.findings = []) : ¬s.Noted :=
    State.not_noted_of_lt fun f hf => absurd (h ▸ hf) List.not_mem_nil
  exact ⟨⟨[], span.stop, rfl⟩, rfl, iff_of_false (not_noted rfl) (not_noted rfl),
    ⟨Nat.zero_lt_one, nofun⟩, ⟨Nat.lt_succ_self _, nofun⟩⟩

/-- From the place `c` the tokens `ts` and then a brace are read, and from `s` they are checked, as if
a body began with them.  The check is ahead of such a beginning by `ops` and `chars`. -/
structure Restart (ts : List Token) (tally : Tally) (c c' : Cursor) (s : State)
    (ops chars n : Nat) : Prop where
  reads : Token.Reads c ts c'
  close : (Token.read c').1.kind = .close
  inner : ∀ u ∈ ts, (u.kind == .close || u.isFault) = false
  lower : ∀ k ∈ c.chars, k.toLower = k
  significant : Compile.significant (ts ++ [(Token.read c').1]) = ts
  run : Check.run s (ts ++ [(Token.read c').1]) = .ok tally
  stance : s.stance = {}
  parallel : Parallel ⟨ops, chars, 1, n + 1⟩ (.start 0) s
  rising : Token.Rising n (ts ++ [(Token.read c').1])

end Check

open Check Compile in
/-- A comma in front of an accepted body may as well not be there. -/
theorem exists_restart {text : String} {offset : Nat} {tally : Tally}
    (h : check text offset = .ok tally) : ∃ c c' s ops chars n,
      Restart (significant (Token.body text offset)) tally c c' s ops chars n := by
  obtain ⟨pre, c', hreads, hclose, hpre, hstream, hbody⟩ := reads_of_check h
  have hrising := Token.rising_body text offset
  have hlower := Cursor.toLower_seek text offset
  have hrun := h
  rw [check, hstream] at hrun
  rw [hstream] at hrising
  rw [hbody]
  by_cases hhead : ∀ u ∈ pre.head?, u.kind ≠ .operator .comma
  · have hsignificant := significant_append hclose hpre hhead
    rw [hsignificant]
    exact ⟨_, c', .start offset, 0, 0, offset, hreads, hclose, hpre, hlower, hsignificant, hrun,
      rfl, parallel_start 0 offset, hrising⟩
  · cases hreads with
    | nil => exact absurd (fun u hu => by cases hu) hhead
    | cons hlast hreads =>
      rename_i pre
      have hcomma : (Token.read (Cursor.seek text offset)).1.kind = .operator .comma := by
        by_contra hne
        exact hhead fun u hu => Option.some.inj hu ▸ hne
      obtain ⟨-, hpre⟩ := List.forall_mem_cons.mp hpre
      have hsignificant := significant_append hclose hpre (Token.head_of_comma hcomma hreads)
      have hdropped : significant ((Token.read (Cursor.seek text offset)).1 :: pre ++
          [(Token.read c').1]) = pre := by
        rw [significant, List.cons_append, List.dropWhile_cons, hcomma]
        exact hsignificant
      rw [hdropped]
      -- The check steps over the comma, and what comes behind it is checked from there.
      rcases run_cons_ok hrun with ⟨hkind, -⟩ | ⟨-, -, hrun⟩
      · rw [hcomma] at hkind
        cases hkind
      rcases hrising with hkind | ⟨-, hrising⟩
      · rw [hcomma] at hkind
        cases hkind
      have hstep := step_take (findings_of_run hrun)
      rw [← State.read_eq_take] at hrun hstep
      rw [Token.lexeme, hcomma] at hstep
      exact ⟨_, c', _, 2, _, _, hreads, hclose, hpre,
        fun k hk => hlower k (((Token.suffix_read _).map Letter.char).subset hk),
        hsignificant, hrun, hstep.2, parallel_comma offset hcomma, hrising⟩

open Compile in
/-- The text of an accepted body's program, with a brace behind it, is an accepted body.  Its tokens
are spelled like those that the program was made of, and its program is the same. -/
theorem recompiles_of_check {text : String} {offset : Nat} {tally : Tally}
    (h : check text offset = .ok tally) (env : Environment) :
    let p := compile (Token.body text offset) env
    let again := p.text ++ "\n\x7d"
    (∃ tally', check again 0 = .ok tally') ∧
      (Token.body again 0).map Token.spelling =
        (significant (Token.body text offset)).map Token.spelling ++ [("\x7d", .close)] ∧
      compile (Token.body again 0) env = p := by
  obtain ⟨c, c', s, ops, chars, n, hrestart⟩ := exists_restart h
  have htext : (compile (Token.body text offset) env).text =
      String.join ((significant (Token.body text offset)).map Token.text) := rfl
  generalize hts : significant (Token.body text offset) = ts at hrestart htext
  have hfault : ∀ u ∈ ts, u.isFault = false := fun u hu =>
    (Bool.or_eq_false_iff.mp (hrestart.inner u hu)).2
  have hinner : ∀ u ∈ ts, u.kind ≠ .close := fun u hu =>
    ne_of_beq_false (Bool.or_eq_false_iff.mp (hrestart.inner u hu)).1
  obtain ⟨u, hsteps, hends⟩ := Check.steps_of_run hrestart.close hinner hrestart.run
  intro p again
  have hchars : (Cursor.seek again 0).chars = Token.canonical ts := by
    have hplain := Token.plain_of_reads hrestart.reads hfault hrestart.lower
    rw [← Token.chars_seek_canonical hplain, ← htext]
  have hstream := Token.spellings_canonical hrestart.reads hrestart.close hfault hsteps hends hchars
  have hend : (ts ++ [(Token.read c').1]).map Token.spelling =
      ts.map Token.spelling ++ [("\x7d", .close)] := by
    rw [List.map_append, List.map_singleton, Token.spelling_of_close hrestart.close]
  have hbody : (Token.body again 0).map Token.spelling =
      (ts ++ [(Token.read c').1]).map Token.spelling := by
    rw [Token.body, Token.spellings_untilFault (hstream.trans hend.symm), untilFault_append hfault,
      Token.untilFault, Token.isFault, hrestart.close]
    rfl
  refine ⟨?_, ?_, ?_⟩
  · have hrun := Check.complaints_run (hstream.trans hend.symm) (Token.rising_body again 0)
      hrestart.rising hrestart.parallel
    rw [hrestart.run] at hrun
    cases hagain : check again 0 with
    | ok tally' => exact ⟨tally', rfl⟩
    | error findings =>
      rw [check] at hagain
      rw [hagain] at hrun
      cases hrun
  · rw [hbody, hend]
  · rw [compile_of_spelling hbody env]
    show _ = compile _ env
    rw [compile, compile, hrestart.significant, hts]

open Compile in
/-- Commas in front, a pair, a group, an exponent, branches that end lines, and comments. -/
theorem recompiles_branches : ∃ text tally, check text 0 = .ok tally ∧
    ∀ env,
      let p := compile (Token.body text 0) env
      let again := p.text ++ "\n\x7d"
      (∃ tally', check again 0 = .ok tally') ∧
        (Token.body again 0).map Token.spelling =
          (significant (Token.body text 0)).map Token.spelling ++ [("\x7d", .close)] ∧
        compile (Token.body again 0) env = p := by
  let text := ",\n Z=(1 , -2.5E-3), c=(1-pixel) :,; c \x7d\n" ++
    "if(|z|<=4)\n z=z^2+c, \n else\n z=Sin(z)\n endif\n |z|<4 ,\x7d"
  have hstream : Token.stream (Cursor.seek text 0) = Token.firstTokens 90 (Cursor.seek text 0) :=
    Token.stream_eq_firstTokens (by decide +kernel)
  have h : ∃ tally, check text 0 = .ok tally := by
    refine exists_check ?_
    rw [check, hstream]
    decide +kernel
  obtain ⟨tally, h⟩ := h
  exact ⟨text, tally, h, recompiles_of_check h⟩

end FractalFormula
