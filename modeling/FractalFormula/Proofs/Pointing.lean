/-
Where a report points.

Under each message a report quotes the statement, with carets below (`Report.Quote`).  The statement is
read again for that, and the first caret stands under the text of the token at fault, or behind what is
quoted if that token has ended the statement (`Report.Quote.Points`).  There is no such caret where the
statement has no more to it than the end of the text or begins behind the closing brace
(`Finding.Astray`), and it is not on the line of what is quoted where the text has ended and a number
before has taken in the end of a line.  All other findings are pointed at (`report_points`).
-/
import FractalFormula.Proofs.Ascii
import FractalFormula.Proofs.Canonical
import FractalFormula.Proofs.Cited
import FractalFormula.Report.Excerpt

namespace FractalFormula

open Text

namespace Report

/-! ## What is printed -/

/-- An excerpt and what stands below it: carets that begin in a column of the excerpt. -/
structure Quote where
  excerpt : List Char
  column : Nat
  carets : Nat

/-- The two lines that are printed of it. -/
def Quote.print (q : Quote) : String :=
  "  " ++ String.ofList q.excerpt ++ "\n" ++ String.ofList
    (List.replicate (q.column + 2) ' ' ++ List.replicate q.carets '^') ++ "\n"

/-- The line above the excerpt. -/
def heading (text : String) (start : Nat) (f : Finding) : String :=
  "Error(" ++ toString f.complaint.number ++ ") at line "
    ++ toString ((Lines.ofText text).between start f.span.start) ++ ":  " ++ f.complaint.message
    ++ "\n"

namespace Excerpt

/-- The texts of tokens, one after the other. -/
def letters (tokens : List Token) : List Char :=
  tokens.flatMap (·.text.toList)

/-- How many carets a finding asks for. -/
def wanted (f : Finding) (e : Excerpt) : Nat :=
  if f.complaint = .tokenTooLong then longTokenCarets else e.size

/-- What is printed of an excerpt if so many carets are asked for. -/
def shown (e : Excerpt) (carets : Nat) : Quote :=
  ⟨cut excerptWidth (letters e.tokens), e.before, min carets (excerptWidth + 1 - (e.before + 2))⟩

/-- What is quoted for a finding. -/
def quote (text : String) (f : Finding) : Quote :=
  (ofFinding text f).window.shown (wanted f (ofFinding text f))

end Excerpt

open Excerpt in
theorem classic_eq (text : String) (start : Nat) (findings : List Finding) :
    classic text start findings =
      "\n" ++ String.join (findings.map fun f => heading text start f ++ (quote text f).print) :=
  rfl

end Report

open Report Report.Excerpt

/-- The excerpt begins with tokens that stand right before the token at fault in its statement, and the
first caret comes behind these, on their line.  Either the token has ended the statement and the excerpt
ends there too, or the excerpt goes on with its text. -/
structure Report.Quote.Points (q : Quote) (text : String) (f : Finding) : Prop where
  carets : 0 < q.carets
  line : '\n' ∉ q.excerpt.take q.column
  place : ∃ pre t more kept rest,
    Token.stream (Cursor.seek text f.statement) = pre ++ t :: more ∧ t.span = f.span ∧
      kept <:+ pre ∧ q.column = (letters kept).length ∧ q.excerpt = letters kept ++ rest ∧
        ((t.endsStatement || t.isLast) = true ∧ rest = [] ∨
          t.text ≠ "" ∧ rest ≠ [] ∧ rest <+: letters (upToEnd (t :: more)))

/-- The statement begins behind its token, or it has no more to it than the end of the text. -/
def Finding.Astray (text : String) (f : Finding) : Prop :=
  f.span.start < f.statement ∨
    ∃ t, Token.stream (Cursor.seek text f.statement) = [t] ∧ t.text = ""

/-! ## Sizes -/

namespace Report.Excerpt

variable {ts : List Token} {t : Token}

@[simp] theorem letters_append (ts us : List Token) : letters (ts ++ us) = letters ts ++ letters us :=
  List.flatMap_append

@[simp] theorem letters_cons (t : Token) (ts : List Token) :
    letters (t :: ts) = t.text.toList ++ letters ts :=
  List.flatMap_cons

theorem letters_mono {us : List Token} (h : ts <+: us) : letters ts <+: letters us := by
  obtain ⟨rest, rfl⟩ := h
  rw [letters_append]
  exact List.prefix_append _ _

theorem width_eq (ts : List Token) : width ts = Text.width (letters ts) := by
  induction ts with
  | nil => rfl
  | cons t ts ih =>
    rw [letters_cons, width_append, ← ih, Text.width, String.ofList_toList]
    rfl

theorem ascii_letters (h : ∀ t ∈ ts, t.Printable) : Ascii (letters ts) := by
  intro k hk
  obtain ⟨t, ht, hk⟩ := List.mem_flatMap.mp hk
  exact (h t ht).ascii k hk

theorem width_cut_le (n : Nat) (cs : List Char) : Text.width (cut n cs) ≤ n := by
  induction cs generalizing n with
  | nil => exact Nat.zero_le n
  | cons c cs ih =>
    rw [cut]
    split
    · have := ih (n - c.utf8Size)
      rw [width_cons]
      omega
    · exact Nat.zero_le n

theorem cut_of_ascii {cs : List Char} (h : Ascii cs) (n : Nat) : cut n cs = cs.take n := by
  induction cs generalizing n with
  | nil => rw [cut, List.take_nil]
  | cons c cs ih =>
    obtain ⟨hc, hcs⟩ := List.forall_mem_cons.mp h
    have hone : c.utf8Size = 1 := if_pos (Nat.le_of_lt_succ hc)
    rw [cut, hone, ih hcs]
    cases n with
    | zero => rfl
    | succ n => exact if_pos (Nat.succ_pos n)

/-! ## The window -/

/-- The size of the token at fault does not depend on the tokens before it. -/
theorem size_append (ts rest : List Token) : size ⟨ts ++ rest, ts.length⟩ = size ⟨rest, 0⟩ := by
  unfold size
  rw [List.getElem?_append_right (Nat.le_refl _), Nat.sub_self]

theorem before_append (ts rest : List Token) : before ⟨ts ++ rest, ts.length⟩ = width ts := by
  rw [before, List.take_left]

/-- Tokens are dropped from the front until there is room for the token at fault. -/
theorem exists_fit (ts rest : List Token) : ∃ kept, fit ⟨ts ++ rest, ts.length⟩ =
    ⟨kept ++ rest, kept.length⟩ ∧ kept <:+ ts ∧
      (kept = [] ∨ width kept + size ⟨rest, 0⟩ < excerptWidth) := by
  induction ts with
  | nil =>
    refine ⟨[], ?_, List.suffix_refl _, .inl rfl⟩
    rw [List.length_nil, fit]
  | cons t ts ih =>
    have hbefore := before_append (t :: ts) rest
    have hsize := size_append (t :: ts) rest
    rw [List.length_cons] at hbefore hsize ⊢
    rw [fit, hbefore, hsize]
    by_cases hroom : width (t :: ts) + size ⟨rest, 0⟩ < excerptWidth
    · rw [if_pos hroom]
      exact ⟨t :: ts, rfl, List.suffix_refl _, .inr hroom⟩
    · obtain ⟨kept, hfit, hsuffix, hkept⟩ := ih
      rw [if_neg hroom]
      exact ⟨kept, hfit, hsuffix.trans (List.suffix_cons t ts), hkept⟩

theorem exists_window (ts rest : List Token) : ∃ kept, window ⟨ts ++ rest, ts.length⟩ =
    ⟨kept ++ rest, kept.length⟩ ∧ kept <:+ ts ∧
      (kept = [] ∨ width kept + size ⟨rest, 0⟩ < excerptWidth) := by
  unfold window
  split
  · exact exists_fit ts rest
  · refine ⟨[], ?_, List.nil_suffix, .inl rfl⟩
    rw [List.drop_left]
    rfl

/-! ## The tokens of a statement -/

theorem upToEnd_append {pre : List Token} (h : ∀ u ∈ pre, u.endsStatement = false)
    (hlast : ∀ u ∈ pre, u.isLast = false) (ts : List Token) :
    upToEnd (pre ++ ts) = pre ++ upToEnd ts := by
  induction pre with
  | nil => rfl
  | cons u pre ih =>
    obtain ⟨hu, hpre⟩ := List.forall_mem_cons.mp h
    obtain ⟨hu', hpre'⟩ := List.forall_mem_cons.mp hlast
    rw [List.cons_append, upToEnd, hu, hu', if_neg (by decide), ih hpre hpre']
    rfl

theorem upToEnd_isPrefix (ts : List Token) : upToEnd ts <+: ts := by
  induction ts with
  | nil => exact List.prefix_refl _
  | cons t ts ih =>
    rw [upToEnd]
    split
    · exact (List.prefix_cons_inj t).mpr List.nil_prefix
    · exact (List.prefix_cons_inj t).mpr ih

/-- What ends the statement comes last. -/
theorem exists_upToEnd (t : Token) (more : List Token) : ∃ tail, upToEnd (t :: more) = t :: tail ∧
    ((t.endsStatement || t.isLast) = true → tail = []) ∧
    ((t.endsStatement || t.isLast) = false → more ≠ [] → tail ≠ []) := by
  rw [upToEnd]
  split
  · rename_i hends
    exact ⟨[], rfl, fun _ => rfl, fun hnot => absurd (hnot.symm.trans hends) Bool.false_ne_true⟩
  · rename_i hends
    refine ⟨upToEnd more, rfl, fun hyes => absurd hyes hends, fun _ hmore => ?_⟩
    obtain ⟨u, more, rfl⟩ := List.exists_cons_of_ne_nil hmore
    rw [upToEnd]
    split <;> exact List.cons_ne_nil _ _

end Report.Excerpt

namespace Token

theorem start_lt_of_spaced {stop : Nat} {pre more : List Token} {t : Token} : ∀ {n : Nat},
    Spaced stop n (pre ++ t :: more) → (∀ u ∈ pre, u.isLast = false) →
      n ≤ t.span.start ∧ ∀ u ∈ pre, u.span.start < t.span.start := by
  induction pre with
  | nil => exact fun h _ => ⟨h.1, nofun⟩
  | cons u pre ih =>
    rintro n ⟨hstart, -, hspaced⟩ hpre
    obtain ⟨hu, hpre⟩ := List.forall_mem_cons.mp hpre
    have hend : u.kind ≠ .fault .endOfText := fun hend =>
      absurd (isLast_iff.mpr (.inr hend)) (Bool.eq_false_iff.mp hu)
    obtain ⟨hlt, hspaced⟩ := hspaced.resolve_left hend
    obtain ⟨hle, hall⟩ := ih hspaced hpre
    exact ⟨by omega, List.forall_mem_cons.mpr ⟨by omega, hall⟩⟩

/-- The tokens of a stream begin one behind the other, and none before the place. -/
theorem start_lt_of_stream {text : String} {offset : Nat} {pre more : List Token} {t : Token}
    (h : stream (Cursor.seek text offset) = pre ++ t :: more) :
    min offset (bytes text).length ≤ t.span.start ∧ ∀ u ∈ pre, u.span.start < t.span.start := by
  have hspaced := spaced_stream (Cursor.ordered_seek text offset)
  rw [h] at hspaced
  exact start_lt_of_spaced hspaced (not_isLast_of_stream h)

end Token

/-! ## Findings that are found again -/

/-- What an excerpt holds from the token `t` at fault on.  That token is left out where it ends the
statement, but not if it is a second colon or nothing is before it. -/
def Finding.GoesOn (f : Finding) (pre : List Token) (t : Token) (more rest : List Token) : Prop :=
  (t.endsStatement || t.isLast) = true ∧ pre ≠ [] ∧ rest = [] ∨
    (∃ tail, rest = t :: tail) ∧ rest <+: upToEnd (t :: more) ∧
      (t.isLast = true → pre = [] ∨ f.complaint = .secondColon)

namespace Finding.Cited

variable {text : String} {f : Finding} {pre more : List Token} {t : Token}

/-- A statement that is read again does not begin with a separator before the token at fault. -/
theorem dropWhile_eq (h : f.Cited text pre t more) : (pre ++ t :: more).dropWhile
    (fun u => u.endsStatement && u.span.start < f.span.start) = pre ++ t :: more := by
  cases pre with
  | nil =>
    refine List.dropWhile_cons_of_neg ?_
    rw [h.span, decide_eq_false (Nat.lt_irrefl _), Bool.and_false]
    exact Bool.false_ne_true
  | cons u pre =>
    refine List.dropWhile_cons_of_neg ?_
    rw [h.inner u List.mem_cons_self, Bool.false_and]
    exact Bool.false_ne_true

/-- The token at fault is the first that begins where the finding does or later. -/
theorem findIdx?_eq (h : f.Cited text pre t more) (tail : List Token) :
    (pre ++ t :: tail).findIdx? (fun u => f.span.start ≤ u.span.start) = some pre.length := by
  obtain ⟨-, hbefore⟩ := Token.start_lt_of_stream h.stream
  rw [h.span] at hbefore
  have hnone : pre.findIdx? (fun u => f.span.start ≤ u.span.start) = none :=
    List.findIdx?_eq_none_iff.mpr fun u hu => decide_eq_false (Nat.not_le_of_lt (hbefore u hu))
  have hhere : (t :: tail).findIdx? (fun u => f.span.start ≤ u.span.start) = some 0 := by
    rw [List.findIdx?_cons, h.span, if_pos (decide_eq_true (Nat.le_refl _))]
  rw [List.findIdx?_append, hnone, hhere, Option.none_or, Option.map_some, Nat.zero_add]

/-- The excerpt holds the tokens before the one at fault. -/
theorem exists_rest (h : f.Cited text pre t more) : ∃ rest,
    ofFinding text f = ⟨pre ++ rest, pre.length⟩ ∧ f.GoesOn pre t more rest := by
  obtain ⟨tail, htail, hended, hgoes⟩ := exists_upToEnd t more
  have htokens : upToEnd (pre ++ t :: more) = pre ++ t :: tail := by
    rw [upToEnd_append h.inner (Token.not_isLast_of_stream h.stream), htail]
  rw [ofFinding, h.stream, h.dropWhile_eq, htokens, h.findIdx?_eq, Option.getD_some]
  by_cases hshort : 1 < (pre ++ t :: tail).length ∧ f.complaint ≠ .secondColon
  · rw [if_pos hshort, List.dropLast_append_of_ne_nil (List.cons_ne_nil _ _)]
    refine ⟨(t :: tail).dropLast, rfl, ?_⟩
    cases hends : t.endsStatement || t.isLast with
    | true =>
      rw [hended hends] at hshort ⊢
      refine .inl ⟨hends, ?_, rfl⟩
      rintro rfl
      exact absurd hshort.1 (Nat.lt_irrefl 1)
    | false =>
      have hlast : t.isLast = false := (Bool.or_eq_false_iff.mp hends).2
      have hmore : more ≠ [] := fun hmore =>
        Bool.false_ne_true (hlast.symm.trans ((Token.isLast_iff_of_stream h.stream).mpr hmore))
      rw [List.dropLast_cons_of_ne_nil (hgoes hends hmore)]
      refine .inr ⟨⟨_, rfl⟩, ?_, fun hyes => absurd hyes (Bool.eq_false_iff.mp hlast)⟩
      rw [htail]
      exact (List.prefix_cons_inj t).mpr (List.dropLast_prefix tail)
  · rw [if_neg hshort]
    refine ⟨t :: tail, rfl, .inr ⟨⟨tail, rfl⟩, htail ▸ List.prefix_refl _, fun hlast => ?_⟩⟩
    rw [hended (by rw [hlast, Bool.or_true])] at hshort
    by_contra hneither
    obtain ⟨hpre, hcolon⟩ := not_or.mp hneither
    refine hshort ⟨?_, hcolon⟩
    rw [List.length_append, List.length_singleton]
    exact Nat.succ_lt_succ (List.length_pos_iff.mpr hpre)

/-- The tokens of the excerpt, from which some may have been dropped in front, and the carets. -/
theorem exists_quote (h : f.Cited text pre t more) (hascii : Ascii text.toList) : ∃ kept rest,
    f.GoesOn pre t more rest ∧ kept <:+ pre ∧
      (kept = [] ∨ (letters kept).length + size ⟨rest, 0⟩ < excerptWidth) ∧
      quote text f = ⟨(letters kept ++ letters rest).take excerptWidth, (letters kept).length,
        min (if f.complaint = .tokenTooLong then longTokenCarets else size ⟨rest, 0⟩)
          (excerptWidth + 1 - ((letters kept).length + 2))⟩ := by
  obtain ⟨rest, hof, hgoes⟩ := h.exists_rest
  obtain ⟨kept, hwindow, hkept, hroom⟩ := exists_window pre rest
  have hstream := Token.printable_stream (Cursor.ascii_seek hascii f.statement)
  rw [h.stream] at hstream
  obtain ⟨hpre, hmore⟩ := List.forall_mem_append.mp hstream
  have hletters : Ascii (letters kept) := ascii_letters fun u hu => hpre u (hkept.subset hu)
  have hrest : Ascii (letters rest) := by
    rcases hgoes with ⟨-, -, rfl⟩ | ⟨-, hbegins, -⟩
    · exact nofun
    · refine ascii_letters fun u hu => hmore u ?_
      exact (hbegins.trans (upToEnd_isPrefix _)).subset hu
  have hwidth : width kept = (letters kept).length := (width_eq kept).trans hletters.width_eq
  rw [hwidth] at hroom
  refine ⟨kept, rest, hgoes, hkept, hroom, ?_⟩
  rw [quote, hof, hwindow, shown, wanted, size_append, before_append, hwidth, letters_append,
    cut_of_ascii (List.forall_mem_append.mpr ⟨hletters, hrest⟩)]

/-- A token without a text is the end of the text. -/
theorem end_of_empty (h : f.Cited text pre t more) (hascii : Ascii text.toList)
    (hempty : t.text = "") : t.isLast = true ∧ more = [] ∧ f.complaint = .unexpectedEnd := by
  have hstream := Token.printable_stream (Cursor.ascii_seek hascii f.statement)
  rw [h.stream] at hstream
  have hkind : t.kind = .fault .endOfText := by
    refine (hstream t (by simp)).visible.resolve_right fun hvisible => hvisible ?_
    rw [hempty]
    rfl
  have hlast : t.isLast = true := Token.isLast_iff.mpr (.inr hkind)
  refine ⟨hlast, (Token.isLast_iff_of_stream h.stream).mp hlast, ?_⟩
  by_contra hcomplaint
  exact (h.sound hcomplaint).1 hkind

theorem astray_iff (h : f.Cited text pre t more) (hascii : Ascii text.toList) :
    f.Astray text ↔ pre = [] ∧ t.text = "" := by
  have hsingle {u : Token} (hu : Token.stream (Cursor.seek text f.statement) = [u])
      (hempty : u.text = "") : pre = [] ∧ t.text = "" := by
    rw [h.stream] at hu
    obtain ⟨rfl, hrest⟩ := List.append_eq_singleton_iff.mp hu |>.resolve_right (by simp)
    exact ⟨rfl, (List.cons.inj hrest).1 ▸ hempty⟩
  constructor
  · rintro (hbehind | ⟨u, hu, hempty⟩)
    · -- The statement begins behind the text.
      obtain ⟨hle, -⟩ := Token.start_lt_of_stream h.stream
      rw [h.span] at hle
      have hahead : (Cursor.seek text f.statement).ahead = [] :=
        Cursor.ahead_seek_of_le (by omega)
      have hlast : (Token.read (Cursor.seek text f.statement)).1.isLast = true :=
        Token.isLast_iff.mpr (.inr (Token.read_of_ahead_eq_nil hahead))
      refine hsingle (Token.stream_of_isLast hlast) ?_
      rw [Token.read, hahead]
      rfl
    · exact hsingle hu hempty
  · rintro ⟨rfl, hempty⟩
    obtain ⟨-, rfl, -⟩ := h.end_of_empty hascii hempty
    exact .inr ⟨t, h.stream, hempty⟩

/-- There is something of the token to point at, or something before it. -/
theorem size_pos (h : f.Cited text pre t more) (hascii : Ascii text.toList)
    (hsomething : ¬(pre = [] ∧ t.text = "")) {rest : List Token}
    (hgoes : f.GoesOn pre t more rest) : 0 < size ⟨rest, 0⟩ ∧ (rest ≠ [] → t.text ≠ "") := by
  rcases hgoes with ⟨-, -, rfl⟩ | ⟨⟨tail, rfl⟩, -, halone⟩
  · exact ⟨Nat.one_pos, fun hne => absurd rfl hne⟩
  · have hvisible : t.text ≠ "" := by
      intro hempty
      obtain ⟨hlast, -, hcomplaint⟩ := h.end_of_empty hascii hempty
      refine hsomething ⟨(halone hlast).resolve_right fun hcolon => ?_, hempty⟩
      rw [hcomplaint] at hcolon
      cases hcolon
    refine ⟨Nat.pos_of_ne_zero fun hzero => hvisible ?_, fun _ => hvisible⟩
    exact String.utf8ByteSize_eq_zero_iff.mp hzero

/-- No carets are drawn under nothing. -/
theorem carets_eq_zero (h : f.Cited text [] t more) (hascii : Ascii text.toList)
    (hempty : t.text = "") : (quote text f).carets = 0 := by
  obtain ⟨kept, rest, hgoes, -, -, hquote⟩ := h.exists_quote hascii
  obtain ⟨-, -, hcomplaint⟩ := h.end_of_empty hascii hempty
  obtain ⟨tail, rfl⟩ : ∃ tail, rest = t :: tail := by
    rcases hgoes with ⟨-, hne, -⟩ | ⟨htail, -⟩
    · exact absurd rfl hne
    · exact htail
  have hsize : size ⟨t :: tail, 0⟩ = 0 := by
    show Text.size t.text = 0
    rw [hempty]
    rfl
  have hshort : f.complaint ≠ .tokenTooLong := by
    rw [hcomplaint]
    decide
  rw [hquote, if_neg hshort, hsize]
  exact Nat.zero_min _

theorem points (h : f.Cited text pre t more) (hascii : Ascii text.toList)
    (hsomething : ¬(pre = [] ∧ t.text = ""))
    (hline : '\n' ∉ (quote text f).excerpt.take (quote text f).column) :
    (quote text f).Points text f := by
  obtain ⟨kept, rest, hgoes, hkept, hroom, hquote⟩ := h.exists_quote hascii
  obtain ⟨hsize, hvisible⟩ := h.size_pos hascii hsomething hgoes
  have hwidth : excerptWidth = 74 := rfl
  have hcolumn : (letters kept).length + 2 ≤ excerptWidth := by
    rcases hroom with rfl | hroom
    · decide
    · omega
  constructor
  case line => exact hline
  case carets =>
    rw [hquote]
    refine Nat.lt_min.mpr ⟨?_, by omega⟩
    split
    · decide
    · exact hsize
  case place =>
    rw [hquote]
    refine ⟨pre, t, more, kept, (letters rest).take (excerptWidth - (letters kept).length),
      h.stream, h.span, hkept, rfl, ?_, ?_⟩
    · rw [List.take_append, List.take_of_length_le (by omega)]
    · rcases hgoes with ⟨hends, -, rfl⟩ | ⟨⟨tail, rfl⟩, hbegins, -⟩
      · exact .inl ⟨hends, List.take_nil⟩
      · have htext : t.text ≠ "" := hvisible (List.cons_ne_nil _ _)
        refine .inr ⟨htext, fun hnil => ?_, (List.take_prefix _ _).trans (letters_mono hbegins)⟩
        rcases List.take_eq_nil_iff.mp hnil with hzero | hnil
        · omega
        · exact htext (String.toList_eq_nil_iff.mp (List.append_eq_nil_iff.mp hnil).1)

theorem points_iff (h : f.Cited text pre t more) (hascii : Ascii text.toList) :
    (quote text f).Points text f ↔ ¬f.Astray text ∧
      '\n' ∉ (quote text f).excerpt.take (quote text f).column := by
  rw [h.astray_iff hascii]
  refine ⟨fun hpoints => ⟨?_, hpoints.line⟩, fun ⟨hsomething, hline⟩ =>
    h.points hascii hsomething hline⟩
  rintro ⟨rfl, hempty⟩
  exact Nat.ne_of_gt hpoints.carets (h.carets_eq_zero hascii hempty)

/-- Only a number can hold the end of a line, and it is complained about unless the text ends. -/
theorem newline_not_mem (h : f.Cited text pre t more) (hascii : Ascii text.toList)
    (hcomplaint : f.complaint ≠ .unexpectedEnd) :
    '\n' ∉ (quote text f).excerpt.take (quote text f).column := by
  obtain ⟨kept, rest, -, hkept, -, hquote⟩ := h.exists_quote hascii
  obtain ⟨-, hfault⟩ := h.sound hcomplaint
  obtain ⟨c', hreads⟩ := Token.exists_reads h.stream
  rw [hquote]
  intro hmem
  have hletters : '\n' ∈ letters kept := by
    dsimp only at hmem
    rw [List.take_take] at hmem
    have hmem := List.take_subset_take_left _ (Nat.min_le_left _ _) hmem
    rwa [List.take_left] at hmem
  have hletters : '\n' ∈ letters pre := by
    obtain ⟨front, rfl⟩ := hkept
    rw [letters_append]
    exact List.mem_append_right _ hletters
  have hlower := Cursor.toLower_seek text f.statement
  obtain ⟨hplain, -⟩ := Token.plain_of_reads hreads hfault hlower _ hletters
  cases hplain

end Finding.Cited

/-- What is noted behind the closing brace is not pointed at. -/
theorem Finding.not_points {text : String} {f : Finding} {q : Quote}
    (hbehind : f.span.start < f.statement) (hinside : f.statement ≤ (bytes text).length) :
    ¬q.Points text f := by
  intro hpoints
  obtain ⟨pre, t, more, -, -, hstream, hspan, -⟩ := hpoints.place
  obtain ⟨hle, -⟩ := Token.start_lt_of_stream hstream
  rw [hspan, Nat.min_eq_left hinside] at hle
  exact Nat.not_lt_of_le hle hbehind

/-! ## Reports -/

/-- In a text of ASCII characters every finding is quoted within the width.  It is pointed at exactly
if it has not gone astray and, where the text has ended, the end of a line is not quoted. -/
theorem report_points {text : String} {offset : Nat} {findings : List Finding}
    (hascii : Ascii text.toList) (h : check text offset = .error findings) (start : Nat) :
    classic text start findings =
      "\n" ++ String.join (findings.map fun f => heading text start f ++ (quote text f).print) ∧
    ∀ f ∈ findings, Text.width (quote text f).excerpt ≤ excerptWidth ∧
      ((quote text f).Points text f ↔ ¬f.Astray text ∧ ¬(f.complaint = .unexpectedEnd ∧
        '\n' ∈ (quote text f).excerpt.take (quote text f).column)) := by
  refine ⟨classic_eq text start findings, fun f hf => ⟨width_cut_le _ _, ?_⟩⟩
  rcases Check.placed_of_check h f hf with ⟨pre, t, more, hcited⟩ | ⟨hbehind, hinside⟩
  · rw [hcited.points_iff hascii, not_and]
    refine and_congr_right fun _ => ⟨fun hline _ => hline, fun hline => ?_⟩
    by_cases hcomplaint : f.complaint = .unexpectedEnd
    · exact hline hcomplaint
    · exact hcited.newline_not_mem hascii hcomplaint
  · refine iff_of_false (Finding.not_points hbehind hinside) fun hnot => hnot.1 (.inl hbehind)

/-- The carets under a character that does not belong there. -/
theorem report_points_one : ∃ text findings, Ascii text.toList ∧
    check text 0 = .error findings ∧ findings ≠ [] ∧ ∀ f ∈ findings,
      Text.width (quote text f).excerpt ≤ excerptWidth ∧ (quote text f).Points text f := by
  let text := "z=$\n\x7d"
  let findings : List Finding := [⟨.illegalCharacter, 0, ⟨2, 3⟩⟩]
  have hstream : Token.stream (Cursor.seek text 0) = Token.firstTokens 9 (Cursor.seek text 0) :=
    Token.stream_eq_firstTokens (by decide +kernel)
  have h : check text 0 = .error findings := by
    rw [check, hstream]
    decide +kernel
  have hascii : Ascii text.toList := by decide +kernel
  refine ⟨text, findings, hascii, h, List.cons_ne_nil _ _, fun f hf => ?_⟩
  obtain ⟨hwidth, hpoints⟩ := (report_points hascii h 0).2 f hf
  obtain rfl := List.mem_singleton.mp hf
  refine ⟨hwidth, hpoints.mpr ⟨?_, fun hend => absurd hend.1 (by decide)⟩⟩
  rintro (hbehind | ⟨t, ht, -⟩)
  · exact absurd hbehind (by decide)
  · have hlength : (Token.firstTokens 9 (Cursor.seek text 0)).length = 1 :=
      congrArg List.length (hstream.symm.trans ht)
    exact absurd hlength (by decide +kernel)

/-- A body that is not there has nothing to be quoted, and no caret. -/
theorem exists_caretless : ∃ text offset f, Ascii text.toList ∧ check text offset = .error [f] ∧
    (quote text f).carets = 0 ∧ ¬(quote text f).Points text f := by
  let text := "a \x7b"
  let f : Finding := ⟨.unexpectedEnd, 3, ⟨3, 3⟩⟩
  have hstream : Token.stream (Cursor.seek text 3) = Token.firstTokens 1 (Cursor.seek text 3) :=
    Token.stream_eq_firstTokens (by decide +kernel)
  have h : check text 3 = .error [f] := by
    rw [check, hstream]
    decide +kernel
  have hcarets : (quote text f).carets = 0 := by
    rw [quote, ofFinding, hstream]
    decide +kernel
  refine ⟨text, 3, f, by decide +kernel, h, hcarets, fun hpoints => ?_⟩
  exact absurd hpoints.carets (hcarets ▸ Nat.lt_irrefl 0)

end FractalFormula
