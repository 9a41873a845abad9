import FractalFormula.Token.Cases

/-!
All tokens of a formula body.  Every token but the end of the text uses up at least one letter
(`Token.read_ahead_lt`), so a stream is finite.
-/

namespace FractalFormula
namespace Token

/-! ## Reading uses up letters -/

theorem upTo_snd (start : Nat) (text : String) (kind : Kind) (c : Cursor) :
    (upTo start text kind c).2 = c := rfl

theorem Numeral.readFrom_ahead_le (d : Draft) (place : Cursor) (ahead : List Letter) :
    (readFrom d place ahead).cursor.ahead.length ≤ ahead.length := by
  induction ahead generalizing d place with
  | nil => simp [readFrom, Draft.fail, Cursor.finished]
  | cons l rest ih =>
    rw [readFrom]
    split
    · split
      · simp [Draft.fail, Cursor.past]
      · exact Nat.le_succ_of_le (ih _ _)
    · simp [Draft.fail, Cursor.past]
    · simp [Draft.complete]

theorem Numeral.read_ahead_le (first : Char) (c : Cursor) :
    (Numeral.read first c).cursor.ahead.length ≤ c.ahead.length :=
  Numeral.readFrom_ahead_le _ _ _

theorem pastAll_ahead (c : Cursor) (letters rest : List Letter) :
    (pastAll c letters rest).ahead = rest := by
  unfold pastAll
  split <;> rfl

theorem length_dropWhile_le {α : Type} (p : α → Bool) (l : List α) :
    (l.dropWhile p).length ≤ l.length :=
  (List.dropWhile_suffix p).length_le

theorem readName_ahead_le (start : Nat) (first : Char) (c : Cursor) :
    (readName start first c).2.ahead.length ≤ c.ahead.length := by
  have h := length_dropWhile_le (isNameChar ·.char) c.ahead
  match readName start first c, nameRead start first c with
  | _, .ended _ => exact Nat.zero_le _
  | _, .dotted hend _ =>
    rw [hend] at h
    exact Nat.le_of_succ_le h
  | _, .tooLong hend | _, .name hend _ _ =>
    rw [upTo_snd, pastAll_ahead]
    rwa [hend] at h

theorem readNumber_ahead_le (start : Nat) (first : Char) (c : Cursor) :
    (readNumber start first c).2.ahead.length ≤ c.ahead.length := by
  have h := Numeral.read_ahead_le first c
  match readNumber start first c, numberRead start first c with
  | _, .number _ | _, .fault _ => exact h

theorem part?_ahead_le {c c' : Cursor} {text : List Char} {x : Float}
    (h : part? c = some (text, x, c')) : c'.ahead.length ≤ c.ahead.length := by
  unfold part? at h
  split at h
  · simp at h
  · rename_i l rest hc
    split at h
    · split at h
      · simp at h
      · rename_i d rest'
        split at h
        · dsimp only at h
          split at h
          · simp only [Option.some.injEq, Prod.mk.injEq] at h
            have := Numeral.read_ahead_le d.char (c.past d rest')
            rw [← h.2.2, hc]
            simp only [Cursor.past, List.length_cons] at this ⊢
            omega
          · simp at h
        · simp at h
    · split at h
      · dsimp only at h
        split at h
        · simp only [Option.some.injEq, Prod.mk.injEq] at h
          have := Numeral.read_ahead_le l.char (c.past l rest)
          rw [← h.2.2, hc]
          simp only [Cursor.past, List.length_cons] at this ⊢
          omega
        · simp at h
      · simp at h

theorem after?_ahead_lt {want : Char} {c c' : Cursor} (h : after? want c = some c') :
    c'.ahead.length < c.ahead.length := by
  unfold after? at h
  split at h
  · simp at h
  · rename_i l rest hc
    split at h
    · simp only [Option.some.injEq] at h
      rw [← h, hc]
      simp [Cursor.past]
    · simp at h

theorem pair?_ahead_le {c c' : Cursor} {text : String} {x y : Float}
    (h : pair? c = some (text, x, y, c')) : c'.ahead.length ≤ c.ahead.length := by
  simp only [pair?, Option.bind_eq_bind, Option.bind_eq_some_iff, Prod.exists, Option.pure_def,
    Option.some.injEq, Prod.mk.injEq] at h
  obtain ⟨_, _, c₁, h₁, c₂, h₂, _, _, c₃, h₃, c₄, h₄, _, _, _, rfl⟩ := h
  have := part?_ahead_le h₁
  have := after?_ahead_lt h₂
  have := part?_ahead_le h₃
  have := after?_ahead_lt h₄
  omega

theorem readParen_ahead_le (start : Nat) (c : Cursor) :
    (readParen start c).2.ahead.length ≤ c.ahead.length := by
  match readParen start c, parenRead start c with
  | _, .pair hpair => exact pair?_ahead_le hpair
  | _, .single _ => exact Nat.le_refl _

theorem readSeparators_ahead_le (start : Nat) (first : Char) (c : Cursor) :
    (readSeparators start first c).2.ahead.length ≤ c.ahead.length := by
  have h := length_dropWhile_le (isSeparator ·.char) c.ahead
  match readSeparators start first c, separatorsRead start first c with
  | _, .brace hend _ =>
    rw [hend] at h
    exact Nat.le_of_succ_le h
  | _, .run _ => rwa [upTo_snd, pastAll_ahead]

theorem readMark_ahead_le (start : Nat) (mark : Char) (c : Cursor) :
    (readMark start mark c).2.ahead.length ≤ c.ahead.length := by
  match readMark start mark c, markRead start mark c with
  | _, .two _ hafter => exact Nat.le_of_lt (after?_ahead_lt hafter)
  | _, .leftParen _ => exact readParen_ahead_le _ _
  | _, .separator _ => exact readSeparators_ahead_le _ _ _
  | _, .one .. | _, .brace _ | _, .rightParen _ | _, .operator .. | _, .other .. =>
    exact Nat.le_refl _

/-- A token uses up at least one letter while there is one. -/
theorem read_ahead_lt {c : Cursor} (h : c.ahead ≠ []) :
    (read c).2.ahead.length < c.ahead.length := by
  cases hc : c.ahead with
  | nil => exact absurd hc h
  | cons l rest =>
    have past : (c.past l rest).ahead = rest := rfl
    rw [read, hc]
    dsimp only
    refine Nat.lt_succ_of_le (past ▸ ?_)
    repeat' split
    · exact readNumber_ahead_le _ _ _
    · exact readName_ahead_le _ _ _
    · exact readMark_ahead_le _ _ _

/-- With no letter ahead there is only the end of the text. -/
theorem read_of_ahead_eq_nil {c : Cursor} (h : c.ahead = []) :
    (read c).1.kind = .fault .endOfText := by
  rw [read, h]; rfl

theorem ahead_ne_nil_of_not_isLast {c : Cursor} (h : (read c).1.isLast = false) :
    c.ahead ≠ [] := by
  intro hc
  rw [isLast, read_of_ahead_eq_nil hc] at h
  exact Bool.noConfusion h

/-! ## Streams -/

/-- The tokens from a place on, faulty ones included, up to the closing brace or the end of the
text. -/
def stream (c : Cursor) : List Token :=
  if _last : (read c).1.isLast = true then [(read c).1]
  else (read c).1 :: stream (read c).2
termination_by c.ahead.length
decreasing_by exact read_ahead_lt (ahead_ne_nil_of_not_isLast (by simpa using _last))

/-- The tokens of a stream up to and including the first fault. -/
def untilFault : List Token → List Token
  | [] => []
  | t :: rest => if t.isFault then [t] else t :: untilFault rest

/-- The tokens of the formula body that begins at `offset`: all up to the closing brace, or up to
the first fault. -/
def body (text : String) (offset : Nat) : List Token :=
  untilFault (stream (Cursor.seek text offset))

end Token
end FractalFormula
