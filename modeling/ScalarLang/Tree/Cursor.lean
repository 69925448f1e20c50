import ScalarLang.Token.Lexer
/-!
# Reading a token stream with one token of lookahead

An end-of-input token stays in the lookahead for ever; every other token is held there until it is taken.
`Cursor.size` counts what is still to be taken, and each step says how it changes that count.
-/
namespace ScalarLang

/-- A place in a token stream, with what has been looked at. -/
structure Cursor (ε : Type) where
  /-- The token that has been looked at and not taken. -/
  lookahead : Option Token
  /-- What the stream still answers. -/
  coming : List (Except ε Token)
  ending : Position
  deriving Repr

namespace Cursor

variable {ε : Type}

/-- The start of a stream. -/
def ofStream (s : TokenStream ε) : Cursor ε := ⟨none, s.answers, s.ending⟩

/-- The next answer of the stream. A token is kept in the lookahead; an error is told once. -/
def peek (c : Cursor ε) : Except ε Token × Cursor ε :=
  match c.lookahead, c.coming with
  | some t, _ => (.ok t, c)
  | none, [] =>
    (.ok ⟨.endOfInput, "", c.ending⟩, { c with lookahead := some ⟨.endOfInput, "", c.ending⟩ })
  | none, .ok t :: rest => (.ok t, { c with lookahead := some t, coming := rest })
  | none, .error e :: rest => (.error e, { c with coming := rest })

/-- Gives up the token in the lookahead. -/
def skip (c : Cursor ε) : Cursor ε := { c with lookahead := none }

/-- The next answer of the stream, taken. The end of input cannot be taken. -/
def next (c : Cursor ε) : Except ε Token × Cursor ε :=
  match c.peek with
  | (.ok t, c') => (.ok t, if t.isEnd then c' else c'.skip)
  | (.error e, c') => (.error e, c')

/-- The number of tokens in the lookahead that can be taken. -/
def held (c : Cursor ε) : Nat :=
  match c.lookahead with
  | some t => if t.isEnd then 0 else 1
  | none => 0

/-- Puts a token back, if the lookahead has room for it. -/
def unread? (t : Token) (c : Cursor ε) : Option (Cursor ε) :=
  if c.held = 0 then some { c with lookahead := some t } else none

/-- The number of tokens and errors that are still to be taken. -/
def size (c : Cursor ε) : Nat := c.coming.length + c.held

/-- Whether the next answer is a token with the property `p`. An error here is passed over. -/
def check (p : Token → Bool) (c : Cursor ε) : Bool × Cursor ε :=
  match c.peek with
  | (.ok t, c') => (p t, c')
  | (.error _, c') => (false, c')

/-- Takes the next token if it has the property `p`. An error here is passed over. -/
def consume (p : Token → Bool) (c : Cursor ε) : Bool × Cursor ε :=
  match c.check p with
  | (true, c') => (true, c'.skip)
  | (false, c') => (false, c')

/-! ## Sizes -/

theorem size_skip_le (c : Cursor ε) : c.skip.size ≤ c.size := by
  exact Nat.add_le_add_left (Nat.zero_le _) _

theorem size_peek_le (c : Cursor ε) : c.peek.2.size ≤ c.size := by
  obtain ⟨l, cs, p⟩ := c
  rcases l with _ | t
  · rcases cs with _ | ⟨e | t, cs⟩
    · simp [peek, size, held, Token.isEnd]
    · simp [peek, size, held]
    · simp only [peek, size, held, List.length_cons]; split <;> omega
  · simp [peek]

/-- A token that is looked at, and is not the end of input, can be taken. -/
theorem size_skip_peek_lt {c c' : Cursor ε} {t : Token} (h : c.peek = (.ok t, c'))
    (ht : t.isEnd = false) : c'.skip.size < c.size := by
  obtain ⟨l, cs, p⟩ := c
  rcases l with _ | u
  · rcases cs with _ | ⟨e | u, cs⟩
    · simp only [peek, Prod.mk.injEq, Except.ok.injEq] at h
      obtain ⟨rfl, rfl⟩ := h
      simp [Token.isEnd] at ht
    · simp [peek] at h
    · simp only [peek, Prod.mk.injEq, Except.ok.injEq] at h
      obtain ⟨rfl, rfl⟩ := h
      simp [size, skip, held]
  · simp only [peek, Prod.mk.injEq, Except.ok.injEq] at h
    obtain ⟨rfl, rfl⟩ := h
    simp [size, skip, held, ht]

/-- An error that is told is gone. -/
theorem size_peek_error_lt {c c' : Cursor ε} {e : ε} (h : c.peek = (.error e, c')) :
    c'.size < c.size := by
  obtain ⟨l, cs, p⟩ := c
  rcases l with _ | u
  · rcases cs with _ | ⟨e' | u, cs⟩
    · simp [peek] at h
    · simp only [peek, Prod.mk.injEq] at h
      obtain ⟨-, rfl⟩ := h
      simp [size, held]
    · simp [peek] at h
  · simp [peek] at h

theorem size_next_le (c : Cursor ε) : c.next.2.size ≤ c.size := by
  have h := size_peek_le c
  unfold next
  split
  · rename_i t c' hp
    rw [hp] at h
    split
    · exact h
    · exact Nat.le_trans (size_skip_le c') h
  · rename_i e c' hp
    rw [hp] at h
    exact h

theorem size_next_lt {c c' : Cursor ε} {t : Token} (h : c.next = (.ok t, c'))
    (ht : t.isEnd = false) : c'.size < c.size := by
  unfold next at h
  split at h
  · rename_i t' c'' hp
    simp only [Prod.mk.injEq, Except.ok.injEq] at h
    obtain ⟨rfl, rfl⟩ := h
    rw [ht]
    exact size_skip_peek_lt hp ht
  · simp at h

theorem size_next_error_lt {c c' : Cursor ε} {e : ε} (h : c.next = (.error e, c')) :
    c'.size < c.size := by
  unfold next at h
  split at h
  · simp at h
  · rename_i e' c'' hp
    simp only [Prod.mk.injEq, Except.error.injEq] at h
    obtain ⟨rfl, rfl⟩ := h
    exact size_peek_error_lt hp

theorem size_unread_le {c c' : Cursor ε} {t : Token} (h : c.unread? t = some c') :
    c'.size ≤ c.size + if t.isEnd then 0 else 1 := by
  unfold unread? at h
  split at h
  · simp only [Option.some.injEq] at h
    subst h
    simp only [size, held]
    omega
  · simp at h

theorem size_unread_le_succ {c c' : Cursor ε} {t : Token} (h : c.unread? t = some c') :
    c'.size ≤ c.size + 1 := by
  have := size_unread_le h
  split at this <;> omega

theorem size_check_le (p : Token → Bool) (c : Cursor ε) : (c.check p).2.size ≤ c.size := by
  have h := size_peek_le c
  unfold check
  split <;> (rename_i hp; rw [hp] at h; exact h)

theorem size_consume_le (p : Token → Bool) (c : Cursor ε) : (c.consume p).2.size ≤ c.size := by
  have h := size_check_le p c
  unfold consume
  split
  · rename_i c' hp
    rw [hp] at h
    exact Nat.le_trans (size_skip_le c') h
  · rename_i c' hp
    rw [hp] at h
    exact h

theorem size_le_of_consume {p : Token → Bool} {c c' : Cursor ε} {b : Bool}
    (h : c.consume p = (b, c')) : c'.size ≤ c.size := by
  simpa [h] using size_consume_le p c

end Cursor

end ScalarLang
