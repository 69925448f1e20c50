import ScalarLang.Tree.Parser
/-!
# Whole programs

`Parse.results` reads item after item and goes on after an error; each step takes something from the
stream, so the end is reached. `Parse.program` stops at the first error.
-/
namespace ScalarLang

namespace Cursor

variable {ε α : Type} {n : Nat}

theorem peek_of_lookahead {c : Cursor ε} {t : Token} (h : c.lookahead = some t) :
    c.peek = (.ok t, c) := by
  obtain ⟨l, cs, p⟩ := c
  subst h
  rfl

theorem next_of_lookahead {c : Cursor ε} {t : Token} (h : c.lookahead = some t)
    (ht : t.isEnd = false) : c.next = (.ok t, c.skip) := by
  simp [next, peek_of_lookahead h, ht]

theorem peeking_eq {c c' : Cursor ε} {t : Token} (hp : c.peek = (.ok t, c')) (h : c.size ≤ n)
    (f : (t : Token) → (c' : Cursor ε) → c'.size ≤ c.size →
      (t.isEnd = false → c'.skip.size < c.size) → Parsed ε α n) :
    c.peeking h f = f t c' (by simpa [hp] using c.size_peek_le) (size_skip_peek_lt hp) := by
  unfold peeking
  split
  · rename_i hp'
    rw [hp] at hp'
    cases hp'
    rfl
  · rename_i hp'
    rw [hp] at hp'
    cases hp'

theorem taking_error {c c' : Cursor ε} {e : ε} (hp : c.next = (.error e, c')) (h : c.size ≤ n)
    (f : (t : Token) → (c' : Cursor ε) → c'.size ≤ c.size →
      (t.isEnd = false → c'.size < c.size) → Parsed ε α n) :
    c.taking h f = .fail (.stream e) c'
      (Nat.le_trans (Nat.le_of_lt (size_next_error_lt hp)) h) := by
  unfold taking
  split
  · rename_i hp'
    rw [hp] at hp'
    cases hp'
  · rename_i hp'
    rw [hp] at hp'
    cases hp'
    rfl

theorem taking_eq {c c' : Cursor ε} {t : Token} (hp : c.next = (.ok t, c')) (h : c.size ≤ n)
    (f : (t : Token) → (c' : Cursor ε) → c'.size ≤ c.size →
      (t.isEnd = false → c'.size < c.size) → Parsed ε α n) :
    c.taking h f = f t c' (by simpa [hp] using c.size_next_le) (size_next_lt hp) := by
  unfold taking
  split
  · rename_i hp'
    rw [hp] at hp'
    cases hp'
    rfl
  · rename_i hp'
    rw [hp] at hp'
    cases hp'

end Cursor

namespace Parse

variable {ε : Type}

/-! ## Progress -/

theorem isEnd_of_isBoundary {t : Token} (h : t.isBoundary = false) : t.isEnd = false := by
  simp only [Token.isBoundary, Bool.or_eq_false_iff] at h
  exact h.1.1.1

/-- An operand takes its first token. -/
theorem size_primary_lt {c : Cursor ε} {t : Token} (hl : c.lookahead = some t)
    (hb : t.isBoundary = false) : (primary c).cursor.size < c.size := by
  have ht := isEnd_of_isBoundary hb
  have hn := Cursor.next_of_lookahead hl ht
  have hlt := Cursor.size_next_lt hn ht
  rw [primary, Cursor.taking_eq hn]
  split
  · exact Nat.lt_of_le_of_lt (operand _ t c.skip).size_le hlt
  · simpa [Cursor.refusing, Cursor.refuse, hb] using hlt

/-- Signs and their operand take something, unless an operator that is no sign stands first. -/
theorem size_unary_lt {c : Cursor ε} {t : Token} (hl : c.lookahead = some t)
    (hb : t.isBoundary = false) :
    (unary c).cursor.size < c.size ∨ (unary c).cursor = c ∧ ∃ e, (unary c).result = .error e := by
  have hp := Cursor.peek_of_lookahead hl
  rw [unary, Cursor.peeking_eq hp]
  split
  · exact .inl (size_primary_lt hl hb)
  · rename_i op ho
    have hlt := Cursor.size_skip_peek_lt hp (isEnd_of_isBoundary hb)
    split
    · left
      have hu := (unary c.skip).size_le
      unfold Parsed.andThen
      split
      · exact Nat.lt_of_le_of_lt hu hlt
      · exact Nat.lt_of_le_of_lt hu hlt
    · exact .inr ⟨rfl, _, rfl⟩

/-- An expression takes something, unless an operator that is no sign stands first. -/
theorem size_expression_lt {c : Cursor ε} {t : Token} (hl : c.lookahead = some t)
    (hb : t.isBoundary = false) :
    (expression c).cursor.size < c.size ∨
      (expression c).cursor = c ∧ ∃ e, (expression c).result = .error e := by
  rw [expression]
  unfold Parsed.andThen
  rcases size_unary_lt hl hb with h | ⟨hc, e, he⟩
  · left
    split
    · exact Nat.lt_of_le_of_lt (operators 0 _ _).size_le h
    · exact h
  · right
    rw [he]
    exact ⟨hc, e, rfl⟩

theorem size_synchronize_le (c : Cursor ε) : (synchronize c).size ≤ c.size := by
  fun_induction synchronize c with
  | case1 c e c₁ hp hlt ih => exact Nat.le_trans ih (Nat.le_of_lt hlt)
  | case2 c t c₁ hp he => simpa [hp] using c.size_peek_le
  | case3 c t c₁ hp he hlt hk => simpa [hp] using c.size_peek_le
  | case4 c t c₁ hp he hlt hk hs => exact Nat.le_of_lt hlt
  | case5 c t c₁ hp he hlt hk hs ih => exact Nat.le_trans ih (Nat.le_of_lt hlt)

/-- A token that is no boundary does not stop a synchronization. -/
theorem size_synchronize_lt {c : Cursor ε} {t : Token} (hl : c.lookahead = some t)
    (hb : t.isBoundary = false) : (synchronize c).size < c.size := by
  have hp := Cursor.peek_of_lookahead hl
  have he := isEnd_of_isBoundary hb
  have hlt := Cursor.size_skip_peek_lt hp he
  have hb' := hb
  simp only [Token.isBoundary, Bool.or_eq_false_iff, decide_eq_false_iff_not] at hb'
  rw [synchronize]
  split
  · rename_i hp'
    rw [hp] at hp'
    cases hp'
  · rename_i hp'
    rw [hp] at hp'
    cases hp'
    simp only [he, hb'.1.1.2, hb'.1.2, hb'.2, Bool.false_eq_true, ↓reduceDIte, ↓reduceIte,
      Bool.or_self]
    exact Nat.lt_of_le_of_lt (size_synchronize_le _) hlt

/-- Where reading goes on after an outcome: after what was read, or past what could not be. -/
def resume {α : Type} {n : Nat} (p : Parsed ε α n) : Cursor ε :=
  match p.result with
  | .ok _ => p.cursor
  | .error _ => synchronize p.cursor

theorem size_resume_le {α : Type} {n : Nat} (p : Parsed ε α n) : (resume p).size ≤ n := by
  unfold resume
  split
  · exact p.size_le
  · exact Nat.le_trans (size_synchronize_le _) p.size_le

theorem resume_done {α : Type} {n : Nat} (a : α) (c : Cursor ε) (h : c.size ≤ n) :
    resume (Parsed.done a c h) = c := rfl

/-- Going on with a result that is only wrapped does not change where reading goes on. -/
theorem resume_andThen_done {α β : Type} {m n : Nat} (p : Parsed ε α m) (h : m ≤ n) (f : α → β)
    (g : α → (c : Cursor ε) → c.size ≤ m → c.size ≤ n) :
    resume (p.andThen h fun a c hc => .done (f a) c (g a c hc)) = resume p := by
  unfold Parsed.andThen resume
  cases p.result <;> rfl

theorem size_resume_andThen_le {α β : Type} {m n k : Nat} (p : Parsed ε α m) (h : m ≤ n) (hk : m ≤ k)
    (f : α → (c : Cursor ε) → c.size ≤ m → Parsed ε β n)
    (hf : ∀ a c hc, (resume (f a c hc)).size ≤ k) : (resume (p.andThen h f)).size ≤ k := by
  unfold Parsed.andThen
  split
  · exact hf ..
  · exact Nat.le_trans (size_synchronize_le _) (Nat.le_trans p.size_le hk)

theorem size_resume_expression_lt {c : Cursor ε} {t : Token} (hl : c.lookahead = some t)
    (hb : t.isBoundary = false) : (resume (expression c)).size < c.size := by
  unfold resume
  rcases size_expression_lt hl hb with h | ⟨hc, e, he⟩
  · split
    · exact h
    · exact Nat.lt_of_le_of_lt (size_synchronize_le _) h
  · rw [he, hc]
    exact size_synchronize_lt hl hb

theorem size_resume_itemFrom_le {t : Token} (c : Cursor ε) (he : t.isEnd = false)
    (hs : t.kind ≠ .semicolon) : (resume (itemFrom t c)).size ≤ c.size := by
  unfold itemFrom
  split
  · apply size_resume_andThen_le _ _ (Nat.le_refl _)
    intro proto c₁ h₁
    rw [resume_andThen_done (expression c₁)]
    exact Nat.le_trans (size_resume_le _) h₁
  · split
    · rw [resume_andThen_done (prototype c)]
      exact size_resume_le _
    · split
      · rename_i hd hx c₁ hu
        rw [resume_andThen_done (expression c₁)]
        have hl : c₁.lookahead = some t := by
          unfold Cursor.unread? at hu
          split at hu
          · simp only [Option.some.injEq] at hu
            rw [← hu]
          · simp at hu
        have hb : t.isBoundary = false := by simp [Token.isBoundary, he, hs, hd, hx]
        have := size_resume_expression_lt hl hb
        have := Cursor.size_unread_le_succ hu
        omega
      · exact size_synchronize_le _

/-- Reading an item, and going on after it, takes something from the stream. -/
theorem size_resume_item_lt (c : Cursor ε) (h : (item c).result ≠ .ok none) :
    (resume (item c)).size < c.size := by
  rcases hp : c.next with ⟨e | t, c₁⟩
  · rw [item, Cursor.taking_error hp]
    exact Nat.lt_of_le_of_lt (size_synchronize_le _) (Cursor.size_next_error_lt hp)
  · rw [item, Cursor.taking_eq hp] at h ⊢
    by_cases he : t.isEnd = true
    · simp [he, Parsed.done] at h
    · have hlt := Cursor.size_next_lt hp (by simpa using he)
      simp only [he, Bool.false_eq_true, ↓reduceDIte] at h ⊢
      by_cases hs : t.kind = .semicolon
      · simp only [hs, ↓reduceIte] at h ⊢
        exact Nat.lt_trans (size_resume_item_lt c₁ h) hlt
      · simp only [hs, ↓reduceIte] at h ⊢
        rw [resume_andThen_done (itemFrom t c₁)]
        exact Nat.lt_of_le_of_lt (size_resume_itemFrom_le c₁ (by simpa using he) hs) hlt
termination_by c.size

/-! ## Programs -/

/-- The items and errors of a program, in order. -/
def results (c : Cursor ε) : List (Except (Failure ε) Item) :=
  match hr : (item c).result with
  | .ok none => []
  | .ok (some i) =>
    have := size_resume_item_lt c (by simp [hr])
    .ok i :: results (resume (item c))
  | .error e =>
    have := size_resume_item_lt c (by simp [hr])
    .error e :: results (resume (item c))
termination_by c.size

/-- The items of a program, or its first error. -/
def program (c : Cursor ε) : Except (Failure ε) (List Item) := (results c).mapM id

end Parse

end ScalarLang
