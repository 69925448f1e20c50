import ScalarLang.Proofs.Consumption
import ScalarLang.Proofs.Parsed
/-!
# Where the errors of a stream go

A reader that needs the next token passes an error on, and the item in which it is met fails with it. A
reader that only asks whether a certain token comes next takes the error for another token and forgets
it. It asks that after a name and after the parenthesis that follows a name, and nowhere else:
`errors_told` says that all other errors are told.
-/
namespace ScalarLang

variable {ε α β : Type}

/-- The answers end with a name, or with a name and a parenthesis that opens. -/
def EndsInName (answers : List (Except ε Token)) : Prop :=
  ∃ t : Token, t.kind = .identifier ∧
    ([.ok t] <:+ answers ∨ ∃ l : Token, l.opensParen = true ∧ [.ok t, .ok l] <:+ answers)

/-- The token at the end tells. -/
theorem EndsInName.getLast? {answers : List (Except ε Token)} (h : EndsInName answers) :
    ∃ t : Token, answers.getLast? = some (.ok t) ∧ (t.kind = .identifier ∨ t.opensParen = true) := by
  obtain ⟨t, ht, ⟨front, rfl⟩ | ⟨l, hl, front, rfl⟩⟩ := h
  · exact ⟨t, by simp, .inl ht⟩
  · exact ⟨l, by simp, .inr hl⟩

theorem EndsInName.append_left {answers : List (Except ε Token)} (h : EndsInName answers)
    (front : List (Except ε Token)) : EndsInName (front ++ answers) := by
  obtain ⟨t, ht, hlast | ⟨l, hl, hlast⟩⟩ := h
  · exact ⟨t, ht, .inl (hlast.trans (List.suffix_append ..))⟩
  · exact ⟨t, ht, .inr ⟨l, hl, hlast.trans (List.suffix_append ..)⟩⟩

namespace Parsed

variable {n : Nat} {q : Parsed ε α n}

theorem of_outcome_ok {a : α} {c : Cursor ε} (h : q.outcome = .ok a c) :
    q.result = .ok a ∧ q.cursor = c := by
  unfold outcome at h
  split at h <;> cases h
  exact ⟨‹_›, rfl⟩

theorem of_outcome_error {f : Failure ε} {c : Cursor ε} (h : q.outcome = .error f c) :
    q.result = .error f ∧ q.cursor = c := by
  unfold outcome at h
  split at h <;> cases h
  exact ⟨‹_›, rfl⟩

end Parsed

/-! ## Places in a stream -/

/-- The cursor stands after the answers `given` of a stream with the answers `all`. Since `done` were
given, no error was met but after a name. -/
structure Cursor.Reached (all done given : List (Except ε Token)) (c : Cursor ε) : Prop where
  place : all = given ++ c.coming
  held : ∀ t, c.lookahead = some t → [.ok t] <:+ given ∨ (t.isEnd = true ∧ c.coming = [])
  since : done <+: given
  passed : ∀ pre e, done <+: pre → pre ++ [.error e] <+: given → EndsInName pre

namespace Cursor.Reached

variable {all done given : List (Except ε Token)} {c : Cursor ε}

/-- A call starts here, and has met nothing yet. -/
theorem start (place : all = given ++ c.coming)
    (held : ∀ t, c.lookahead = some t → [.ok t] <:+ given ∨ (t.isEnd = true ∧ c.coming = [])) :
    c.Reached all given given := by
  refine ⟨place, held, List.prefix_rfl, ?_⟩
  intro pre e hpre hgiven
  have hle := hpre.length_le
  have hlt := hgiven.length_le
  rw [List.length_append, List.length_singleton] at hlt
  omega

theorem restart (h : c.Reached all done given) : c.Reached all given given := start h.place h.held

theorem skip (h : c.Reached all done given) : c.skip.Reached all done given :=
  ⟨h.place, by simp [Cursor.skip], h.since, h.passed⟩

theorem token {t : Token} {cs : List (Except ε Token)} {p : Position}
    (h : (⟨none, .ok t :: cs, p⟩ : Cursor ε).Reached all done given) :
    (⟨some t, cs, p⟩ : Cursor ε).Reached all done (given ++ [.ok t]) := by
  refine ⟨by simpa using h.place, ?_, h.since.trans (List.prefix_append ..), ?_⟩
  · rintro u ⟨⟩
    exact .inl (List.suffix_append ..)
  · intro pre e hdone hpre
    rcases List.prefix_concat_iff.1 hpre with heq | hpre
    · cases List.append_inj_right' heq rfl
    · exact h.passed pre e hdone hpre

theorem ended {p : Position} (h : (⟨none, [], p⟩ : Cursor ε).Reached all done given) :
    (⟨some ⟨.endOfInput, "", p⟩, [], p⟩ : Cursor ε).Reached all done given := by
  refine ⟨h.place, ?_, h.since, h.passed⟩
  rintro t ⟨⟩
  exact .inr ⟨rfl, rfl⟩

/-- An error that is met after a name can be forgotten. -/
theorem forget {e : ε} {cs : List (Except ε Token)} {p : Position}
    (h : (⟨none, .error e :: cs, p⟩ : Cursor ε).Reached all done given) (hn : EndsInName given) :
    (⟨none, cs, p⟩ : Cursor ε).Reached all done (given ++ [.error e]) := by
  refine ⟨by simpa using h.place, by simp, h.since.trans (List.prefix_append ..), ?_⟩
  intro pre e' hdone hpre
  rcases List.prefix_concat_iff.1 hpre with heq | hpre
  · rw [List.append_inj_left' heq rfl]
    exact hn
  · exact h.passed pre e' hdone hpre

/-- An error that was told is gone. -/
theorem past_error {e : ε} {cs : List (Except ε Token)} {p : Position}
    (h : (⟨none, .error e :: cs, p⟩ : Cursor ε).Reached all done given) :
    (⟨none, cs, p⟩ : Cursor ε).Reached all (given ++ [.error e]) (given ++ [.error e]) :=
  start (by simpa using h.place) (by simp)

/-- What a look shows: a token, which is then the last answer, or an error that comes next. -/
theorem look_cases (h : c.Reached all done given) :
    (∃ t c' given', Reading.look c = .ok t c' ∧ c'.Reached all done given' ∧ c'.lookahead = some t ∧
      (c.lookahead = none → t.isEnd = false → given' = given ++ [.ok t])) ∨
    ∃ e cs p, c = ⟨none, .error e :: cs, p⟩ := by
  obtain ⟨l, cs, p⟩ := c
  rcases l with _ | t
  · rcases cs with _ | ⟨e | t, cs⟩
    · exact .inl ⟨_, _, _, rfl, h.ended, rfl, by simp [Token.isEnd]⟩
    · exact .inr ⟨e, cs, p, rfl⟩
    · exact .inl ⟨t, _, _, rfl, h.token, rfl, fun _ _ => rfl⟩
  · exact .inl ⟨t, _, _, rfl, h, rfl, by simp⟩

end Cursor.Reached

/-! ## Outcomes that tell every error -/

namespace Reading

/-- An outcome after which every error met since `done` was told or stood after a name. Nothing fails
but for the grammar or for an error that is told. -/
inductive Tells (all done : List (Except ε Token)) :
    EStateM.Result (Failure ε) (Cursor ε) α → Prop
  | ok {a : α} {c : Cursor ε} {given : List (Except ε Token)} (h : c.Reached all done given) :
      Tells all done (.ok a c)
  | error {g : ParseError} {c : Cursor ε} {given : List (Except ε Token)}
      (h : c.Reached all done given) : Tells all done (.error (.grammar g) c)
  | told {e : ε} {cs : List (Except ε Token)} {p : Position} {given : List (Except ε Token)}
      (h : (⟨none, .error e :: cs, p⟩ : Cursor ε).Reached all done given) :
      Tells all done (.error (.stream e) ⟨none, cs, p⟩)

namespace Tells

variable {all done given : List (Except ε Token)} {c : Cursor ε}

theorem bind {act : Reading ε α} {f : α → Reading ε β} (h : Tells all done (act c))
    (hf : ∀ a c' given', act c = .ok a c' → c'.Reached all done given' → Tells all done (f a c')) :
    Tells all done ((act >>= f) c) := by
  show Tells all done (EStateM.bind act f c)
  unfold EStateM.bind
  generalize hact : act c = r at h
  cases h with
  | ok h => exact hf _ _ _ hact h
  | error h => exact .error h
  | told h => exact .told h

theorem look {f : Token → Reading ε α} (hc : c.Reached all done given)
    (hf : ∀ t c' given', Reading.look c = .ok t c' → c'.Reached all done given' →
      c'.lookahead = some t → Tells all done (f t c')) :
    Tells all done ((Reading.look >>= f) c) := by
  show Tells all done (EStateM.bind Reading.look f c)
  unfold EStateM.bind
  rcases hc.look_cases with ⟨t, c', given', hl, hc', ht, -⟩ | ⟨e, cs, p, rfl⟩
  · rw [hl]
    exact hf t c' given' hl hc' ht
  · exact .told hc

/-- A token that is taken, and is not the end of input, is the last answer. It can be refused. -/
theorem take {f : Token → Reading ε α} (hc : c.Reached all done given)
    (hf : ∀ t c' given', Reading.take c = .ok t c' → c'.Reached all done given' →
      (t.isEnd = false → c'.lookahead = none ∧ [.ok t] <:+ given') →
      (∀ wanted, Tells all done ((refuse wanted t : Reading ε α) c')) → Tells all done (f t c')) :
    Tells all done ((Reading.take >>= f) c) := by
  show Tells all done (EStateM.bind Reading.take f c)
  unfold EStateM.bind
  rcases hc.look_cases with ⟨t, c', given', hl, hc', ht, -⟩ | ⟨e, cs, p, rfl⟩
  · rw [take_of_look hl]
    refine hf t _ given' (take_of_look hl) ?_ (fun he => ?_) fun wanted => ?_
    · split
      · exact hc'
      · exact hc'.skip
    · rcases hc'.held t ht with hlast | ⟨hend, -⟩
      · exact ⟨by simp [he, Cursor.skip], hlast⟩
      · rw [he] at hend; cases hend
    · rw [refuse_take wanted hl]
      split
      · exact .error hc'
      · exact .error hc'.skip
  · exact .told hc

/-- A question for a token, asked after a name or with a token in the lookahead. -/
theorem accept {p : Token → Bool} {f : Bool → Reading ε α} (hc : c.Reached all done given)
    (hn : c.lookahead = none → EndsInName given) (hp : ∀ t, p t = true → t.isEnd = false)
    (hf : ∀ b c' given', Reading.accept p c = .ok b c' → c'.Reached all done given' →
      (c.lookahead = none → b = true →
        c'.lookahead = none ∧ ∃ t, p t = true ∧ given' = given ++ [.ok t]) →
      Tells all done (f b c')) :
    Tells all done ((Reading.accept p >>= f) c) := by
  rcases hc.look_cases with ⟨t, c', given', hl, hc', ht, hlast⟩ | ⟨e, cs, pos, rfl⟩
  · cases hpt : p t with
    | true =>
      have hyes := accept_of_look_true hl hpt
      rw [bind_of_ok hyes]
      refine hf _ _ given' hyes hc'.skip fun hnone _ => ?_
      exact ⟨rfl, t, hpt, hlast hnone (hp t hpt)⟩
    | false =>
      have hno := accept_of_look_false hl hpt
      rw [bind_of_ok hno]
      exact hf _ _ given' hno hc' (by simp)
  -- the answer to the question is no, and the error is gone
  · exact hf false ⟨none, cs, pos⟩ _ rfl (hc.forget (hn rfl)) (by simp)

end Tells

/-! ## Expressions -/

/-- The operators of an expression end at a token that was looked at. -/
theorem lookahead_operators {least : Int} {lhs e : Expr} {c c' : Cursor ε}
    (h : operators least lhs c = .ok e c') : ∃ t, c'.lookahead = some t := by
  rw [operators_eq] at h
  obtain ⟨t, c₁, hl, h⟩ := of_bind_eq_ok h
  have ht := Cursor.lookahead_peek (peek_of_look hl)
  cases ho : t.operator? with
  | none =>
    simp only [ho] at h
    cases h
    exact ⟨t, ht⟩
  | some op =>
    simp only [ho] at h
    have hlt := size_skip_look_lt hl (Token.isEnd_of_operator? ho)
    cases hp : op.precedence? with
    | none => simp only [hp] at h; cases h
    | some prec =>
      simp only [hp] at h
      split at h
      · cases h
        exact ⟨t, ht⟩
      · obtain ⟨-, -, ⟨⟩, h⟩ := of_bind_eq_ok h
        obtain ⟨rhs, c₂, hu, h⟩ := of_bind_eq_ok h
        have hle₂ := Parsed.size_of_outcome hu
        obtain ⟨ahead, c₃, hl₃, h⟩ := of_bind_eq_ok h
        have hle₃ := size_look_le hl₃
        cases hr : prec.rightLevel? ahead with
        | none =>
          simp only [hr] at h
          exact lookahead_operators h
        | some level =>
          simp only [hr] at h
          obtain ⟨rhs', c₄, hop, h⟩ := of_bind_eq_ok h
          have hle₄ := Parsed.size_of_outcome hop
          exact lookahead_operators h
termination_by c.size

theorem lookahead_expression {e : Expr} {c c' : Cursor ε} (h : expression c = .ok e c') :
    ∃ t, c'.lookahead = some t := by
  rw [expression_eq] at h
  obtain ⟨lhs, c₁, -, h⟩ := of_bind_eq_ok h
  exact lookahead_operators h

section Expressions

variable {all done : List (Except ε Token)}

mutual

theorem tells_expression {given : List (Except ε Token)} {c : Cursor ε}
    (hc : c.Reached all done given) : Tells all done (expression c) := by
  rw [expression_eq]
  refine (tells_unary hc).bind fun lhs c₁ given₁ h₁ hc₁ => ?_
  have := Parsed.size_of_outcome h₁
  exact tells_operators 0 lhs hc₁
termination_by 5 * c.size + 2

theorem tells_operators (least : Int) (lhs : Expr) {given : List (Except ε Token)} {c : Cursor ε}
    (hc : c.Reached all done given) : Tells all done (operators least lhs c) := by
  rw [operators_eq]
  refine .look hc fun t c₁ given₁ h₁ hc₁ _ => ?_
  cases ho : t.operator? with
  | none => exact .ok hc₁
  | some op =>
    have hlt := size_skip_look_lt h₁ (Token.isEnd_of_operator? ho)
    simp only
    cases op.precedence? with
    | none => exact .error hc₁
    | some prec =>
      simp only
      split
      · exact .ok hc₁
      · refine .bind (.ok hc₁.skip) fun _ c₂ given₂ h₂ hc₂ => ?_
        cases h₂
        refine (tells_unary hc₂).bind fun rhs c₃ given₃ h₃ hc₃ => ?_
        have hle₃ := Parsed.size_of_outcome h₃
        refine .look hc₃ fun ahead c₄ given₄ h₄ hc₄ _ => ?_
        have hle₄ := size_look_le h₄
        cases prec.rightLevel? ahead with
        | none => exact tells_operators least _ hc₄
        | some level =>
          refine (tells_operators level rhs hc₄).bind fun rhs c₅ given₅ h₅ hc₅ => ?_
          have hle₅ := Parsed.size_of_outcome h₅
          exact tells_operators least _ hc₅
termination_by 5 * c.size

theorem tells_unary {given : List (Except ε Token)} {c : Cursor ε}
    (hc : c.Reached all done given) : Tells all done (unary c) := by
  rw [unary_eq]
  refine .look hc fun t c₁ given₁ h₁ hc₁ _ => ?_
  cases ho : t.operator? with
  | none =>
    have := size_look_le h₁
    exact tells_primary hc₁
  | some op =>
    have hlt := size_skip_look_lt h₁ (Token.isEnd_of_operator? ho)
    simp only
    split
    · refine .bind (.ok hc₁.skip) fun _ c₂ given₂ h₂ hc₂ => ?_
      cases h₂
      exact (tells_unary hc₂).bind fun x c₃ given₃ _ hc₃ => .ok hc₃
    · exact .error hc₁
termination_by 5 * c.size + 1

theorem tells_primary {given : List (Except ε Token)} {c : Cursor ε}
    (hc : c.Reached all done given) : Tells all done (primary c) := by
  rw [primary_eq]
  refine .take hc fun t c₁ given₁ h₁ hc₁ hlast hrefuse => ?_
  cases ho : t.operandStart? with
  | none => exact hrefuse .expression
  | some start =>
    have he := Token.isEnd_of_operandStart? ho
    have hlt := size_take_lt h₁ he
    obtain ⟨hnone, hsuffix⟩ := hlast he
    exact tells_operand ho hc₁ hnone hsuffix
termination_by 5 * c.size

/-- The first token of the operand is the last answer, so that what comes after a name is asked for
at the end of a name. -/
theorem tells_operand {start : Token.OperandStart} {t : Token} (ho : t.operandStart? = some start)
    {given : List (Except ε Token)} {c : Cursor ε} (hc : c.Reached all done given)
    (hnone : c.lookahead = none) (hlast : [.ok t] <:+ given) :
    Tells all done (operand start t c) := by
  have hk := Token.kind_of_operandStart? ho
  rw [operand_eq]
  cases start with
  | integer =>
    simp only
    cases Numeral.int64? t.text with
    | none => exact .error hc
    | some v => exact .ok hc
  | float =>
    simp only
    cases Numeral.binary64? t.text with
    | none => exact .error hc
    | some v => exact .ok hc
  | name =>
    refine .accept hc (fun _ => ⟨t, hk, .inl hlast⟩) (fun _ => Token.isEnd_of_opensParen)
      fun b c₁ given₁ h₁ hc₁ hopen => ?_
    have hle₁ := size_accept_le h₁
    cases b with
    | false => exact .ok hc₁
    | true =>
      obtain ⟨-, l, hl, rfl⟩ := hopen hnone rfl
      have hparen : [.ok t, .ok l] <:+ given ++ [.ok l] := by
        obtain ⟨front, rfl⟩ := hlast
        exact ⟨front, by simp⟩
      refine .accept hc₁ (fun _ => ⟨t, hk, .inr ⟨l, hl, hparen⟩⟩)
        (fun _ h => Parse.isEnd_of_isBoundary (Token.isBoundary_of_closesParen h))
        fun b c₂ given₂ h₂ hc₂ _ => ?_
      have hle₂ := size_accept_le h₂
      cases b with
      | true => exact .ok hc₂
      | false => exact (tells_arguments hc₂).bind fun xs c₃ given₃ _ hc₃ => .ok hc₃
  | paren =>
    refine (tells_expression hc).bind fun e c₁ given₁ _ hc₁ => ?_
    refine .take hc₁ fun u c₂ given₂ _ hc₂ _ hrefuse => ?_
    split
    · exact .ok hc₂
    · exact hrefuse .closeParen
  | binding => exact tells_bindings hc
termination_by 5 * c.size + 4

theorem tells_arguments {given : List (Except ε Token)} {c : Cursor ε}
    (hc : c.Reached all done given) : Tells all done (arguments c) := by
  rw [arguments_eq]
  refine (tells_expression hc).bind fun e c₁ given₁ h₁ hc₁ => ?_
  have hle₁ := Parsed.size_of_outcome h₁
  refine .take hc₁ fun u c₂ given₂ h₂ hc₂ _ hrefuse => ?_
  split
  · exact .ok hc₂
  · split
    · rename_i hcomma
      have hlt := size_take_lt h₂ (Token.isEnd_of_isComma hcomma)
      exact (tells_arguments hc₂).bind fun es c₃ given₃ _ hc₃ => .ok hc₃
    · exact hrefuse .commaOrClose
termination_by 5 * c.size + 3

theorem tells_bindings {given : List (Except ε Token)} {c : Cursor ε}
    (hc : c.Reached all done given) : Tells all done (bindings c) := by
  rw [bindings_eq]
  refine .take hc fun t c₁ given₁ h₁ hc₁ _ hrefuse => ?_
  split
  · rename_i hk
    have hlt := size_take_lt h₁ (Token.isEnd_of_kind hk (by simp))
    refine .look hc₁ fun u c₂ given₂ h₂ hc₂ hu => ?_
    have hle₂ := size_look_le h₂
    split
    · refine .bind (.ok hc₂.skip) fun _ c₃ given₃ h₃ hc₃ => ?_
      cases h₃
      have hle₃ := c₂.size_skip_le
      refine (tells_expression hc₃).bind fun init c₄ given₄ h₄ hc₄ => ?_
      have hle₄ := Parsed.size_of_outcome h₄
      exact tells_afterBinding t init hc₄ (lookahead_expression h₄)
    · exact tells_afterBinding t _ hc₂ ⟨u, hu⟩
  · exact hrefuse .variableName
termination_by 5 * c.size + 2

/-- The comma after a binding is asked for when the token there was looked at. -/
theorem tells_afterBinding (t : Token) (init : Expr) {given : List (Except ε Token)} {c : Cursor ε}
    (hc : c.Reached all done given) (hl : ∃ u, c.lookahead = some u) :
    Tells all done (afterBinding t init c) := by
  rw [afterBinding_eq]
  obtain ⟨u, hu⟩ := hl
  refine .accept hc (by simp [hu]) (fun _ => Token.isEnd_of_isComma) fun b c₁ given₁ h₁ hc₁ _ => ?_
  have hle₁ := size_accept_le h₁
  cases b with
  | true => exact (tells_bindings hc₁).bind fun body c₂ given₂ _ hc₂ => .ok hc₂
  | false =>
    refine .take hc₁ fun v c₂ given₂ h₂ hc₂ _ hrefuse => ?_
    split
    · rename_i hin
      have hlt := size_take_lt h₂ (Token.isEnd_of_isKeyword hin)
      exact (tells_expression hc₂).bind fun body c₃ given₃ _ hc₃ => .ok hc₃
    · exact hrefuse .within
termination_by 5 * c.size + 3

end

end Expressions

/-! ## Items -/

section Items

variable {all done : List (Except ε Token)}

theorem tells_parameters (afterComma : Bool) {given : List (Except ε Token)} {c : Cursor ε}
    (hc : c.Reached all done given) : Tells all done (parameters afterComma c) := by
  rw [parameters_eq]
  refine .take hc fun t c₁ given₁ h₁ hc₁ hlast hrefuse => ?_
  split
  · rename_i hk
    have he : t.isEnd = false := Token.isEnd_of_kind hk (by simp)
    have hlt := size_take_lt h₁ he
    refine .accept hc₁ (fun _ => ⟨t, hk, .inl (hlast he).2⟩) (fun _ => Token.isEnd_of_isComma)
      fun comma c₂ given₂ h₂ hc₂ _ => ?_
    have hle₂ := size_accept_le h₂
    exact (tells_parameters comma hc₂).bind fun names c₃ given₃ _ hc₃ => .ok hc₃
  · split
    · exact .ok hc₁
    · exact hrefuse _
termination_by c.size

theorem tells_prototype {given : List (Except ε Token)} {c : Cursor ε}
    (hc : c.Reached all done given) : Tells all done (prototype c) := by
  rw [prototype_eq]
  refine .take hc fun t c₁ given₁ _ hc₁ _ hrefuse => ?_
  split
  · refine .take hc₁ fun u c₂ given₂ _ hc₂ _ hrefuse' => ?_
    split
    · exact (tells_parameters false hc₂).bind fun params c₃ given₃ _ hc₃ => .ok hc₃
    · exact hrefuse' _
  · exact hrefuse _

theorem tells_itemFrom {t : Token} {given : List (Except ε Token)} {c : Cursor ε}
    (hl : c.lookahead = some t) (hc : c.Reached all done given) :
    Tells all done (itemFrom t c.skip) := by
  rw [itemFrom_eq]
  split
  · refine (tells_prototype hc.skip).bind fun proto c₁ given₁ _ hc₁ => ?_
    exact (tells_expression hc₁).bind fun body c₂ given₂ _ hc₂ => .ok hc₂
  · split
    · exact (tells_prototype hc.skip).bind fun proto c₁ given₁ _ hc₁ => .ok hc₁
    · refine Tells.bind (by rw [unread_skip hl]; exact .ok hc) fun _ c₁ given₁ _ hc₁ => ?_
      exact (tells_expression hc₁).bind fun body c₂ given₂ _ hc₂ => .ok hc₂

theorem tells_item {given : List (Except ε Token)} {c : Cursor ε} (hc : c.Reached all done given) :
    Tells all done (item c) := by
  rcases hc.look_cases with ⟨t, c', given', hl, hc', ht, -⟩ | ⟨e, cs, p, rfl⟩
  · cases he : t.isEnd with
    | true =>
      rw [item_of_look_end hl he]
      exact .ok hc'
    | false =>
      rw [item_of_look hl he]
      split
      · have := size_skip_look_lt hl he
        exact tells_item hc'.skip
      · exact (tells_itemFrom ht hc').bind fun i c₁ given₁ _ hc₁ => .ok hc₁
  · have hl : look (⟨none, .error e :: cs, p⟩ : Cursor ε) = .error (.stream e) ⟨none, cs, p⟩ := rfl
    rw [item_of_look_error hl]
    exact .told hc
termination_by c.size

end Items

/-- What an item that tells every error says of its cursor and its result. -/
theorem Tells.parsed {all done : List (Except ε Token)} {n : Nat} {q : Parsed ε α n}
    (h : Tells all done q.outcome) :
    ∃ given, q.cursor.Reached all given given ∧ done <+: given ∧
      ∀ pre e, done <+: pre → pre ++ [.error e] <+: given →
        q.result = .error (.stream e) ∨ EndsInName pre := by
  obtain ⟨r, c, hle⟩ := q
  cases r with
  | ok a =>
    cases h with
    | ok h => exact ⟨_, h.restart, h.since, fun pre e hd hp => .inr (h.passed pre e hd hp)⟩
  | error f =>
    cases h with
    | error h => exact ⟨_, h.restart, h.since, fun pre e hd hp => .inr (h.passed pre e hd hp)⟩
    | told h =>
      refine ⟨_, h.past_error, h.since.trans (List.prefix_append ..), fun pre e' hd hp => ?_⟩
      rcases List.prefix_concat_iff.1 hp with heq | hp
      · cases List.append_inj_right' heq rfl
        exact .inl rfl
      · exact .inr (h.passed pre e' hd hp)

theorem reached_synchronize {all done given : List (Except ε Token)} {c : Cursor ε}
    (hc : c.Reached all done given) :
    ∃ given', (Parse.synchronize c).Reached all given' given' := by
  rw [synchronize_eq]
  rcases hc.look_cases with ⟨t, c', given', hl, hc', ht, -⟩ | ⟨e, cs, p, rfl⟩
  · simp only [hl]
    split
    · exact ⟨given', hc'.restart⟩
    · rename_i hk
      split
      · exact ⟨given', hc'.skip.restart⟩
      · have he : t.isEnd = false := by
          cases he : t.isEnd with
          | false => rfl
          | true => simp [he] at hk
        have := size_skip_look_lt hl he
        exact reached_synchronize hc'.skip
  · have hl : look (⟨none, .error e :: cs, p⟩ : Cursor ε) = .error (.stream e) ⟨none, cs, p⟩ := rfl
    have := size_look_error_lt hl
    simp only [hl]
    exact reached_synchronize hc.past_error
termination_by c.size

/-- Between calls a parser stands somewhere in its stream. -/
theorem reached_of_visits {s : TokenStream ε} {c : Cursor ε}
    (h : Parse.Visits (.ofStream s) c) : ∃ given, c.Reached s.answers given given := by
  induction h with
  | start => exact ⟨[], .start rfl (by simp [Cursor.ofStream])⟩
  | item _ ih =>
    obtain ⟨given, hd⟩ := ih
    obtain ⟨given', hc, -, -⟩ := (tells_item hd).parsed
    exact ⟨given', hc⟩
  | synchronize _ ih =>
    obtain ⟨given, hd⟩ := ih
    exact reached_synchronize hd

end Reading

/-! ## Where results come from -/

namespace Parse

/-- Every result is that of a cursor that the parser comes to. -/
theorem visits_of_mem_results {c₀ c : Cursor ε} {r : Except (Failure ε) Item} (hc : Visits c₀ c)
    (h : r ∈ results c) : ∃ d, Visits c₀ d ∧ (item d).result = r.map some := by
  rw [Reading.results_eq] at h
  rcases hi : Reading.item c with ⟨_ | i, c'⟩ | ⟨f, c'⟩
  · simp [hi] at h
  · obtain ⟨hr, rfl⟩ := Parsed.of_outcome_ok hi
    have := Reading.size_item_lt hi
    simp only [hi, List.mem_cons] at h
    rcases h with rfl | h
    · exact ⟨c, hc, hr⟩
    · exact visits_of_mem_results hc.item h
  · obtain ⟨hr, rfl⟩ := Parsed.of_outcome_error hi
    have := Reading.size_synchronize_item_lt hi
    simp only [hi, List.mem_cons] at h
    rcases h with rfl | h
    · exact ⟨c, hc, hr⟩
    · exact visits_of_mem_results hc.item.synchronize h
termination_by c.size

/-- An item fails for the grammar or with an error of the stream. -/
theorem failure_of_mem_results {s : TokenStream ε} {f : Failure ε}
    (h : .error f ∈ results (.ofStream s)) :
    (∃ g, f = .grammar g) ∨ ∃ e, f = .stream e ∧ .error e ∈ s.answers := by
  obtain ⟨c, hc, hr⟩ := visits_of_mem_results .start h
  obtain ⟨given, hg⟩ := Reading.reached_of_visits hc
  have htells := Reading.tells_item hg
  have hitem : Reading.item c = .error f (item c).cursor := by
    simp [Reading.item, Parsed.outcome, hr, Except.map]
  rw [hitem] at htells
  generalize (item c).cursor = c' at htells
  cases htells with
  | error _ => exact .inl ⟨_, rfl⟩
  | told hreached => exact .inr ⟨_, rfl, by simp [hreached.place]⟩

end Parse

namespace Reading

/-! ## Programs -/

theorem lookahead_item_none {c c' : Cursor ε} (h : item c = .ok none c') :
    ∃ t, c'.lookahead = some t ∧ t.isEnd = true := by
  rcases hp : c.peek with ⟨e | t, d⟩
  · have hl := look_of_peek_error hp
    rw [item_of_look_error hl] at h
    cases h
  · have hl := look_of_peek hp
    cases he : t.isEnd with
    | true =>
      rw [item_of_look_end hl he] at h
      cases h
      exact ⟨t, Cursor.lookahead_peek hp, he⟩
    | false =>
      rw [item_of_look hl he] at h
      split at h
      · have := size_skip_look_lt hl he
        exact lookahead_item_none h
      · rw [map_itemFrom] at h
        split at h <;> cases h
termination_by c.size

/-- A program that is read to its end met no error but after a name. -/
theorem endsInName_of_program {all done given : List (Except ε Token)} {c : Cursor ε}
    {items : List Item} (hc : c.Reached all done given) (h : Parse.program c = .ok items)
    {pre : List (Except ε Token)} {e : ε} (hdone : done <+: pre)
    (hpre : pre ++ [.error e] <+: all) (hend : ∀ t, .ok t ∈ pre → t.isEnd = false) :
    EndsInName pre := by
  have htells := tells_item hc
  rw [program_eq] at h
  rcases hi : item c with ⟨_ | i, c'⟩ | ⟨f, c'⟩
  · rw [hi] at htells
    cases htells with
    | @ok _ _ given' hc' =>
      obtain ⟨t, ht, he⟩ := lookahead_item_none hi
      have hprefix : given' <+: all := ⟨c'.coming, hc'.place.symm⟩
      rcases List.prefix_or_prefix_of_prefix hpre hprefix with hle | hle
      · exact hc'.passed pre e hdone hle
      · rcases hc'.held t ht with hlast | ⟨-, hnil⟩
        -- the end of input was an answer of the stream, before the error
        · rcases List.prefix_concat_iff.1 hle with heq | hle
          · rw [heq] at hlast
            obtain ⟨front, hfront⟩ := hlast
            cases List.append_inj_right' hfront rfl
          · have := hend t (hle.subset (hlast.subset (by simp)))
            rw [he] at this; cases this
        · have hall : all = given' := by rw [hc'.place, hnil, List.append_nil]
          exact hc'.passed pre e hdone (hall ▸ hpre)
  · rw [hi] at htells
    cases htells with
    | ok hc' =>
      have := size_item_lt hi
      simp only [hi] at h
      cases hp : Parse.program c' with
      | error f => rw [hp] at h; cases h
      | ok rest => exact endsInName_of_program hc' hp hdone hpre hend
  · simp only [hi] at h
    cases h
termination_by c.size

theorem mapM_id_of_forall_ok {xs : List (Except ε α)} (h : ∀ e, .error e ∉ xs) :
    ∃ ys, xs.mapM id = .ok ys := by
  induction xs with
  | nil => exact ⟨[], rfl⟩
  | cons x xs ih =>
    obtain ⟨ys, hys⟩ := ih fun e he => h e (List.mem_cons_of_mem x he)
    cases x with
    | error e => exact absurd (List.mem_cons_self ..) (h e)
    | ok y => exact ⟨y :: ys, by simp [List.mapM_cons, hys]; rfl⟩

/-! ## Errors that are lost -/

/-- Nothing is left for an expression. -/
theorem expression_nil (p : Position) : (expression ⟨none, [], p⟩ : EStateM.Result (Failure ε) _ _) =
    .error (.grammar ⟨.unexpected .expression, ⟨.endOfInput, "", p⟩⟩)
      ⟨some ⟨.endOfInput, "", p⟩, [], p⟩ := by
  have hl : look (⟨some ⟨.endOfInput, "", p⟩, [], p⟩ : Cursor ε) =
      .ok ⟨.endOfInput, "", p⟩ ⟨some ⟨.endOfInput, "", p⟩, [], p⟩ := rfl
  have hprimary : primary (⟨some ⟨.endOfInput, "", p⟩, [], p⟩ : Cursor ε) =
      .error (.grammar ⟨.unexpected .expression, ⟨.endOfInput, "", p⟩⟩)
        ⟨some ⟨.endOfInput, "", p⟩, [], p⟩ := by
    rw [primary_eq, bind_of_ok (take_of_look hl)]
    exact refuse_take .expression hl
  rw [expression_eq]
  apply bind_of_error
  have hl₀ : look (⟨none, [], p⟩ : Cursor ε) =
      .ok ⟨.endOfInput, "", p⟩ ⟨some ⟨.endOfInput, "", p⟩, [], p⟩ := rfl
  rw [unary_eq, bind_of_ok hl₀]
  exact hprimary

/-- An expression that starts with a name. -/
theorem expression_of_name {t : Token} (ht : t.kind = .identifier) (cs : List (Except ε Token))
    (p : Position) :
    expression ⟨some t, cs, p⟩ = (operand .name t >>= operators 0) ⟨none, cs, p⟩ := by
  have ho : t.operator? = none := by simp [Token.operator?, ht]
  have hs : t.operandStart? = some .name := by simp [Token.operandStart?, ht]
  have he : t.isEnd = false := Token.isEnd_of_kind ht (by simp)
  have hl : look (⟨some t, cs, p⟩ : Cursor ε) = .ok t ⟨some t, cs, p⟩ := rfl
  have hprimary : primary (⟨some t, cs, p⟩ : Cursor ε) = operand .name t ⟨none, cs, p⟩ := by
    rw [primary_eq, bind_of_ok (take_of_look hl), hs, he]
    rfl
  have hunary : unary (⟨some t, cs, p⟩ : Cursor ε) = operand .name t ⟨none, cs, p⟩ := by
    rw [unary_eq, bind_of_ok hl, ho]
    exact hprimary
  rw [expression_eq]
  show EStateM.bind unary _ _ = EStateM.bind _ _ _
  simp only [EStateM.bind, hunary]

theorem item_of_name {t : Token} (ht : t.kind = .identifier) (cs : List (Except ε Token))
    (p : Position) :
    item ⟨none, .ok t :: cs, p⟩ =
      ((fun e => some (.evaluate e t.pos)) <$> expression) ⟨some t, cs, p⟩ := by
  have he : t.isEnd = false := Token.isEnd_of_kind ht (by simp)
  have hk (k : Keyword) : t.isKeyword k = false := by simp [Token.isKeyword, Token.keyword?, ht]
  have hl : look (⟨none, .ok t :: cs, p⟩ : Cursor ε) = .ok t ⟨some t, cs, p⟩ := rfl
  have hu : unread t (⟨some t, cs, p⟩ : Cursor ε).skip = .ok () ⟨some t, cs, p⟩ := unread_skip rfl
  rw [item_of_look hl he, if_neg (by simp [ht]), map_itemFrom, itemFrom_eq]
  simp only [hk, Bool.false_eq_true, ↓reduceIte]
  rw [bind_of_ok hu]
  show _ = EStateM.map _ expression _
  simp only [EStateM.map]
  cases h : expression (⟨some t, cs, p⟩ : Cursor ε) with
  | ok e c => rw [bind_of_ok h]; rfl
  | error f c => rw [bind_of_error h]

/-- After a name alone the error is forgotten, and the name is the whole expression. -/
theorem item_name_error {t : Token} (ht : t.kind = .identifier) (e : ε) (p : Position) :
    item ⟨none, [.ok t, .error e], p⟩ =
      .ok (some (.evaluate (.name t.text t.pos) t.pos)) ⟨some ⟨.endOfInput, "", p⟩, [], p⟩ := by
  have hname : operand .name t (⟨none, [.error e], p⟩ : Cursor ε) =
      .ok (.name t.text t.pos) ⟨none, [], p⟩ := by
    rw [operand_eq]
    rfl
  have hl : look (⟨none, [], p⟩ : Cursor ε) =
      .ok ⟨.endOfInput, "", p⟩ ⟨some ⟨.endOfInput, "", p⟩, [], p⟩ := rfl
  have hexpr : expression (⟨some t, [.error e], p⟩ : Cursor ε) =
      .ok (.name t.text t.pos) ⟨some ⟨.endOfInput, "", p⟩, [], p⟩ := by
    rw [expression_of_name ht, bind_of_ok hname, operators_eq, bind_of_ok hl]
    rfl
  rw [item_of_name ht]
  show EStateM.map _ expression _ = _
  simp only [EStateM.map, hexpr]

/-- After a name and a parenthesis the error is forgotten, and an argument is missed. -/
theorem item_paren_error {t l : Token} (ht : t.kind = .identifier) (hl : l.opensParen = true) (e : ε)
    (p : Position) :
    item ⟨none, [.ok t, .ok l, .error e], p⟩ =
      .error (.grammar ⟨.unexpected .expression, ⟨.endOfInput, "", p⟩⟩)
        ⟨some ⟨.endOfInput, "", p⟩, [], p⟩ := by
  have hopen : (⟨none, [.ok l, .error e], p⟩ : Cursor ε).consume Token.opensParen =
      (true, ⟨none, [.error e], p⟩) := by
    simp [Cursor.consume, Cursor.check, Cursor.peek, Cursor.skip, hl]
  have hclose : (⟨none, [.error e], p⟩ : Cursor ε).consume Token.closesParen =
      (false, ⟨none, [], p⟩) := rfl
  have hcall : operand .name t (⟨none, [.ok l, .error e], p⟩ : Cursor ε) =
      .error (.grammar ⟨.unexpected .expression, ⟨.endOfInput, "", p⟩⟩)
        ⟨some ⟨.endOfInput, "", p⟩, [], p⟩ := by
    rw [operand_eq]
    dsimp only
    rw [accept_bind hopen, if_pos rfl, accept_bind hclose]
    apply bind_of_error
    rw [arguments_eq]
    exact bind_of_error (expression_nil p)
  have hexpr : expression (⟨some t, [.ok l, .error e], p⟩ : Cursor ε) =
      .error (.grammar ⟨.unexpected .expression, ⟨.endOfInput, "", p⟩⟩)
        ⟨some ⟨.endOfInput, "", p⟩, [], p⟩ := by
    rw [expression_of_name ht, bind_of_error hcall]
  rw [item_of_name ht]
  show EStateM.map _ expression _ = _
  simp only [EStateM.map, hexpr]

/-- No smaller set of places would do: after such answers an error can be met and not told. -/
theorem exists_forgotten {pre : List (Except ε Token)} (h : EndsInName pre) (e : ε) (p : Position) :
    ∃ tail, tail <:+ pre ∧ (Parse.item (.ofStream ⟨tail ++ [.error e], p⟩)).cursor.coming = [] ∧
      (Parse.item (.ofStream ⟨tail ++ [.error e], p⟩)).result ≠ .error (.stream e) := by
  obtain ⟨t, ht, hlast | ⟨l, hl, hlast⟩⟩ := h
  · obtain ⟨hr, hc⟩ := Parsed.of_outcome_ok (item_name_error ht e p)
    exact ⟨_, hlast, congrArg Cursor.coming hc, fun h => nomatch hr.symm.trans h⟩
  · obtain ⟨hr, hc⟩ := Parsed.of_outcome_error (item_paren_error ht hl e p)
    exact ⟨_, hlast, congrArg Cursor.coming hc, fun h => nomatch hr.symm.trans h⟩

/-! ## All errors -/

/-- No token of a text is the end of input. -/
theorem isEnd_of_mem_ofBytes {bytes : List UInt8} {failure : Option String} {t : Token}
    (h : .ok t ∈ (TokenStream.ofBytes bytes failure).answers) : t.isEnd = false :=
  Token.IsSound.isEnd (TokenStream.isLexed_of_mem_ofBytes h).isSound

/-- An error of the stream that is met in an item is what the item fails with, unless it stands after a
name or after the parenthesis that follows one; there it can be lost. So a program that is read to its
end has no errors at other places, and a text without errors at these places has only tokens if it is a
program. -/
theorem errors_told (s : TokenStream ε) :
    (∀ c, Parse.Visits (.ofStream s) c → ∃ done given, s.answers = done ++ c.coming ∧
      s.answers = given ++ (Parse.item c).cursor.coming ∧ done <+: given ∧
      ∀ pre e, done <+: pre → pre ++ [.error e] <+: given → ¬ EndsInName pre →
        (Parse.item c).result = .error (.stream e)) ∧
    (∀ pre : List (Except ε Token), EndsInName pre → ∀ e ending, ∃ tail, tail <:+ pre ∧
      (Parse.item (.ofStream ⟨tail ++ [.error e], ending⟩)).cursor.coming = [] ∧
      (Parse.item (.ofStream ⟨tail ++ [.error e], ending⟩)).result ≠ .error (.stream e)) ∧
    (∀ items, Parse.program (.ofStream s) = .ok items → ∀ pre e, pre ++ [.error e] <+: s.answers →
      (∀ t, .ok t ∈ pre → t.isEnd = false) → EndsInName pre) ∧
    ∀ bytes failure items, Parse.program (.ofStream (.ofBytes bytes failure)) = .ok items →
      (∀ pre e, pre ++ [.error e] <+: (TokenStream.ofBytes bytes failure).answers →
        ¬ EndsInName pre) →
      ∃ ts, (TokenStream.ofBytes bytes failure).tokens = .ok ts := by
  refine ⟨?_, fun pre hn e ending => exists_forgotten hn e ending, ?_, ?_⟩
  · intro c hc
    obtain ⟨done, hd⟩ := reached_of_visits hc
    obtain ⟨given, hg, hle, htold⟩ := (tells_item hd).parsed
    refine ⟨done, given, hd.place, hg.place, hle, fun pre e hdone hpre hn => ?_⟩
    exact (htold pre e hdone hpre).resolve_right hn
  · intro items h pre e hpre hend
    exact endsInName_of_program (.start rfl (by simp [Cursor.ofStream])) h List.nil_prefix hpre hend
  · intro bytes failure items h hplaces
    apply mapM_id_of_forall_ok
    intro e he
    obtain ⟨pre, post, hall⟩ := List.append_of_mem he
    have hpre : pre ++ [.error e] <+: (TokenStream.ofBytes bytes failure).answers :=
      ⟨post, by simp [hall]⟩
    refine hplaces pre e hpre (endsInName_of_program (.start rfl (by simp [Cursor.ofStream])) h
      List.nil_prefix hpre fun t ht => ?_)
    exact isEnd_of_mem_ofBytes (hpre.subset (List.mem_append_left _ ht))

/-- In the text `def f(x $ y) x` the character that no token has is forgotten: a definition is read,
though not all of the text has tokens. -/
theorem program_hidden_error :
    Parse.program (.ofStream (.ofString "def f(x $ y) x")) =
      .ok [.define ⟨"f", ["x", "y"], ⟨1, 5, 4⟩⟩ (.name "x" ⟨1, 14, 13⟩) ⟨1, 1, 0⟩] ∧
    (TokenStream.ofString "def f(x $ y) x").tokens =
      .error (.lexical ⟨.unrecognized, "$", ⟨1, 9, 8⟩⟩) :=
  ⟨by with_unfolding_all rfl, by with_unfolding_all rfl⟩

end Reading

end ScalarLang
