import ScalarLang.Proofs.Recovery
import ScalarLang.Proofs.StreamErrors
/-!
# A parser that puts tokens back

Whatever calls are made on whatever stream, there is room for each token that is put back, and the end of
input, once it is met, is never lost (`calls_ofStream`).

An action is *careful* at a cursor if it keeps the end of input, never overfills the lookahead and sees
no answers but those that it takes from the stream. Every move of the grammar functions is careful where
they make it, so they all are. Since nothing is seen of what follows, what holds of streams that stop
holds of streams that go on for ever, as far as they have been read.
-/
namespace ScalarLang

variable {ε α β : Type}

/-! ## What a cursor comes to -/

namespace Cursor

/-- The end of input has been met, and is held. -/
def Ended (c : Cursor ε) : Prop := ∃ t, c.lookahead = some t ∧ t.isEnd = true

/-- From `c` to `c'` the stream has given some answers. An end of input among them, or one that was held
before, is held. -/
def Onto (c c' : Cursor ε) : Prop :=
  ∃ given, c.coming = given ++ c'.coming ∧
    (c.Ended ∨ (∃ t, .ok t ∈ given ∧ t.isEnd = true) → c'.Ended)

namespace Onto

variable {c c' c'' : Cursor ε}

theorem of_coming (hcoming : c.coming = c'.coming) (hkept : c.Ended → c'.Ended) : c.Onto c' := by
  refine ⟨[], hcoming, ?_⟩
  rintro (h | ⟨t, ht, -⟩)
  · exact hkept h
  · cases ht

theorem refl (c : Cursor ε) : c.Onto c := of_coming rfl id

theorem trans (h : c.Onto c') (h' : c'.Onto c'') : c.Onto c'' := by
  obtain ⟨given, hgiven, hkept⟩ := h
  obtain ⟨more, hmore, hkept'⟩ := h'
  refine ⟨given ++ more, by rw [hgiven, hmore, List.append_assoc], ?_⟩
  rintro (he | ⟨t, ht, he⟩)
  · exact hkept' (.inl (hkept (.inl he)))
  · rcases List.mem_append.1 ht with ht | ht
    · exact hkept' (.inl (hkept (.inr ⟨t, ht, he⟩)))
    · exact hkept' (.inr ⟨t, ht, he⟩)

theorem coming_ne_nil (h : c.Onto c') (hne : c'.coming ≠ []) : c.coming ≠ [] := by
  obtain ⟨given, hgiven, -⟩ := h
  rw [hgiven]
  exact List.append_ne_nil_of_right_ne_nil given hne

/-- A token can be given up if it is not the end. -/
theorem skip {t : Token} (hl : c.lookahead = some t) (ht : t.isEnd = false) : c.Onto c.skip := by
  refine of_coming rfl ?_
  rintro ⟨u, hu, he⟩
  rw [hl] at hu
  cases hu
  rw [ht] at he
  cases he

/-- Anything can be put back where nothing is held. -/
theorem of_skip (c : Cursor ε) : c.skip.Onto c := by
  refine of_coming rfl ?_
  rintro ⟨t, ht, -⟩
  cases ht

end Onto

theorem followed_ite (b : Bool) (c : Cursor ε) (more : List (Except ε Token)) (ending : Position) :
    (if b then c else c.skip).followed more ending =
      if b then c.followed more ending else (c.followed more ending).skip := by
  cases b <;> rfl

theorem coming_ite (b : Bool) (c : Cursor ε) : (if b then c else c.skip).coming = c.coming := by
  cases b <;> rfl

/-- A look shows a token, which is held from then on, or an error. It depends on what follows the stream
only if the stream has run out. -/
theorem look_cases (c : Cursor ε) :
    (∃ t c', Reading.look c = .ok t c' ∧ c'.lookahead = some t ∧ c.Onto c' ∧ (c'.coming ≠ [] →
      ∀ more ending, Reading.look (c.followed more ending) = .ok t (c'.followed more ending))) ∨
    ∃ e c', c.peek = (.error e, c') ∧ c.Onto c' ∧
      ∀ more ending, (c.followed more ending).peek = (.error e, c'.followed more ending) := by
  obtain ⟨l, cs, p⟩ := c
  rcases l with _ | t
  · rcases cs with _ | ⟨e | t, cs⟩
    -- the stream has run out: only here would it be seen what follows
    · refine .inl ⟨_, _, rfl, rfl, .of_coming rfl fun _ => ⟨_, rfl, rfl⟩, ?_⟩
      intro hne
      exact absurd rfl hne
    · refine .inr ⟨e, ⟨none, cs, p⟩, rfl, ⟨[.error e], rfl, ?_⟩, fun _ _ => rfl⟩
      rintro (⟨t, ht, -⟩ | ⟨t, ht, -⟩)
      · cases ht
      · simp at ht
    · refine .inl ⟨t, ⟨some t, cs, p⟩, rfl, rfl, ⟨[.ok t], rfl, ?_⟩, fun _ _ _ => rfl⟩
      rintro (⟨u, hu, -⟩ | ⟨u, hu, he⟩)
      · cases hu
      · cases List.mem_singleton.1 hu
        exact ⟨t, rfl, he⟩
  · exact .inl ⟨t, _, rfl, rfl, .refl _, fun _ _ _ => rfl⟩

end Cursor

/-! ## Careful actions -/

namespace Reading

variable {c c' : Cursor ε}

/-- An action that keeps the end of input and never overfills the lookahead. If it leaves answers of the
stream, it goes the same way whatever follows them. -/
inductive Careful (x : Reading ε α) (c : Cursor ε) : Prop
  | ok {a : α} {c' : Cursor ε} (h : x c = .ok a c') (honto : c.Onto c')
      (hmore : c'.coming ≠ [] →
        ∀ more ending, x (c.followed more ending) = .ok a (c'.followed more ending))
  | error {f : Failure ε} {c' : Cursor ε} (h : x c = .error f c') (hf : f ≠ .overfull) (honto : c.Onto c')
      (hmore : c'.coming ≠ [] →
        ∀ more ending, x (c.followed more ending) = .error f (c'.followed more ending))

namespace Careful

theorem pure (a : α) (c : Cursor ε) : Careful (Pure.pure a) c := .ok rfl (.refl c) fun _ _ _ => rfl

theorem throw (e : ParseError) (c : Cursor ε) : Careful (throw (.grammar e) : Reading ε α) c :=
  .error rfl (by simp) (.refl c) fun _ _ _ => rfl

/-- A step to another cursor, and a careful action there. -/
theorem of_step {x y : Reading ε α} (h : x c = y c') (honto : c.Onto c')
    (hmore : c'.coming ≠ [] → ∀ more ending, x (c.followed more ending) = y (c'.followed more ending))
    (hy : Careful y c') : Careful x c := by
  cases hy with
  | ok hy honto' hymore =>
    refine .ok (h.trans hy) (honto.trans honto') fun hne more ending => ?_
    rw [hmore (honto'.coming_ne_nil hne), hymore hne]
  | error hy hf honto' hymore =>
    refine .error (h.trans hy) hf (honto.trans honto') fun hne more ending => ?_
    rw [hmore (honto'.coming_ne_nil hne), hymore hne]

theorem bind {x : Reading ε α} {f : α → Reading ε β} (hx : Careful x c)
    (hf : ∀ a c', x c = .ok a c' → Careful (f a) c') : Careful (x >>= f) c := by
  cases hx with
  | ok h honto hmore =>
    refine .of_step (bind_of_ok h) honto (fun hne more ending => ?_) (hf _ _ h)
    exact bind_of_ok (hmore hne more ending)
  | error h hover honto hmore =>
    refine .error (bind_of_error h) hover honto fun hne more ending => ?_
    exact bind_of_error (hmore hne more ending)

theorem map {x : Reading ε α} (g : α → β) (hx : Careful x c) :
    Careful (do let a ← x; Pure.pure (g a)) c := hx.bind fun a c' _ => .pure (g a) c'

/-- A look fails with an error of the stream only. -/
theorem of_peek_error {x : Reading ε α} {e : ε}
    (hx : ∀ {d d' : Cursor ε}, d.peek = (.error e, d') → x d = .error (.stream e) d')
    (hpeek : c.peek = (.error e, c')) (honto : c.Onto c')
    (hmore : ∀ more ending, (c.followed more ending).peek = (.error e, c'.followed more ending)) :
    Careful x c :=
  .error (hx hpeek) (by simp) honto fun _ more ending => hx (hmore more ending)

theorem look {f : Token → Reading ε α}
    (hf : ∀ t c', Reading.look c = .ok t c' → c'.lookahead = some t → Careful (f t) c') :
    Careful (Reading.look >>= f) c := by
  rcases c.look_cases with ⟨t, c', hl, ht, honto, hmore⟩ | ⟨e, c', hpeek, honto, hmore⟩
  · exact .of_step (bind_of_ok hl) honto (fun hne more ending => bind_of_ok (hmore hne more ending))
      (hf t c' hl ht)
  · exact .of_peek_error (fun h => bind_of_error (look_of_peek_error h)) hpeek honto hmore

theorem skip {f : Unit → Reading ε α} {t : Token} (hl : c.lookahead = some t) (ht : t.isEnd = false)
    (hf : Careful (f ()) c.skip) : Careful (Reading.skip >>= f) c :=
  .of_step (y := f ()) rfl (.skip hl ht) (fun _ _ _ => rfl) hf

/-- A token that was taken, and is a boundary, is put back where it was looked at. -/
theorem refuse {t : Token} (wanted : Expectation) (hl : Reading.look c = .ok t c') :
    Careful (Reading.refuse wanted t : Reading ε α) (if t.isEnd then c' else c'.skip) := by
  have ht := Cursor.lookahead_peek (peek_of_look hl)
  have hmore (d : Cursor ε) (hd : d.lookahead = some t) :=
    refuse_take (α := α) wanted (look_of_lookahead hd)
  refine .error (hmore c' ht) (by simp) ?_ ?_
  -- what is put back is held where nothing was, or is the end of input that stayed
  · cases hb : t.isBoundary with
    | false =>
      rw [Parse.isEnd_of_isBoundary hb]
      exact .refl _
    | true =>
      cases t.isEnd with
      | false => exact .of_skip c'
      | true => exact .refl c'
  · intro _ more ending
    rw [Cursor.followed_ite, Cursor.followed_ite]
    exact hmore (c'.followed more ending) ht

theorem take {f : Token → Reading ε α}
    (hf : ∀ t c', Reading.take c = .ok t c' →
      (∀ wanted, Careful (Reading.refuse wanted t : Reading ε α) c') → Careful (f t) c') :
    Careful (Reading.take >>= f) c := by
  rcases c.look_cases with ⟨t, c', hl, ht, honto, hmore⟩ | ⟨e, c', hpeek, honto, hmore⟩
  · have hf' := hf t _ (take_of_look hl) fun wanted => .refuse wanted hl
    refine .of_step (bind_of_ok (take_of_look hl)) ?_ ?_ hf'
    · cases he : t.isEnd with
      | false => exact honto.trans (.skip ht he)
      | true => exact honto
    · intro hne more ending
      rw [Cursor.coming_ite] at hne
      rw [bind_of_ok (take_of_look (hmore hne more ending)), Cursor.followed_ite]
  · exact .of_peek_error (fun h => bind_of_error (take_of_look_error (look_of_peek_error h)))
      hpeek honto hmore

/-- No end of input is taken for another token. -/
theorem accept {p : Token → Bool} {f : Bool → Reading ε α} (hp : ∀ t, p t = true → t.isEnd = false)
    (hf : ∀ b c', Reading.accept p c = .ok b c' → Careful (f b) c') :
    Careful (Reading.accept p >>= f) c := by
  rcases c.look_cases with ⟨t, c', hl, ht, honto, hmore⟩ | ⟨e, c', hpeek, honto, hmore⟩
  · cases hpt : p t with
    | true =>
      have hyes := accept_of_look_true hl hpt
      refine .of_step (bind_of_ok hyes) (honto.trans (.skip ht (hp t hpt))) ?_ (hf true _ hyes)
      intro hne more ending
      exact bind_of_ok (accept_of_look_true (hmore hne more ending) hpt)
    | false =>
      have hno := accept_of_look_false hl hpt
      refine .of_step (bind_of_ok hno) honto ?_ (hf false _ hno)
      intro hne more ending
      exact bind_of_ok (accept_of_look_false (hmore hne more ending) hpt)
  -- an error is passed over, and the action goes on
  · have hno := accept_of_peek_error (p := p) hpeek
    refine .of_step (bind_of_ok hno) honto ?_ (hf false _ hno)
    intro _ more ending
    exact bind_of_ok (accept_of_peek_error (hmore more ending))

end Careful

/-! ## Expressions -/

mutual

theorem careful_expression (c : Cursor ε) : Careful expression c := by
  rw [expression_eq]
  refine (careful_unary c).bind fun lhs c₁ h₁ => ?_
  have := Parsed.size_of_outcome h₁
  exact careful_operators 0 lhs c₁
termination_by 5 * c.size + 2

theorem careful_operators (least : Int) (lhs : Expr) (c : Cursor ε) :
    Careful (operators least lhs) c := by
  rw [operators_eq]
  refine .look fun t c₁ h₁ hl => ?_
  cases ho : t.operator? with
  | none => exact .pure lhs c₁
  | some op =>
    have he := Token.isEnd_of_operator? ho
    have hlt := size_skip_look_lt h₁ he
    simp only
    cases op.precedence? with
    | none => exact .throw _ c₁
    | some prec =>
      simp only
      split
      · exact .pure lhs c₁
      · refine .skip hl he ?_
        refine (careful_unary c₁.skip).bind fun rhs c₃ h₃ => ?_
        have hle₃ := Parsed.size_of_outcome h₃
        refine .look fun ahead c₄ h₄ _ => ?_
        have hle₄ := size_look_le h₄
        cases prec.rightLevel? ahead with
        | none => exact careful_operators least _ c₄
        | some level =>
          refine (careful_operators level rhs c₄).bind fun rhs c₅ h₅ => ?_
          have hle₅ := Parsed.size_of_outcome h₅
          exact careful_operators least _ c₅
termination_by 5 * c.size

theorem careful_unary (c : Cursor ε) : Careful unary c := by
  rw [unary_eq]
  refine .look fun t c₁ h₁ hl => ?_
  cases ho : t.operator? with
  | none =>
    have := size_look_le h₁
    exact careful_primary c₁
  | some op =>
    have he := Token.isEnd_of_operator? ho
    have hlt := size_skip_look_lt h₁ he
    simp only
    split
    · exact .skip hl he ((careful_unary c₁.skip).map _)
    · exact .throw _ c₁
termination_by 5 * c.size + 1

theorem careful_primary (c : Cursor ε) : Careful primary c := by
  rw [primary_eq]
  refine .take fun t c₁ h₁ hrefuse => ?_
  cases ho : t.operandStart? with
  | none => exact hrefuse .expression
  | some start =>
    have hlt := size_take_lt h₁ (Token.isEnd_of_operandStart? ho)
    exact careful_operand start t c₁
termination_by 5 * c.size

theorem careful_operand (start : Token.OperandStart) (t : Token) (c : Cursor ε) :
    Careful (operand start t) c := by
  rw [operand_eq]
  cases start with
  | integer =>
    simp only
    cases Numeral.int64? t.text with
    | none => exact .throw _ c
    | some v => exact .pure _ c
  | float =>
    simp only
    cases Numeral.binary64? t.text with
    | none => exact .throw _ c
    | some v => exact .pure _ c
  | name =>
    refine .accept (fun _ => Token.isEnd_of_opensParen) fun b c₁ h₁ => ?_
    have hle₁ := size_accept_le h₁
    cases b with
    | false => exact .pure _ c₁
    | true =>
      refine .accept (fun _ => Token.isEnd_of_closesParen) fun b c₂ h₂ => ?_
      have hle₂ := size_accept_le h₂
      cases b with
      | true => exact .pure _ c₂
      | false => exact (careful_arguments c₂).map _
  | paren =>
    refine (careful_expression c).bind fun e c₁ _ => ?_
    refine .take fun u c₂ _ hrefuse => ?_
    split
    · exact .pure e c₂
    · exact hrefuse .closeParen
  | binding => exact careful_bindings c
termination_by 5 * c.size + 4

theorem careful_arguments (c : Cursor ε) : Careful arguments c := by
  rw [arguments_eq]
  refine (careful_expression c).bind fun e c₁ h₁ => ?_
  have hle₁ := Parsed.size_of_outcome h₁
  refine .take fun u c₂ h₂ hrefuse => ?_
  split
  · exact .pure _ c₂
  · split
    · rename_i hcomma
      have hlt := size_take_lt h₂ (Token.isEnd_of_isComma hcomma)
      exact (careful_arguments c₂).map _
    · exact hrefuse .commaOrClose
termination_by 5 * c.size + 3

theorem careful_bindings (c : Cursor ε) : Careful bindings c := by
  rw [bindings_eq]
  refine .take fun t c₁ h₁ hrefuse => ?_
  split
  · rename_i hk
    have hlt := size_take_lt h₁ (Token.isEnd_of_kind hk (by simp))
    refine .look fun u c₂ h₂ hl => ?_
    have hle₂ := size_look_le h₂
    split
    · rename_i ho
      have hle₃ := c₂.size_skip_le
      refine .skip hl (Token.isEnd_of_operator? ho) ?_
      refine (careful_expression c₂.skip).bind fun init c₄ h₄ => ?_
      have hle₄ := Parsed.size_of_outcome h₄
      exact careful_afterBinding t init c₄
    · exact careful_afterBinding t _ c₂
  · exact hrefuse .variableName
termination_by 5 * c.size + 2

theorem careful_afterBinding (t : Token) (init : Expr) (c : Cursor ε) :
    Careful (afterBinding t init) c := by
  rw [afterBinding_eq]
  refine .accept (fun _ => Token.isEnd_of_isComma) fun b c₁ h₁ => ?_
  have hle₁ := size_accept_le h₁
  cases b with
  | true => exact (careful_bindings c₁).map _
  | false =>
    refine .take fun u c₂ h₂ hrefuse => ?_
    split
    · rename_i hin
      have hlt := size_take_lt h₂ (Token.isEnd_of_isKeyword hin)
      exact (careful_expression c₂).map _
    · exact hrefuse .within
termination_by 5 * c.size + 3

end

/-! ## Items -/

theorem careful_parameters (afterComma : Bool) (c : Cursor ε) : Careful (parameters afterComma) c := by
  rw [parameters_eq]
  refine .take fun t c₁ h₁ hrefuse => ?_
  split
  · rename_i hk
    have hlt := size_take_lt h₁ (Token.isEnd_of_kind hk (by simp))
    refine .accept (fun _ => Token.isEnd_of_isComma) fun comma c₂ h₂ => ?_
    have hle₂ := size_accept_le h₂
    exact (careful_parameters comma c₂).map _
  · split
    · exact .pure _ c₁
    · exact hrefuse _
termination_by c.size

theorem careful_prototype (c : Cursor ε) : Careful prototype c := by
  rw [prototype_eq]
  refine .take fun t c₁ _ hrefuse => ?_
  split
  · refine .take fun u c₂ _ hrefuse' => ?_
    split
    · exact (careful_parameters false c₂).map _
    · exact hrefuse' _
  · exact hrefuse _

/-- The first token of an item was taken, so that there is room for it. -/
theorem careful_itemFrom {t : Token} (hl : c.lookahead = some t) : Careful (itemFrom t) c.skip := by
  rw [itemFrom_eq]
  split
  · refine (careful_prototype c.skip).bind fun proto c₁ _ => ?_
    exact (careful_expression c₁).map _
  · split
    · exact (careful_prototype c.skip).map _
    · refine .of_step (bind_of_ok (unread_skip hl)) (.of_skip c) ?_ ((careful_expression c).map _)
      intro _ more ending
      exact bind_of_ok (unread_skip (c := c.followed more ending) hl)

theorem careful_item (c : Cursor ε) : Careful item c := by
  rcases c.look_cases with ⟨t, c', hl, ht, honto, hmore⟩ | ⟨e, c', hpeek, honto, hmore⟩
  · cases he : t.isEnd with
    | true =>
      refine .ok (item_of_look_end hl he) honto fun hne more ending => ?_
      exact item_of_look_end (hmore hne more ending) he
    | false =>
      have hlt := size_skip_look_lt hl he
      have honto' := honto.trans (.skip ht he)
      by_cases hsemi : t.kind = .semicolon
      · refine .of_step ((item_of_look hl he).trans (if_pos hsemi)) honto' ?_ (careful_item c'.skip)
        intro hne more ending
        exact (item_of_look (hmore hne more ending) he).trans (if_pos hsemi)
      · refine .of_step ((item_of_look hl he).trans (if_neg hsemi)) honto' ?_
          ((careful_itemFrom ht).map some)
        intro hne more ending
        exact (item_of_look (hmore hne more ending) he).trans (if_neg hsemi)
  · exact .of_peek_error (fun h => item_of_look_error (look_of_peek_error h)) hpeek honto hmore
termination_by c.size

/-- Synchronizing as an action, which never fails. -/
def synchronizing : Reading ε Unit := fun c => .ok () (Parse.synchronize c)

theorem synchronizing_of_look {t : Token} (h : look c = .ok t c') : synchronizing c =
    if t.isEnd || t.isKeyword .define || t.isKeyword .external then .ok () c'
    else if t.kind = .semicolon then .ok () c'.skip
    else synchronizing c'.skip := by
  unfold synchronizing
  rw [synchronize_eq, h]
  simp only
  split
  · rfl
  · split <;> rfl

theorem synchronizing_of_peek_error {e : ε} (h : c.peek = (.error e, c')) :
    synchronizing c = synchronizing c' := by
  unfold synchronizing
  rw [synchronize_eq, look_of_peek_error h]

theorem careful_synchronizing (c : Cursor ε) : Careful synchronizing c := by
  rcases c.look_cases with ⟨t, c', hl, ht, honto, hmore⟩ | ⟨e, c', hpeek, honto, hmore⟩
  · have hsync := synchronizing_of_look hl
    have hsync' (hne : c'.coming ≠ []) (more : List (Except ε Token)) (ending : Position) :=
      synchronizing_of_look (hmore hne more ending)
    cases hstop : t.isEnd || t.isKeyword .define || t.isKeyword .external with
    | true =>
      rw [hstop, if_pos rfl] at hsync
      refine .ok hsync honto fun hne more ending => ?_
      rw [hsync' hne, hstop, if_pos rfl]
    | false =>
      have he : t.isEnd = false := (Bool.or_eq_false_iff.1 (Bool.or_eq_false_iff.1 hstop).1).1
      have honto' := honto.trans (.skip ht he)
      have hlt := size_skip_look_lt hl he
      rw [hstop, if_neg (by simp)] at hsync
      by_cases hsemi : t.kind = .semicolon
      · rw [if_pos hsemi] at hsync
        refine .ok hsync honto' fun hne more ending => ?_
        rw [hsync' hne, hstop, if_neg (by simp), if_pos hsemi]
        rfl
      · rw [if_neg hsemi] at hsync
        refine .of_step hsync honto' (fun hne more ending => ?_) (careful_synchronizing c'.skip)
        rw [hsync' hne, hstop, if_neg (by simp), if_neg hsemi]
        rfl
  · have hlt := Cursor.size_peek_error_lt hpeek
    refine .of_step (synchronizing_of_peek_error hpeek) honto ?_ (careful_synchronizing c')
    intro _ more ending
    exact synchronizing_of_peek_error (hmore more ending)
termination_by c.size

/-! ## The end of a stream -/

/-- The second stream answers with the end of input some times where the first one stops. -/
def Padded (c d : Cursor ε) : Prop :=
  ∃ n, d = c.followed (List.replicate n (.ok ⟨.endOfInput, "", c.ending⟩)) c.ending

theorem Padded.skip {c d : Cursor ε} (h : Padded c d) : Padded c.skip d.skip := by
  obtain ⟨n, rfl⟩ := h
  exact ⟨n, rfl⟩

/-- A stream that stops reads like one that answers with the end of input for ever. -/
theorem aligned_padded : Aligned Padded Eq Eq (Eq : Failure ε → Failure ε → Prop) := by
  refine (Lockstep.of_eq ?_ fun _ => rfl).aligned Padded.skip
  rintro c d hpadded
  obtain ⟨n, rfl⟩ := hpadded
  obtain ⟨l, cs, p⟩ := c
  rcases l with _ | t
  · rcases cs with _ | ⟨e | t, cs⟩
    -- one stream stops where the other has answers left, and both show the same token
    · cases n with
      | zero => exact .token rfl ⟨0, rfl⟩ fun _ => ⟨0, rfl⟩
      | succ n => exact .token rfl ⟨n, rfl⟩ fun _ => ⟨n, rfl⟩
    · exact .error rfl ⟨n, rfl⟩
    · exact .token rfl ⟨n, rfl⟩ fun _ => ⟨n, rfl⟩
  · exact .token rfl ⟨n, rfl⟩ fun _ => ⟨n, rfl⟩

theorem Alike.result_eq {R : Cursor ε → Cursor ε → Prop} {m n : Nat} {p : Parsed ε (Option Item) m}
    {q : Parsed ε (Option Item) n} (h : Alike R Eq (Option.Rel (Items Eq Eq)) p.outcome q.outcome) :
    p.result = q.result := by
  cases hp : p.result with
  | ok a =>
    obtain ⟨b, hq, hab⟩ := h.result hp
    rw [hq]
    cases hab with
    | none => rfl
    | some hij => rw [hij.eq_of_eq]
  | error f =>
    have hout : p.outcome = .error f p.cursor := by rw [Parsed.outcome, hp]
    rw [hout] at h
    obtain ⟨g, d, hq, rfl, -⟩ := h.of_error
    exact (Parsed.of_outcome_error hq).1.symm

end Reading

/-! ## Calls -/

namespace Parse

/-- What a parser can be asked. -/
inductive Call where
  | item
  | synchronize
  deriving DecidableEq

/-- The cursor after some calls. -/
def after (c : Cursor ε) : List Call → Cursor ε
  | [] => c
  | .item :: calls => after (item c).cursor calls
  | .synchronize :: calls => after (synchronize c) calls

/-- What the calls for items among some calls answer. -/
def answers (c : Cursor ε) : List Call → List (Except (Failure ε) (Option Item))
  | [] => []
  | .item :: calls => (item c).result :: answers (item c).cursor calls
  | .synchronize :: calls => answers (synchronize c) calls

theorem careful_item (c : Cursor ε) :
    (item c).result ≠ .error .overfull ∧ c.Onto (item c).cursor ∧
      ((item c).cursor.coming ≠ [] → ∀ more ending,
        (item (c.followed more ending)).result = (item c).result ∧
        (item (c.followed more ending)).cursor = (item c).cursor.followed more ending) := by
  cases Reading.careful_item c with
  | ok h honto hmore =>
    obtain ⟨hr, rfl⟩ := Parsed.of_outcome_ok h
    refine ⟨by simp [hr], honto, fun hne more ending => ?_⟩
    rw [hr]
    exact Parsed.of_outcome_ok (hmore hne more ending)
  | error h hf honto hmore =>
    obtain ⟨hr, rfl⟩ := Parsed.of_outcome_error h
    refine ⟨by simp [hr, hf], honto, fun hne more ending => ?_⟩
    rw [hr]
    exact Parsed.of_outcome_error (hmore hne more ending)

theorem careful_synchronize (c : Cursor ε) :
    c.Onto (synchronize c) ∧ ((synchronize c).coming ≠ [] → ∀ more ending,
      synchronize (c.followed more ending) = (synchronize c).followed more ending) := by
  cases Reading.careful_synchronizing c with
  | ok h honto hmore =>
    cases h
    exact ⟨honto, fun hne more ending => (EStateM.Result.ok.inj (hmore hne more ending)).2⟩
  | error h => cases h

theorem onto_after (c : Cursor ε) (calls : List Call) : c.Onto (after c calls) := by
  induction calls generalizing c with
  | nil => exact .refl c
  | cons call calls ih =>
    cases call with
    | item => exact (careful_item c).2.1.trans (ih _)
    | synchronize => exact (careful_synchronize c).1.trans (ih _)

theorem overfull_notMem_answers (c : Cursor ε) (calls : List Call) :
    .error .overfull ∉ answers c calls := by
  induction calls generalizing c with
  | nil => exact List.not_mem_nil
  | cons call calls ih =>
    cases call with
    | item =>
      rw [answers, List.mem_cons, not_or]
      exact ⟨(careful_item c).1.symm, ih _⟩
    | synchronize => exact ih _

/-- Calls that leave answers of the stream do not depend on what follows. -/
theorem after_followed {c : Cursor ε} {calls : List Call} (hne : (after c calls).coming ≠ [])
    (more : List (Except ε Token)) (ending : Position) :
    answers (c.followed more ending) calls = answers c calls ∧
      after (c.followed more ending) calls = (after c calls).followed more ending := by
  induction calls generalizing c with
  | nil => exact ⟨rfl, rfl⟩
  | cons call calls ih =>
    cases call with
    | item =>
      obtain ⟨hresult, hcursor⟩ :=
        (careful_item c).2.2 ((onto_after _ calls).coming_ne_nil hne) more ending
      obtain ⟨hanswers, hafter⟩ := ih hne
      simp only [answers, after, hresult, hcursor]
      exact ⟨by rw [hanswers], hafter⟩
    | synchronize =>
      have hsync := (careful_synchronize c).2 ((onto_after _ calls).coming_ne_nil hne) more ending
      simp only [answers, after, hsync]
      exact ih hne

theorem answers_of_ended {c : Cursor ε} (h : c.Ended) (calls : List Call) :
    ∀ answer ∈ answers c calls, answer = .ok none := by
  obtain ⟨t, ht, he⟩ := h
  have hlook := Reading.look_of_lookahead ht
  obtain ⟨hresult, hcursor⟩ := Parsed.of_outcome_ok (Reading.item_of_look_end hlook he)
  have hsync : synchronize c = c := by rw [Reading.synchronize_eq, hlook]; simp [he]
  induction calls with
  | nil => simp [answers]
  | cons call calls ih =>
    cases call with
    | item =>
      rw [answers, hresult, hcursor, List.forall_mem_cons]
      exact ⟨rfl, ih⟩
    | synchronize =>
      rw [answers, hsync]
      exact ih

theorem answers_of_padded {c d : Cursor ε} (h : Reading.Padded c d) (calls : List Call) :
    answers d calls = answers c calls := by
  induction calls generalizing c d with
  | nil => rfl
  | cons call calls ih =>
    cases call with
    | item =>
      have halike := Reading.aligned_padded.alike_item h
      rw [answers, answers, ih halike.cursor, halike.result_eq]
    | synchronize => exact ih (Reading.aligned_padded.related_synchronize h)

/-- Whatever a stream answers, and whatever calls are made in whatever order: no token is put back where
another one is held, and if the end of input is among the answers given so far, or is held, every later call
for an item finds it. Calls that leave some answers of the stream go the same way whatever follows these, so
all this holds of streams without an end too; and a stream that stops is one that goes on with ends of
input. -/
theorem calls_ofStream (s : TokenStream ε) (calls : List Call) :
    .error .overfull ∉ answers (.ofStream s) calls ∧
    (∃ given, s.answers = given ++ (after (.ofStream s) calls).coming ∧
      ∀ t, t.isEnd = true → .ok t ∈ given ∨ (after (.ofStream s) calls).lookahead = some t →
        ∀ later, ∀ answer ∈ answers (after (.ofStream s) calls) later, answer = .ok none) ∧
    ((after (.ofStream s) calls).coming ≠ [] → ∀ more ending,
      answers (.ofStream ⟨s.answers ++ more, ending⟩) calls = answers (.ofStream s) calls ∧
      after (.ofStream ⟨s.answers ++ more, ending⟩) calls =
        (after (.ofStream s) calls).followed more ending) ∧
    ∀ n, answers (.ofStream ⟨s.answers ++ List.replicate n (.ok ⟨.endOfInput, "", s.ending⟩), s.ending⟩)
      calls = answers (.ofStream s) calls := by
  refine ⟨overfull_notMem_answers _ calls, ?_, fun hne more ending => after_followed hne more ending, ?_⟩
  · obtain ⟨given, hgiven, hkept⟩ := onto_after (.ofStream s) calls
    refine ⟨given, hgiven, fun t he hmet later => answers_of_ended ?_ later⟩
    rcases hmet with hmem | hheld
    · exact hkept (.inr ⟨t, hmem, he⟩)
    · exact ⟨t, hheld, he⟩
  · intro n
    exact answers_of_padded (c := .ofStream s) ⟨n, rfl⟩ calls

/-- A name, an end of input that is not the end of the stream, and a semicolon. -/
def early : TokenStream String :=
  ⟨[.ok ⟨.identifier, "x", .start⟩, .ok ⟨.endOfInput, "", .start⟩,
    .ok ⟨.semicolon, ";", .start⟩], .start⟩

/-- The end is met while the name is read, and what comes after it is never asked for. -/
theorem calls_ofStream_early :
    answers (.ofStream early) [.item] = [.ok (some (.evaluate (.name "x" .start) .start))] ∧
    (after (.ofStream early) [.item]).coming = [.ok ⟨.semicolon, ";", .start⟩] ∧
    (∀ later, ∀ answer ∈ answers (after (.ofStream early) [.item]) later, answer = .ok none) ∧
    ∀ more ending, answers (.ofStream ⟨early.answers ++ more, ending⟩) [.item] =
      answers (.ofStream early) [.item] := by
  have hcoming : (after (.ofStream early) [.item]).coming = [.ok ⟨.semicolon, ";", .start⟩] := by
    with_unfolding_all rfl
  obtain ⟨-, ⟨given, hgiven, hended⟩, hmore, -⟩ := calls_ofStream early [.item]
  rw [hcoming] at hgiven
  have hall : early.answers = [.ok ⟨.identifier, "x", .start⟩, .ok ⟨.endOfInput, "", .start⟩] ++
      [.ok ⟨.semicolon, ";", .start⟩] := rfl
  have hfront := List.append_cancel_right (hgiven.symm.trans hall)
  refine ⟨by with_unfolding_all rfl, hcoming, ?_, fun more ending => ?_⟩
  · exact hended ⟨.endOfInput, "", .start⟩ (by decide) (.inl (by rw [hfront]; simp))
  · exact (hmore (by rw [hcoming]; simp) more ending).1

end Parse

end ScalarLang
