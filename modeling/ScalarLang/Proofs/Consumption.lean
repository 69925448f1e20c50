import ScalarLang.Proofs.Grammar
import ScalarLang.Proofs.Lexing
import ScalarLang.Proofs.Reading
/-!
# Reading a list of sound tokens without errors

`Cursor.Reads` gives the tokens that a cursor still has before the end of input. Two judgements go with
it: an action *succeeds* and leaves a given rest, or it *yields* only what some construct derives. Each
has a rule for every move of the cursor.
-/
namespace ScalarLang

variable {ε α β : Type}

/-- The first token of a list before the end of input. -/
def Ahead (t : Token) : List Token → Prop
  | [] => t.isEnd = true
  | u :: _ => t = u

theorem Token.IsSound.isEnd {t : Token} (h : t.IsSound) : t.isEnd = false := by
  cases hk : t.kind <;> simp_all [Token.IsSound, Token.isEnd]

/-- A closing parenthesis closes an opening one. -/
theorem Token.closes_of_opensParen {t u : Token} (hu : u.closesParen = true)
    (ht : t.opensParen = true) : u.closes t = true := by
  have hright : u.bracket? = some ⟨.round, .right⟩ := of_decide_eq_true hu
  have hleft : t.bracket? = some ⟨.round, .left⟩ := of_decide_eq_true ht
  simp [closes, hright, hleft, Bracket.closes]

/-- The cursor gives these tokens, all of them sound, and then the end of input. -/
inductive Cursor.Reads : Cursor ε → List Token → Prop
  | fresh {ts : List Token} {ending : Position} (h : ∀ t ∈ ts, t.IsSound) :
      Reads ⟨none, ts.map .ok, ending⟩ ts
  | held {t : Token} {ts : List Token} {ending : Position} (h : ∀ u ∈ t :: ts, u.IsSound) :
      Reads ⟨some t, ts.map .ok, ending⟩ (t :: ts)
  | ended {t : Token} {ending : Position} (h : t.isEnd = true) : Reads ⟨some t, [], ending⟩ []

namespace Cursor.Reads

theorem isSound {c : Cursor ε} {ts : List Token} (h : c.Reads ts) : ∀ t ∈ ts, t.IsSound := by
  cases h with
  | fresh h => exact h
  | held h => exact h
  | ended h => simp

theorem isEnd {c : Cursor ε} {t : Token} {ts : List Token} (h : c.Reads (t :: ts)) :
    t.isEnd = false :=
  (h.isSound t (by simp)).isEnd

/-- A look shows the first token, and giving it up leaves the others. -/
theorem look {c : Cursor ε} {ts : List Token} (h : c.Reads ts) :
    ∃ t c', Reading.look c = .ok t c' ∧ Ahead t ts ∧ c'.Reads ts ∧
      (t.isEnd = false → c'.skip.Reads ts.tail) := by
  cases h with
  | @fresh ts ending h =>
    cases ts with
    | nil => exact ⟨_, _, rfl, rfl, .ended rfl, by simp [Token.isEnd]⟩
    | cons t ts => exact ⟨t, _, rfl, rfl, .held h, fun _ => .fresh fun u hu => h u (by simp [hu])⟩
  | @held t ts ending h =>
    exact ⟨t, _, rfl, rfl, .held h, fun _ => .fresh fun u hu => h u (by simp [hu])⟩
  | @ended t ending h => exact ⟨t, _, rfl, h, .ended h, by simp [h]⟩

/-- Nothing is left. -/
theorem nil {ending : Position} : (⟨none, [], ending⟩ : Cursor ε).Reads [] :=
  @fresh ε [] ending (by simp)

theorem coming_nil {c : Cursor ε} (h : c.Reads []) : c.coming = [] := by
  cases h <;> rfl

theorem ofStream {ts : List Token} (h : ∀ t ∈ ts, t.IsSound) (ending : Position) :
    (Cursor.ofStream ⟨ts.map .ok, ending⟩ : Cursor ε).Reads ts := .fresh h

end Cursor.Reads

namespace Reading

/-! ## Success -/

/-- A result with the property `P` that leaves the tokens `rest`. -/
def Succeeds (r : EStateM.Result (Failure ε) (Cursor ε) α) (rest : List Token) (P : α → Prop) : Prop :=
  ∃ a c, r = .ok a c ∧ c.Reads rest ∧ P a

variable {c : Cursor ε} {ts rest : List Token} {P : α → Prop} {Q : β → Prop}

theorem Succeeds.pure {a : α} (hc : c.Reads rest) (ha : P a) :
    Succeeds ((Pure.pure a : Reading ε α) c) rest P := ⟨a, c, rfl, hc, ha⟩

theorem Succeeds.imp {r : EStateM.Result (Failure ε) (Cursor ε) α} {R : α → Prop}
    (h : Succeeds r rest P) (hR : ∀ a, P a → R a) : Succeeds r rest R := by
  obtain ⟨a, c, hr, hc, ha⟩ := h
  exact ⟨a, c, hr, hc, hR a ha⟩

theorem Succeeds.bind {act : Reading ε α} {f : α → Reading ε β} {mid : List Token}
    (h : Succeeds (act c) mid P)
    (hf : ∀ a c', c'.Reads mid → P a → Succeeds (f a c') rest Q) :
    Succeeds ((act >>= f) c) rest Q := by
  obtain ⟨a, c', hact, hc', ha⟩ := h
  show Succeeds (EStateM.bind act f c) rest Q
  unfold EStateM.bind
  rw [hact]
  exact hf a c' hc' ha

theorem Succeeds.look {f : Token → Reading ε α} (hc : c.Reads ts)
    (hf : ∀ t c', Ahead t ts → c'.Reads ts → (t.isEnd = false → c'.skip.Reads ts.tail) →
      Succeeds (f t c') rest P) :
    Succeeds ((Reading.look >>= f) c) rest P := by
  obtain ⟨t, c', hl, ht, hc', hs⟩ := hc.look
  show Succeeds (EStateM.bind Reading.look f c) rest P
  unfold EStateM.bind
  rw [hl]
  exact hf t c' ht hc' hs

theorem Succeeds.skip {f : Unit → Reading ε α} (h : Succeeds (f () c.skip) rest P) :
    Succeeds ((Reading.skip >>= f) c) rest P := h

theorem Succeeds.take {t : Token} {f : Token → Reading ε α} (hc : c.Reads (t :: ts))
    (hf : ∀ c', c'.Reads ts → Succeeds (f t c') rest P) :
    Succeeds ((Reading.take >>= f) c) rest P := by
  obtain ⟨t', c', hl, rfl, -, hs⟩ := hc.look
  have he := hc.isEnd
  show Succeeds (EStateM.bind Reading.take f c) rest P
  unfold EStateM.bind
  rw [take_of_look hl, he]
  exact hf _ (hs he)

theorem Succeeds.accept {p : Token → Bool} {t : Token} {f : Bool → Reading ε α}
    (hc : c.Reads (t :: ts)) (hp : p t = true)
    (hf : ∀ c', c'.Reads ts → Succeeds (f true c') rest P) :
    Succeeds ((Reading.accept p >>= f) c) rest P := by
  obtain ⟨t', c', hl, rfl, -, hs⟩ := hc.look
  rw [bind_of_ok (accept_of_look_true hl hp)]
  exact hf _ (hs hc.isEnd)

/-- The next token has not the property that would let it be taken. -/
theorem Succeeds.decline {p : Token → Bool} {f : Bool → Reading ε α} (hc : c.Reads ts)
    (hp : ∀ t, Ahead t ts → p t = false)
    (hf : ∀ c', c'.Reads ts → Succeeds (f false c') rest P) :
    Succeeds ((Reading.accept p >>= f) c) rest P := by
  obtain ⟨t, c', hl, ht, hc', -⟩ := hc.look
  rw [bind_of_ok (accept_of_look_false hl (hp t ht))]
  exact hf _ hc'

/-! ## Operands that are there -/

section Operands

variable {t l r : Token} {P : Expr → Prop}

theorem succeeds_integer {v : Int64} (hk : t.kind = .integer) (hv : Numeral.int64? t.text = some v)
    (hc : c.Reads (t :: rest)) : Succeeds (primary c) rest (· = .integer v t.pos) := by
  rw [primary_eq]
  refine .take hc fun c₁ hc₁ => ?_
  simp only [Token.operandStart?, hk]
  rw [operand_eq]
  simp only [hv]
  exact .pure hc₁ rfl

theorem succeeds_float {x : Binary64} (hk : t.kind = .float) (hx : Numeral.binary64? t.text = some x)
    (hc : c.Reads (t :: rest)) : Succeeds (primary c) rest (· = .float x t.pos) := by
  rw [primary_eq]
  refine .take hc fun c₁ hc₁ => ?_
  simp only [Token.operandStart?, hk]
  rw [operand_eq]
  simp only [hx]
  exact .pure hc₁ rfl

theorem succeeds_name (hk : t.kind = .identifier) (hc : c.Reads (t :: rest))
    (hp : ∀ u, Ahead u rest → u.opensParen = false) :
    Succeeds (primary c) rest (· = .name t.text t.pos) := by
  rw [primary_eq]
  refine .take hc fun c₁ hc₁ => ?_
  simp only [Token.operandStart?, hk]
  rw [operand_eq]
  exact .decline hc₁ hp fun c₂ hc₂ => .pure hc₂ rfl

theorem succeeds_call_empty (hk : t.kind = .identifier) (hl : l.opensParen = true)
    (hr : r.closesParen = true) (hc : c.Reads (t :: l :: r :: rest)) :
    Succeeds (primary c) rest (· = .call t.text [] t.pos) := by
  rw [primary_eq]
  refine .take hc fun c₁ hc₁ => ?_
  simp only [Token.operandStart?, hk]
  rw [operand_eq]
  exact .accept hc₁ hl fun c₂ hc₂ => .accept hc₂ hr fun c₃ hc₃ => .pure hc₃ rfl

theorem succeeds_call {Q : List Expr → Prop} (hk : t.kind = .identifier) (hl : l.opensParen = true)
    (hc : c.Reads (t :: l :: ts)) (hp : ∀ u, Ahead u ts → u.closesParen = false)
    (ha : ∀ c' : Cursor ε, c'.Reads ts → Succeeds (arguments c') rest Q) :
    Succeeds (primary c) rest fun e => ∃ es, Q es ∧ e = .call t.text es t.pos := by
  rw [primary_eq]
  refine .take hc fun c₁ hc₁ => ?_
  simp only [Token.operandStart?, hk]
  rw [operand_eq]
  refine .accept hc₁ hl fun c₂ hc₂ => .decline hc₂ hp fun c₃ hc₃ => ?_
  exact (ha c₃ hc₃).bind fun es c₄ hc₄ hes => .pure hc₄ ⟨es, hes, rfl⟩

theorem succeeds_paren (hl : l.opensParen = true) (hr : r.closesParen = true)
    (hc : c.Reads (l :: ts))
    (he : ∀ c' : Cursor ε, c'.Reads ts → Succeeds (expression c') (r :: rest) P) :
    Succeeds (primary c) rest P := by
  have hstart : l.operandStart? = some .paren := by
    simp [Token.operandStart?, Token.kind_of_opensParen hl, hl]
  rw [primary_eq]
  refine .take hc fun c₁ hc₁ => ?_
  simp only [hstart]
  rw [operand_eq]
  refine (he c₁ hc₁).bind fun e c₂ hc₂ hP => .take hc₂ fun c₃ hc₃ => ?_
  rw [if_pos (Token.closes_of_opensParen hr hl)]
  exact .pure hc₃ hP

theorem succeeds_binding (hv : t.isKeyword .binding = true) (hc : c.Reads (t :: ts))
    (hb : ∀ c' : Cursor ε, c'.Reads ts → Succeeds (bindings c') rest P) :
    Succeeds (primary c) rest P := by
  have hk := Token.kind_of_isKeyword hv
  have hstart : t.operandStart? = some .binding := by
    simp [Token.operandStart?, hk, hv, Token.opensParen_of_kind]
  rw [primary_eq]
  refine .take hc fun c₁ hc₁ => ?_
  simp only [hstart]
  rw [operand_eq]
  exact hb c₁ hc₁

theorem succeeds_sign {op : Operator} (ho : t.operator? = some op) (hs : op.isSign = true)
    (hc : c.Reads (t :: ts)) (hu : ∀ c' : Cursor ε, c'.Reads ts → Succeeds (unary c') rest P) :
    Succeeds (unary c) rest fun e => ∃ x, P x ∧ e = .unary op x t.pos := by
  rw [unary_eq]
  refine .look hc fun u c₁ hu₁ hc₁ hskip => ?_
  cases hu₁
  simp only [ho, hs, ↓reduceIte]
  refine .skip ((hu _ (hskip hc.isEnd)).bind fun x c₂ hc₂ hx => .pure hc₂ ⟨x, hx, rfl⟩)

theorem succeeds_unary (hc : c.Reads ts) (ho : ∀ u, Ahead u ts → u.operator? = none)
    (hp : ∀ c' : Cursor ε, c'.Reads ts → Succeeds (primary c') rest P) :
    Succeeds (unary c) rest P := by
  rw [unary_eq]
  refine .look hc fun u c₁ hu₁ hc₁ _ => ?_
  simp only [ho u hu₁]
  exact hp c₁ hc₁

theorem succeeds_arguments_last (he : Succeeds (expression c) (r :: rest) P)
    (hr : r.closesParen = true) :
    Succeeds (arguments c) rest fun es => ∃ e, P e ∧ es = [e] := by
  rw [arguments_eq]
  refine he.bind fun e c₁ hc₁ hP => .take hc₁ fun c₂ hc₂ => ?_
  rw [if_pos hr]
  exact .pure hc₂ ⟨e, hP, rfl⟩

theorem succeeds_arguments_cons {Q : List Expr → Prop} (he : Succeeds (expression c) (t :: ts) P)
    (ht : t.kind = .comma) (ha : ∀ c' : Cursor ε, c'.Reads ts → Succeeds (arguments c') rest Q) :
    Succeeds (arguments c) rest fun es => ∃ e es', P e ∧ Q es' ∧ es = e :: es' := by
  rw [arguments_eq]
  refine he.bind fun e c₁ hc₁ hP => .take hc₁ fun c₂ hc₂ => ?_
  rw [if_neg (by simp [Token.closesParen, Token.bracket?, ht]), if_pos (by simp [Token.isComma, ht])]
  exact (ha c₂ hc₂).bind fun es c₃ hc₃ hes => .pure hc₃ ⟨e, es, hP, hes, rfl⟩

/-- A binding with a value, and what follows it. -/
theorem succeeds_bindings_init {a : Token} {mid : List Token} {Q : Expr → Prop}
    (hk : t.kind = .identifier) (ha : a.operator? = some .assign) (hc : c.Reads (t :: a :: ts))
    (he : ∀ c' : Cursor ε, c'.Reads ts → Succeeds (expression c') mid P)
    (hafter : ∀ init (c' : Cursor ε), P init → c'.Reads mid → Succeeds (afterBinding t init c') rest Q) :
    Succeeds (bindings c) rest Q := by
  rw [bindings_eq]
  refine .take hc fun c₁ hc₁ => ?_
  rw [if_pos hk]
  refine .look hc₁ fun u c₂ hu _ hskip => ?_
  cases hu
  rw [if_pos ha]
  refine .skip ((he _ (hskip hc₁.isEnd)).bind fun init c₃ hc₃ hinit => ?_)
  exact hafter init c₃ hinit hc₃

/-- A binding without a value, and what follows it. -/
theorem succeeds_bindings_bare {Q : Expr → Prop} (hk : t.kind = .identifier) (hc : c.Reads (t :: ts))
    (ha : ∀ u, Ahead u ts → u.operator? ≠ some .assign)
    (hafter : ∀ c' : Cursor ε, c'.Reads ts →
      Succeeds (afterBinding t (.integer 0 t.pos) c') rest Q) :
    Succeeds (bindings c) rest Q := by
  rw [bindings_eq]
  refine .take hc fun c₁ hc₁ => ?_
  rw [if_pos hk]
  refine .look hc₁ fun u c₂ hu hc₂ _ => ?_
  rw [if_neg (ha u hu)]
  exact hafter c₂ hc₂

theorem succeeds_afterBinding_comma {u : Token} {init : Expr} (hu : u.kind = .comma)
    (hc : c.Reads (u :: ts)) (hb : ∀ c' : Cursor ε, c'.Reads ts → Succeeds (bindings c') rest P) :
    Succeeds (afterBinding t init c) rest fun e => ∃ body, P body ∧ e = .bind t.text init body t.pos := by
  rw [afterBinding_eq]
  refine .accept hc (by simp [Token.isComma, hu]) fun c₁ hc₁ => ?_
  exact (hb c₁ hc₁).bind fun body c₂ hc₂ hbody => .pure hc₂ ⟨body, hbody, rfl⟩

theorem succeeds_afterBinding_body {u : Token} {init : Expr} (hu : u.isKeyword .within = true)
    (hc : c.Reads (u :: ts)) (he : ∀ c' : Cursor ε, c'.Reads ts → Succeeds (expression c') rest P) :
    Succeeds (afterBinding t init c) rest fun e => ∃ body, P body ∧ e = .bind t.text init body t.pos := by
  have hcomma : ∀ v, Ahead v (u :: ts) → v.isComma = false := by
    rintro v rfl
    simp [Token.isComma, Token.kind_of_isKeyword hu]
  rw [afterBinding_eq]
  refine .decline hc hcomma fun c₁ hc₁ => .take hc₁ fun c₂ hc₂ => ?_
  rw [if_pos hu]
  exact (he c₂ hc₂).bind fun body c₃ hc₃ hbody => .pure hc₃ ⟨body, hbody, rfl⟩

end Operands

/-! ## Items that are there -/

section Items

variable {t l r : Token} {P : Prototype → Prop} {Q : Expr → Prop}

theorem succeeds_parameters_nil (hr : r.closesParen = true) (hc : c.Reads (r :: rest)) :
    Succeeds (parameters false c) rest (· = []) := by
  rw [parameters_eq]
  refine .take hc fun c₁ hc₁ => ?_
  rw [if_neg (by simp [Token.kind_of_closesParen hr]), if_pos (by simp [hr])]
  exact .pure hc₁ rfl

/-- The parameters are the names, whether commas stand between them or not. -/
theorem succeeds_parameters {ps : List Token} (h : Grammar.Parameters ps) (hr : r.closesParen = true)
    (afterComma : Bool) (hc : c.Reads (ps ++ r :: rest)) :
    Succeeds (parameters afterComma c) rest
      (· = (ps.filter (·.kind = .identifier)).map Token.text) := by
  induction h generalizing afterComma c with
  | @one t ht =>
    rw [parameters_eq]
    refine .take hc fun c₁ hc₁ => ?_
    rw [if_pos ht]
    refine .decline hc₁ ?_ fun c₂ hc₂ => (succeeds_parameters_nil hr hc₂).bind fun names c₃ hc₃ hnames => ?_
    · rintro u rfl
      simp [Token.isComma, Token.kind_of_closesParen hr]
    · exact .pure hc₃ (by simp [ht, hnames])
  | @cons t ps ht hps ih =>
    rw [parameters_eq]
    refine .take hc fun c₁ hc₁ => ?_
    rw [if_pos ht]
    refine .decline hc₁ ?_ fun c₂ hc₂ => (ih false hc₂).bind fun names c₃ hc₃ hnames => ?_
    · rintro u hu
      cases hps <;> cases hu <;> simp [Token.isComma, *]
    · exact .pure hc₃ (by simp [ht, hnames])
  | @comma t m ps ht hm hps ih =>
    rw [parameters_eq]
    refine .take hc fun c₁ hc₁ => ?_
    rw [if_pos ht]
    refine .accept hc₁ (by simp [Token.isComma, hm]) fun c₂ hc₂ =>
      (ih true hc₂).bind fun names c₃ hc₃ hnames => ?_
    exact .pure hc₃ (by simp [ht, hm, hnames])

theorem succeeds_prototype {R : List String → Prop} (ht : t.kind = .identifier)
    (hl : l.opensParen = true) (hc : c.Reads (t :: l :: ts))
    (hp : ∀ c' : Cursor ε, c'.Reads ts → Succeeds (parameters false c') rest R) :
    Succeeds (prototype c) rest fun p => ∃ names, R names ∧ p = ⟨t.text, names, t.pos⟩ := by
  rw [prototype_eq]
  refine .take hc fun c₁ hc₁ => ?_
  rw [if_pos ht]
  refine .take hc₁ fun c₂ hc₂ => ?_
  rw [if_pos hl]
  exact (hp c₂ hc₂).bind fun names c₃ hc₃ hnames => .pure hc₃ ⟨names, hnames, rfl⟩

/-- The item that starts with the first token. -/
theorem succeeds_item {X : Item → Prop} (hc : c.Reads (t :: ts)) (hs : t.kind ≠ .semicolon)
    (hi : ∀ c' : Cursor ε, c'.Reads (t :: ts) → c'.lookahead = some t → c'.skip.Reads ts →
      Succeeds (itemFrom t c'.skip) rest X) :
    Succeeds (item c) rest fun i => ∃ x, X x ∧ i = some x := by
  obtain ⟨t', c', hl, rfl, hc', hskip⟩ := hc.look
  obtain ⟨i, c₁, hitem, hc₁, hx⟩ :=
    hi c' hc' (Cursor.lookahead_peek (peek_of_look hl)) (hskip hc.isEnd)
  rw [item_of_look hl hc.isEnd, if_neg hs, map_itemFrom, hitem]
  exact ⟨some i, c₁, rfl, hc₁, i, hx, rfl⟩

theorem succeeds_item_external (hx : t.isKeyword .external = true) (hc : c.Reads (t :: ts))
    (hp : ∀ c' : Cursor ε, c'.Reads ts → Succeeds (prototype c') rest P) :
    Succeeds (item c) rest fun i => ∃ x, (∃ p, P p ∧ x = .external p t.pos) ∧ i = some x := by
  have hk : t.keyword? = some .external := of_decide_eq_true hx
  refine succeeds_item hc (by simp [Token.kind_of_isKeyword hx]) fun c₁ _ _ hskip => ?_
  rw [itemFrom_eq, if_neg (by simp [Token.isKeyword, hk]), if_pos hx]
  exact (hp _ hskip).bind fun p c₂ hc₂ hP => .pure hc₂ ⟨p, hP, rfl⟩

theorem succeeds_item_define {mid : List Token} (hd : t.isKeyword .define = true)
    (hc : c.Reads (t :: ts)) (hp : ∀ c' : Cursor ε, c'.Reads ts → Succeeds (prototype c') mid P)
    (he : ∀ c' : Cursor ε, c'.Reads mid → Succeeds (expression c') rest Q) :
    Succeeds (item c) rest fun i => ∃ x, (∃ p e, P p ∧ Q e ∧ x = .define p e t.pos) ∧ i = some x := by
  refine succeeds_item hc (by simp [Token.kind_of_isKeyword hd]) fun c₁ _ _ hskip => ?_
  rw [itemFrom_eq, if_pos hd]
  refine (hp _ hskip).bind fun p c₂ hc₂ hP => (he c₂ hc₂).bind fun e c₃ hc₃ hQ => ?_
  exact .pure hc₃ ⟨p, e, hP, hQ, rfl⟩

theorem succeeds_item_evaluate (ht : t.isBoundary = false) (hc : c.Reads (t :: ts))
    (he : ∀ c' : Cursor ε, c'.Reads (t :: ts) → Succeeds (expression c') rest Q) :
    Succeeds (item c) rest fun i => ∃ x, (∃ e, Q e ∧ x = .evaluate e t.pos) ∧ i = some x := by
  simp only [Token.isBoundary, Bool.or_eq_false_iff, decide_eq_false_iff_not] at ht
  obtain ⟨⟨⟨-, hs⟩, hd⟩, hx⟩ := ht
  refine succeeds_item hc hs fun c₁ hc₁ hl _ => ?_
  rw [itemFrom_eq, if_neg (by simp [hd]), if_neg (by simp [hx])]
  have hback : Succeeds (unread t c₁.skip) (t :: ts) fun _ => True :=
    ⟨(), c₁, unread_skip hl, hc₁, trivial⟩
  refine hback.bind fun _ c₂ hc₂ _ => ?_
  exact (he c₂ hc₂).bind fun e c₃ hc₃ hQ => .pure hc₃ ⟨e, hQ, rfl⟩

/-! ## Programs that are there -/

theorem program_nil (hc : c.Reads []) : Parse.program c = .ok [] := by
  obtain ⟨t, c', hl, ht, -, -⟩ := hc.look
  rw [program_eq, item_of_look_end hl ht]

theorem program_semicolon (hs : t.kind = .semicolon) (hc : c.Reads (t :: ts)) :
    ∃ c' : Cursor ε, c'.Reads ts ∧ Parse.program c = Parse.program c' := by
  obtain ⟨t', c', hl, rfl, -, hskip⟩ := hc.look
  refine ⟨c'.skip, hskip hc.isEnd, ?_⟩
  rw [program_eq, item_of_look hl hc.isEnd, if_pos hs, ← program_eq]

theorem program_cons {X : Item → Prop} (h : Succeeds (item c) rest fun i => ∃ x, X x ∧ i = some x) :
    ∃ (x : Item) (c' : Cursor ε), X x ∧ c'.Reads rest ∧
      Parse.program c = (Parse.program c').map (x :: ·) := by
  obtain ⟨i, c', hi, hc', x, hx, rfl⟩ := h
  refine ⟨x, c', hx, hc', ?_⟩
  rw [program_eq, hi]

end Items

end Reading

end ScalarLang
