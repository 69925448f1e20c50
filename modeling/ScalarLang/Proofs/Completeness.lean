import ScalarLang.Proofs.Consumption
import ScalarLang.Proofs.Grammar
import ScalarLang.Proofs.Lockstep
/-!
# Derivable programs are read without errors

An expression is read to its end if what follows cannot go on it. The body of a binding takes all
operations that stand after it, so a reader of an operand is given these too, and may leave them or take
them.
-/
namespace ScalarLang

open Grammar

/-! ## Operators and the token ahead -/

theorem Token.precedence?_of_operator? {t : Token} {op : Operator} (h : t.operator? = some op)
    (ha : op ≠ .assign) : ∃ prec, op.precedence? = some prec ∧ 0 ≤ prec.level := by
  have hmem : op ∈ Operator.all := by
    unfold Token.operator? at h
    split at h
    · exact List.mem_of_find?_eq_some h
    · cases h
  cases op with
  | assign => exact absurd rfl ha
  | other => simp [Operator.all] at hmem
  | _ => exact ⟨_, rfl, by decide⟩

namespace Grammar

theorem Stops.ahead {ts rest : List Token} {t : Token} (h : Stops ts rest) (ht : Ahead t rest) :
    t.operator? = none ∧ ∀ u, ts.getLast? = some u → u.kind = .identifier → t.opensParen = false := by
  cases rest with
  | nil =>
    have hk : t.kind = .endOfInput := by simpa [Ahead, Token.isEnd] using ht
    exact ⟨by simp [Token.operator?, hk], fun _ _ _ => Token.opensParen_of_kind (by simp [hk])⟩
  | cons u rest =>
    cases ht
    exact h t rfl

/-- After a name and the operations on it no open parenthesis is ahead. -/
theorem Operations.opensParen_ahead {t u : Token} {more rest : List Token} (h : Operations more)
    (ht : t.kind = .identifier) (hstop : Stops (t :: more) rest) (hu : Ahead u (more ++ rest)) :
    u.opensParen = false := by
  cases h with
  | nil => exact (hstop.ahead hu).2 t rfl ht
  | cons ho _ _ _ =>
    cases hu
    exact Token.opensParen_of_kind (by simp [Token.kind_of_operator? ho])

/-- An expression starts with a token that starts no other item and ends no list. -/
theorem Expression.head {e : List Token} (h : Expression e) :
    ∃ t more, e = t :: more ∧ t.isBoundary = false ∧ t.closesParen = false := by
  have hof {t : Token} {k : TokenKind} (hk : t.kind = k) (he : k ≠ .endOfInput) (hs : k ≠ .semicolon)
      (hw : k ≠ .keyword) (hb : k ≠ .bracket) : t.isBoundary = false ∧ t.closesParen = false :=
    ⟨Token.isBoundary_of_kind hk he hs hw, Token.closesParen_of_kind (by simp [hk, hb])⟩
  obtain ⟨hu, -⟩ := h
  cases hu with
  | sign ho _ _ =>
    exact ⟨_, _, rfl, hof (Token.kind_of_operator? ho) (by simp) (by simp) (by simp) (by simp)⟩
  | primary hp =>
    cases hp with
    | integer h => exact ⟨_, _, rfl, hof h (by simp) (by simp) (by simp) (by simp)⟩
    | float h => exact ⟨_, _, rfl, hof h (by simp) (by simp) (by simp) (by simp)⟩
    | name h => exact ⟨_, _, rfl, hof h (by simp) (by simp) (by simp) (by simp)⟩
    | call h => exact ⟨_, _, rfl, hof h (by simp) (by simp) (by simp) (by simp)⟩
    | callWith h => exact ⟨_, _, rfl, hof h (by simp) (by simp) (by simp) (by simp)⟩
    | binding h =>
      exact ⟨_, _, rfl, Token.isBoundary_of_isKeyword h (by simp) (by simp),
        Token.closesParen_of_kind (by simp [Token.kind_of_isKeyword h])⟩
    | paren h =>
      have hl : _ = some (⟨.round, .left⟩ : Bracket) := of_decide_eq_true h
      exact ⟨_, _, rfl, Token.isBoundary_of_opensParen h, by simp [Token.closesParen, hl]⟩

theorem Expressions.head {es : List Token} (h : Expressions es) :
    ∃ t more, es = t :: more ∧ t.closesParen = false := by
  cases h with
  | one he =>
    obtain ⟨t, more, rfl, -, ht⟩ := he.head
    exact ⟨t, _, rfl, ht⟩
  | cons he _ _ =>
    obtain ⟨t, more, rfl, -, ht⟩ := he.head
    exact ⟨t, _, rfl, ht⟩

theorem AfterBinding.head {ts : List Token} (h : AfterBinding ts) :
    ∃ t more, ts = t :: more ∧ t.operator? = none ∧ t.opensParen = false := by
  cases h with
  | comma ht _ =>
    exact ⟨_, _, rfl, by simp [Token.operator?, ht], Token.opensParen_of_kind (by simp [ht])⟩
  | body hi _ =>
    have hk := Token.kind_of_isKeyword hi
    exact ⟨_, _, rfl, by simp [Token.operator?, hk], Token.opensParen_of_kind (by simp [hk])⟩

/-- What starts with neither an operator nor an open parenthesis stops everything. -/
theorem Stops.of_head {xs ts : List Token}
    (h : ∃ t more, ts = t :: more ∧ t.operator? = none ∧ t.opensParen = false) (rest : List Token) :
    Stops xs (ts ++ rest) := by
  obtain ⟨t, more, rfl, ho, hp⟩ := h
  intro t' ht'
  cases ht'
  exact ⟨ho, fun _ _ _ => hp⟩

theorem Stops.closesParen {xs rest : List Token} {r : Token} (hr : r.closesParen = true) :
    Stops xs (r :: rest) := by
  have hk := Token.kind_of_closesParen hr
  have hround : r.bracket? = some ⟨.round, .right⟩ := of_decide_eq_true hr
  exact .of_kind (by simp [hk]) (by simp [Token.opensParen, hround])

end Grammar

namespace Reading

variable {ε α β : Type} {c : Cursor ε} {ts more rest : List Token}

/-- A result, whatever it is, that leaves the tokens `rest`. -/
abbrev Reaches (r : EStateM.Result (Failure ε) (Cursor ε) α) (rest : List Token) : Prop :=
  Succeeds r rest fun _ => True

theorem Succeeds.reaches {r : EStateM.Result (Failure ε) (Cursor ε) α} {P : α → Prop}
    (h : Succeeds r rest P) : Reaches r rest := by
  obtain ⟨a, c, hr, hc, -⟩ := h
  exact ⟨a, c, hr, hc, trivial⟩

/-- A result that leaves the operations in `more` from the first one below the level `least` on. -/
def Climbs (least : Int) (more rest : List Token) (r : EStateM.Result (Failure ε) (Cursor ε) α) : Prop :=
  ∃ left, Operations left ∧ left <:+ more ∧ Reaches r (left ++ rest) ∧
    ∀ t op prec, left.head? = some t → t.operator? = some op → op.precedence? = some prec →
      prec.level < least

theorem Climbs.bind {least : Int} {mid : List Token} {act : Reading ε α} {f : α → Reading ε β}
    (h : Reaches (act c) mid) (hf : ∀ a c', c'.Reads mid → Climbs least more rest (f a c')) :
    Climbs least more rest ((act >>= f) c) := by
  obtain ⟨a, c', hact, hc', -⟩ := h
  show Climbs least more rest (EStateM.bind act f c)
  unfold EStateM.bind
  rw [hact]
  exact hf a c' hc'

theorem Climbs.look {least : Int} {f : Token → Reading ε α} (hc : c.Reads ts)
    (hf : ∀ t c', Ahead t ts → c'.Reads ts → (t.isEnd = false → c'.skip.Reads ts.tail) →
      Climbs least more rest (f t c')) :
    Climbs least more rest ((Reading.look >>= f) c) := by
  obtain ⟨t, c', hl, ht, hc', hs⟩ := hc.look
  show Climbs least more rest (EStateM.bind Reading.look f c)
  unfold EStateM.bind
  rw [hl]
  exact hf t c' ht hc' hs

theorem Climbs.of_suffix {least : Int} {tail : List Token}
    {r : EStateM.Result (Failure ε) (Cursor ε) α} (h : Climbs least tail rest r) (hs : tail <:+ more) :
    Climbs least more rest r := by
  obtain ⟨left, hleft, hsuf, hr, hlevel⟩ := h
  exact ⟨left, hleft, hsuf.trans hs, hr, hlevel⟩

/-- From level zero on, nothing is left. -/
theorem Climbs.reaches {r : EStateM.Result (Failure ε) (Cursor ε) α} (h : Climbs 0 more rest r) :
    Reaches r rest := by
  obtain ⟨left, hleft, -, hr, hlevel⟩ := h
  cases hleft with
  | nil => exact hr
  | cons ho ha _ _ =>
    obtain ⟨prec, hprec, hpos⟩ := Token.precedence?_of_operator? ho ha
    have := hlevel _ _ prec rfl ho hprec
    omega

/-! ## Expressions

The readers call each other, and every call but that of an expression goes down in its own derivation.
So they are taken one by one, each for the case that shorter expressions are read. -/

/-- Expressions of less than `n` tokens are read to their ends. -/
def ReadsBelow (ε : Type) (n : Nat) : Prop :=
  ∀ {e rest : List Token} {c : Cursor ε}, e.length < n → Expression e → Stops e rest →
    c.Reads (e ++ rest) → Reaches (expression c) rest

section Below

variable {n : Nat} (hbelow : ReadsBelow ε n)
include hbelow

theorem reaches_arguments {es rest : List Token} {r : Token} (hn : es.length < n)
    (hes : Expressions es) (hr : r.closesParen = true) {c : Cursor ε}
    (hc : c.Reads (es ++ r :: rest)) : Reaches (arguments c) rest := by
  induction hlen : es.length using Nat.strongRecOn generalizing es c with
  | _ k ih =>
    cases hes with
    | one he =>
      exact (succeeds_arguments_last (hbelow hn he (.closesParen hr) hc) hr).reaches
    | @cons t e es he ht hes =>
      simp only [List.length_append, List.length_cons] at hn hlen
      have hstop : Stops e (t :: (es ++ r :: rest)) :=
        .of_kind (by simp [ht]) (Token.opensParen_of_kind (by simp [ht]))
      have hfirst := hbelow (by omega) he hstop (c := c) (by simpa using hc)
      have hmore (c' : Cursor ε) (hc' : c'.Reads (es ++ r :: rest)) : Reaches (arguments c') rest :=
        ih es.length (by omega) (by omega) hes hc' rfl
      exact (succeeds_arguments_cons hfirst ht hmore).reaches

theorem reaches_bindings {ts rest : List Token} (hn : ts.length < n) (h : Bound ts)
    (hstop : Stops ts rest) {c : Cursor ε} (hc : c.Reads (ts ++ rest)) :
    Reaches (bindings c) rest := by
  induction hlen : ts.length using Nat.strongRecOn generalizing ts c with
  | _ k ih =>
    obtain @⟨b, ts, hb, hts⟩ := h
    simp only [List.length_append] at hn hlen
    have hstop' : Stops ts rest := hstop.of_suffix (List.suffix_append b ts)
    have hhead := hts.head
    have hb' : 0 < b.length := by
      cases hb <;> simp
    rw [List.append_assoc] at hc
    have hafter (t : Token) (init : Expr) (c' : Cursor ε) (hc' : c'.Reads (ts ++ rest)) :
        Reaches (afterBinding t init c') rest := by
      cases hts with
      | @comma u ts hu hts =>
        have hmore (c₁ : Cursor ε) (hc₁ : c₁.Reads (ts ++ rest)) : Reaches (bindings c₁) rest :=
          ih ts.length (by simp at hlen; omega) (by simp at hn; omega) hts
            (hstop'.of_suffix (List.suffix_cons _ _)) hc₁ rfl
        exact (succeeds_afterBinding_comma hu hc' hmore).reaches
      | @body i e hi he =>
        have hbody (c₁ : Cursor ε) (hc₁ : c₁.Reads (e ++ rest)) : Reaches (expression c₁) rest :=
          hbelow (by simp at hn; omega) he (hstop'.of_suffix (List.suffix_cons _ _)) hc₁
        exact (succeeds_afterBinding_body hi hc' hbody).reaches
    cases hb with
    | bare ht =>
      refine succeeds_bindings_bare ht hc ?_ (hafter _ _)
      obtain ⟨u, more, rfl, hu, -⟩ := hhead
      rintro u rfl
      simp [hu]
    | @init t a e ht ha he =>
      have hinit (c' : Cursor ε) (hc' : c'.Reads (e ++ (ts ++ rest))) :
          Reaches (expression c') (ts ++ rest) :=
        hbelow (by simp at hn; omega) he (.of_head hhead rest) hc'
      exact succeeds_bindings_init ht ha hc hinit fun init c' _ hc' => hafter t init c' hc'

/-- An operand is read to its end, except that the body of a binding also takes the operations after
it. -/
theorem reaches_primary {p more rest : List Token} (hn : p.length + more.length ≤ n) (hp : Primary p)
    (hm : Operations more) (hstop : Stops (p ++ more) rest) :
    ∃ left, Operations left ∧ left <:+ more ∧
      ∀ c : Cursor ε, c.Reads (p ++ (more ++ rest)) → Reaches (primary c) (left ++ rest) := by
  cases hp with
  | @integer t ht =>
    refine ⟨more, hm, List.suffix_rfl, fun c hc => ?_⟩
    have hsound := hc.isSound t (by simp)
    simp only [Token.IsSound, ht] at hsound
    obtain ⟨v, hv, -⟩ := hsound
    exact (succeeds_integer ht hv hc).reaches
  | @float t ht =>
    refine ⟨more, hm, List.suffix_rfl, fun c hc => ?_⟩
    have hsound := hc.isSound t (by simp)
    simp only [Token.IsSound, ht] at hsound
    obtain ⟨x, hx, -⟩ := hsound
    exact (succeeds_float ht hx hc).reaches
  | name ht =>
    refine ⟨more, hm, List.suffix_rfl, fun c hc => ?_⟩
    exact (succeeds_name ht hc fun u hu => hm.opensParen_ahead ht hstop hu).reaches
  | call ht hl hr =>
    exact ⟨more, hm, List.suffix_rfl, fun c hc => (succeeds_call_empty ht hl hr hc).reaches⟩
  | @callWith t l r es ht hl hes hr =>
    refine ⟨more, hm, List.suffix_rfl, fun c hc => ?_⟩
    have hargs (c' : Cursor ε) (hc' : c'.Reads (es ++ r :: (more ++ rest))) :
        Reaches (arguments c') (more ++ rest) :=
      reaches_arguments hbelow (by simp at hn; omega) hes hr hc'
    refine (succeeds_call ht hl (by simpa using hc) ?_ hargs).reaches
    obtain ⟨u, es, rfl, hu⟩ := hes.head
    rintro u rfl
    exact hu
  | @paren l r e hl he hr =>
    refine ⟨more, hm, List.suffix_rfl, fun c hc => ?_⟩
    have hinner (c' : Cursor ε) (hc' : c'.Reads (e ++ r :: (more ++ rest))) :
        Reaches (expression c') (r :: (more ++ rest)) :=
      hbelow (by simp at hn; omega) he (.closesParen hr) hc'
    exact succeeds_paren hl hr (by simpa using hc) hinner
  | @binding v i bs e hv hb hi he =>
    refine ⟨[], .nil, List.nil_suffix, fun c hc => ?_⟩
    have hbound : Bound (bs ++ i :: (e ++ more)) := hb.bound hi (he.append hm)
    have hinner (c' : Cursor ε) (hc' : c'.Reads (bs ++ i :: (e ++ more) ++ rest)) :
        Reaches (bindings c') rest :=
      reaches_bindings hbelow (by simp at hn ⊢; omega) hbound
        (hstop.of_suffix ⟨[v], by simp⟩) hc'
    exact succeeds_binding hv (by simpa using hc) hinner

theorem reaches_unary {u more rest : List Token} (hn : u.length + more.length ≤ n) (hu : Unary u)
    (hm : Operations more) (hstop : Stops (u ++ more) rest) :
    ∃ left, Operations left ∧ left <:+ more ∧
      ∀ c : Cursor ε, c.Reads (u ++ (more ++ rest)) → Reaches (unary c) (left ++ rest) := by
  induction hlen : u.length using Nat.strongRecOn generalizing u with
  | _ k ih =>
    cases hu with
    | @sign t op u ho hs hu =>
      simp only [List.length_cons] at hn hlen
      obtain ⟨left, hleft, hsuf, hreach⟩ := ih u.length (by omega) (by omega) hu
        (hstop.of_suffix (List.suffix_cons t (u ++ more))) rfl
      have hsign : op.isSign = true := by
        rcases hs with rfl | rfl <;> rfl
      exact ⟨left, hleft, hsuf, fun c hc => (succeeds_sign ho hsign hc hreach).reaches⟩
    | primary hp =>
      obtain ⟨left, hleft, hsuf, hreach⟩ := reaches_primary hbelow hn hp hm hstop
      refine ⟨left, hleft, hsuf, fun c hc => succeeds_unary hc ?_ hreach⟩
      obtain ⟨t, p, rfl, ht⟩ := hp.head
      rintro t rfl
      simp [Token.operator?, ht]

theorem climbs_operators {more rest : List Token} (least : Int) (lhs : Expr) (hn : more.length ≤ n)
    (hm : Operations more) (hstop : Stops more rest) {c : Cursor ε} (hc : c.Reads (more ++ rest)) :
    Climbs least more rest (operators least lhs c) := by
  induction hlen : more.length using Nat.strongRecOn generalizing more least lhs c with
  | _ k ih =>
    rw [operators_eq]
    refine .look hc fun t c₁ ht hc₁ hskip => ?_
    cases hm with
    | nil =>
      simp only [(hstop.ahead ht).1]
      exact ⟨[], .nil, List.suffix_rfl, .pure hc₁ trivial, by simp⟩
    | @cons _ op u more ho ha hu hm =>
      cases ht
      simp only [List.length_cons, List.length_append] at hn hlen
      obtain ⟨prec, hprec, -⟩ := Token.precedence?_of_operator? ho ha
      simp only [ho, hprec]
      split
      · rename_i hlow
        refine ⟨_, .cons ho ha hu hm, List.suffix_rfl, .pure hc₁ trivial, ?_⟩
        intro t' op' prec' ht' ho' hp'
        cases ht'
        cases ho.symm.trans ho'
        cases hprec.symm.trans hp'
        exact hlow
      · have htail : u ++ more <:+ t :: (u ++ more) := List.suffix_cons t (u ++ more)
        obtain ⟨left, hleft, hsuf, hreach⟩ :=
          reaches_unary hbelow (by omega) hu hm (hstop.of_suffix htail)
        have hmore : left <:+ t :: (u ++ more) := (hsuf.trans (List.suffix_append u more)).trans htail
        have hle := hsuf.length_le
        have hskipped : c₁.skip.Reads (u ++ (more ++ rest)) := by simpa using hskip hc.isEnd
        refine Climbs.bind ⟨(), c₁.skip, rfl, hskipped, trivial⟩ fun _ c₂ hc₂ => ?_
        refine Climbs.bind (hreach c₂ hc₂) fun rhs c₃ hc₃ => ?_
        refine .look hc₃ fun ahead c₄ _ hc₄ _ => ?_
        -- the operators that bind tighter belong to the right operand; what they leave goes on
        cases prec.rightLevel? ahead with
        | some level =>
          obtain ⟨left', hleft', hsuf', hreach', -⟩ :=
            ih left.length (by omega) level rhs (by omega) hleft (hstop.of_suffix hmore) hc₄ rfl
          have hle' := hsuf'.length_le
          have hmore' := hsuf'.trans hmore
          refine .bind hreach' fun rhs' c₅ hc₅ => ?_
          exact (ih left'.length (by omega) least _ (by omega) hleft' (hstop.of_suffix hmore') hc₅
            rfl).of_suffix hmore'
        | none =>
          exact (ih left.length (by omega) least _ (by omega) hleft (hstop.of_suffix hmore) hc₄
            rfl).of_suffix hmore

end Below

/-- An expression is read up to what cannot go on it. -/
theorem reaches_expression {e rest : List Token} (h : Expression e) (hstop : Stops e rest)
    {c : Cursor ε} (hc : c.Reads (e ++ rest)) : Reaches (expression c) rest := by
  induction hlen : e.length using Nat.strongRecOn generalizing e rest c with
  | _ k ih =>
    have hbelow : ReadsBelow ε k := fun hlt h hstop hc => ih _ hlt h hstop hc rfl
    obtain @⟨u, more, hu, hm⟩ := h
    rw [List.length_append] at hlen
    obtain ⟨left, hleft, hsuf, hreach⟩ := reaches_unary hbelow (by omega) hu hm hstop
    have hle := hsuf.length_le
    have hstop' : Stops left rest := hstop.of_suffix (hsuf.trans (List.suffix_append u more))
    rw [expression_eq]
    refine (hreach c (by simpa using hc)).bind fun lhs c₁ hc₁ _ => ?_
    exact (climbs_operators hbelow 0 lhs (by omega) hleft hstop' hc₁).reaches

/-! ## Programs -/

theorem reaches_prototype {p rest : List Token} (h : Grammar.Prototype p) {c : Cursor ε}
    (hc : c.Reads (p ++ rest)) : Reaches (prototype c) rest := by
  cases h with
  | @empty t l r ht hl hr =>
    have hnone (c' : Cursor ε) (hc' : c'.Reads (r :: rest)) : Reaches (parameters false c') rest :=
      (succeeds_parameters_nil hr hc').reaches
    exact (succeeds_prototype ht hl hc hnone).reaches
  | @params t l r ps ht hl hps hr =>
    have hparams (c' : Cursor ε) (hc' : c'.Reads (ps ++ r :: rest)) :
        Reaches (parameters false c') rest := (succeeds_parameters hps hr false hc').reaches
    exact (succeeds_prototype ht hl (by simpa using hc) hparams).reaches

/-- A program whose items are as long as they can be is read without an error. -/
theorem program_of_separated {ts : List Token} (h : Separated ts) {c : Cursor ε} (hc : c.Reads ts) :
    ∃ items, Parse.program c = .ok items := by
  have hgo {c : Cursor ε} {rest : List Token} {X : Item → Prop}
      (hi : Succeeds (item c) rest fun i => ∃ x, X x ∧ i = some x)
      (ih : ∀ {c' : Cursor ε}, c'.Reads rest → ∃ items, Parse.program c' = .ok items) :
      ∃ items, Parse.program c = .ok items := by
    obtain ⟨x, c', -, hc', hx⟩ := program_cons hi
    obtain ⟨items, hitems⟩ := ih hc'
    exact ⟨x :: items, by rw [hx, hitems]; rfl⟩
  induction h generalizing c with
  | nil => exact ⟨[], program_nil hc⟩
  | semicolon ht _ ih =>
    obtain ⟨c', hc', heq⟩ := program_semicolon ht hc
    rw [heq]
    exact ih hc'
  | external hx hp _ ih =>
    exact hgo (succeeds_item_external hx hc fun c' hc' => reaches_prototype hp hc') ih
  | @define d p e ts hd hp he hs _ ih =>
    have hproto (c' : Cursor ε) (hc' : c'.Reads (p ++ (e ++ ts))) : Reaches (prototype c') (e ++ ts) :=
      reaches_prototype hp hc'
    exact hgo (succeeds_item_define hd (by simpa using hc) hproto
      fun c' hc' => reaches_expression he hs hc') ih
  | evaluate he hs _ ih =>
    obtain ⟨t, more, rfl, ht, -⟩ := he.head
    exact hgo (succeeds_item_evaluate ht hc fun c' hc' => reaches_expression he hs hc') ih

end Reading

end ScalarLang
