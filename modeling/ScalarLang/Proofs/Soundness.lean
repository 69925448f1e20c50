import ScalarLang.Proofs.Completeness
/-!
# What is read is derivable

Tokens that are read as a program are derivable, and all others are refused by the grammar. `Yields` says
both of an action at once: it takes tokens that a construct derives, or it fails with an error of the
grammar, never with one of the stream and never for want of room in the lookahead.
-/
namespace ScalarLang

open Grammar

theorem Ahead.eq_cons {t : Token} {ts : List Token} (h : Ahead t ts) (he : t.isEnd = false) :
    ∃ rest, ts = t :: rest := by
  cases ts with
  | nil => simp [Ahead, he] at h
  | cons u rest => exact ⟨rest, by rw [show t = u from h]⟩

theorem Token.closesParen_of_closes {l r : Token} (hl : l.opensParen = true)
    (h : r.closes l = true) : r.closesParen = true := by
  have hround : l.bracket? = some ⟨.round, .left⟩ := of_decide_eq_true hl
  unfold Token.closes at h
  rw [hround] at h
  cases hb : r.bracket? with
  | none => simp [hb] at h
  | some b =>
    obtain ⟨shape, side⟩ := b
    simp only [hb, Bracket.closes, Bool.and_eq_true, decide_eq_true_eq] at h
    simp [Token.closesParen, hb, h]

namespace Reading

variable {ε α β : Type} {c : Cursor ε} {ts : List Token} {X Y : List Token → Prop}

/-- A result for which the first of the tokens `ts` were taken, as `X` asks, or an error of the
grammar. -/
inductive Yields (ts : List Token) (X : List Token → Prop) :
    EStateM.Result (Failure ε) (Cursor ε) α → Prop
  | ok {used rest : List Token} {a : α} {c : Cursor ε} (hts : ts = used ++ rest) (hc : c.Reads rest)
      (hx : X used) : Yields ts X (.ok a c)
  | error {g : ParseError} {c : Cursor ε} : Yields ts X (.error (.grammar g) c)

namespace Yields

theorem pure {a : α} (hc : c.Reads ts) (hx : X []) : Yields ts X ((Pure.pure a : Reading ε α) c) :=
  .ok rfl hc hx

theorem throw {g : ParseError} : Yields ts X ((MonadExcept.throw (Failure.grammar g) : Reading ε α) c) :=
  .error

theorem mono {r : EStateM.Result (Failure ε) (Cursor ε) α} (h : Yields ts X r)
    (hxy : ∀ used, X used → Y used) : Yields ts Y r := by
  cases h with
  | ok hts hc hx => exact .ok hts hc (hxy _ hx)
  | error => exact .error

/-- The tokens taken first are among those taken. -/
theorem append {used rest : List Token} {r : EStateM.Result (Failure ε) (Cursor ε) α}
    (h : Yields rest (fun more => X (used ++ more)) r) : Yields (used ++ rest) X r := by
  cases h with
  | ok hts hc hx => exact .ok (by rw [hts, List.append_assoc]) hc hx
  | error => exact .error

theorem cons {t : Token} {r : EStateM.Result (Failure ε) (Cursor ε) α}
    (h : Yields ts (fun used => X (t :: used)) r) : Yields (t :: ts) X r := by
  rw [← List.singleton_append]
  exact append h

theorem bind {act : Reading ε α} {f : α → Reading ε β} (h : Yields ts X (act c))
    (hf : ∀ a c' used rest, ts = used ++ rest → c'.Reads rest → X used →
      Yields rest (fun more => Y (used ++ more)) (f a c')) :
    Yields ts Y ((act >>= f) c) := by
  show Yields ts Y (EStateM.bind act f c)
  unfold EStateM.bind
  generalize hact : act c = r at h
  cases h with
  | error => exact .error
  | @ok used rest a c' hts hc' hx =>
    have hmore := hf a c' used rest hts hc' hx
    subst hts
    exact hmore.append

theorem look {f : Token → Reading ε α} (hc : c.Reads ts)
    (hf : ∀ t c', Ahead t ts → c'.Reads ts → (t.isEnd = false → c'.skip.Reads ts.tail) →
      Yields ts X (f t c')) : Yields ts X ((Reading.look >>= f) c) := by
  obtain ⟨t, c', hl, ht, hc', hs⟩ := hc.look
  show Yields ts X (EStateM.bind Reading.look f c)
  unfold EStateM.bind
  rw [hl]
  exact hf t c' ht hc' hs

theorem skip {f : Unit → Reading ε α} (h : Yields ts X (f () c.skip)) :
    Yields ts X ((Reading.skip >>= f) c) := h

/-- A token that is taken either goes on or is refused; the end of input cannot go on. -/
theorem take {f : Token → Reading ε α} (hc : c.Reads ts)
    (hf : ∀ t c', (∀ wanted, Yields ts X ((Reading.refuse wanted t : Reading ε α) c')) →
      (t.isEnd = false → ∃ rest, ts = t :: rest ∧ c'.Reads rest) → Yields ts X (f t c')) :
    Yields ts X ((Reading.take >>= f) c) := by
  obtain ⟨t, c', hl, ht, -, hs⟩ := hc.look
  show Yields ts X (EStateM.bind Reading.take f c)
  unfold EStateM.bind
  rw [take_of_look hl]
  refine hf t _ (fun wanted => ?_) fun he => ?_
  · rw [refuse_take wanted hl]
    exact .error
  · obtain ⟨rest, rfl⟩ := ht.eq_cons he
    exact ⟨rest, rfl, by simpa [he] using hs he⟩

theorem accept {p : Token → Bool} {f : Bool → Reading ε α} (hc : c.Reads ts)
    (hp : ∀ t, p t = true → t.isEnd = false)
    (hyes : ∀ t c' rest, ts = t :: rest → p t = true → c'.Reads rest →
      Yields rest (fun used => X (t :: used)) (f true c'))
    (hno : ∀ c', c'.Reads ts → Yields ts X (f false c')) :
    Yields ts X ((Reading.accept p >>= f) c) := by
  obtain ⟨t, c', hl, ht, hc', hs⟩ := hc.look
  cases hpt : p t with
  | true =>
    obtain ⟨rest, rfl⟩ := ht.eq_cons (hp t hpt)
    rw [bind_of_ok (accept_of_look_true hl hpt)]
    exact .cons (hyes t c'.skip rest rfl hpt (hs (hp t hpt)))
  | false =>
    rw [bind_of_ok (accept_of_look_false hl hpt)]
    exact hno c' hc'

end Yields

/-! ## Expressions -/

/-- From fewer than `n` tokens only expressions are read. -/
def YieldsBelow (ε : Type) (n : Nat) : Prop :=
  ∀ {ts : List Token} {c : Cursor ε}, ts.length < n → c.Reads ts → Yields ts Expression (expression c)

section Below

variable {n : Nat} (hbelow : YieldsBelow ε n)
include hbelow

theorem yields_arguments (hn : ts.length < n) (hc : c.Reads ts) :
    Yields ts (fun used => ∃ es r, used = es ++ [r] ∧ Expressions es ∧ r.closesParen = true)
      (arguments c) := by
  induction hlen : ts.length using Nat.strongRecOn generalizing ts c with
  | _ k ih =>
    rw [arguments_eq]
    refine (hbelow hn hc).bind fun e c₁ used rest hts hc₁ he => ?_
    subst hts
    rw [List.length_append] at hn hlen
    refine .take hc₁ fun u c₂ hrefuse htake => ?_
    split
    · rename_i hr
      obtain ⟨rest, rfl, hc₂⟩ := htake (Token.isEnd_of_kind (Token.kind_of_closesParen hr) (by simp))
      exact .cons (.pure hc₂ ⟨used, u, rfl, .one he, hr⟩)
    · split
      · rename_i hcomma
        obtain ⟨rest, rfl, hc₂⟩ := htake (Token.isEnd_of_isComma hcomma)
        rw [List.length_cons] at hn hlen
        refine .cons (.bind (ih rest.length (by omega) (by omega) hc₂ rfl) ?_)
        rintro es c₃ _ rest' rfl hc₃ ⟨ts', r, rfl, hes, hr⟩
        refine .pure hc₃ ⟨used ++ u :: ts', r, by simp, .cons he ?_ hes, hr⟩
        simpa [Token.isComma] using hcomma
      · exact hrefuse _

theorem yields_bindings (hn : ts.length < n) (hc : c.Reads ts) : Yields ts Bound (bindings c) := by
  induction hlen : ts.length using Nat.strongRecOn generalizing ts c with
  | _ k ih =>
    -- a list of bindings goes on after each of them, on fewer tokens
    have hafter (t : Token) (init : Expr) {ts : List Token} {c : Cursor ε} (hk : ts.length < k)
        (hc : c.Reads ts) : Yields ts AfterBinding (afterBinding t init c) := by
      rw [afterBinding_eq]
      refine .accept hc (fun _ => Token.isEnd_of_isComma) (fun u c₁ rest hts hu hc₁ => ?_) fun c₁ hc₁ => ?_
      · subst hts
        rw [List.length_cons] at hk
        refine (ih rest.length (by omega) (by omega) hc₁ rfl).bind ?_
        rintro body c₂ used rest rfl hc₂ hbound
        refine .pure hc₂ ?_
        rw [List.append_nil]
        exact .comma (by simpa [Token.isComma] using hu) hbound
      · refine .take hc₁ fun u c₂ hrefuse htake => ?_
        split
        · rename_i hi
          obtain ⟨rest, rfl, hc₂⟩ := htake (Token.isEnd_of_isKeyword hi)
          rw [List.length_cons] at hk
          refine .cons (.bind (hbelow (by omega) hc₂) ?_)
          rintro body c₃ used rest rfl hc₃ he
          refine .pure hc₃ ?_
          rw [List.append_nil]
          exact .body hi he
        · exact hrefuse _
    rw [bindings_eq]
    refine .take hc fun t c₁ hrefuse htake => ?_
    split
    · rename_i ht
      obtain ⟨rest, rfl, hc₁⟩ := htake (Token.isEnd_of_kind ht (by simp))
      rw [List.length_cons] at hn hlen
      refine .cons (.look hc₁ fun u c₂ hu hc₂ hskip => ?_)
      split
      · rename_i ha
        have he := Token.isEnd_of_operator? ha
        obtain ⟨rest, rfl⟩ := hu.eq_cons he
        rw [List.length_cons] at hn hlen
        have hc₃ : c₂.skip.Reads rest := hskip he
        refine .cons (.skip (.bind (hbelow (by omega) hc₃) ?_))
        rintro init c₄ used rest rfl hc₄ hinit
        rw [List.length_append] at hn hlen
        refine (hafter t init (by omega) hc₄).mono fun more hmore => ?_
        exact .mk (.init ht ha hinit) hmore
      · refine (hafter t _ (by omega) hc₂).mono fun more hmore => ?_
        exact .mk (.bare ht) hmore
    · exact hrefuse _

theorem yields_operand {start : Token.OperandStart} {t : Token} (ho : t.operandStart? = some start)
    (hn : ts.length < n) (hc : c.Reads ts) :
    Yields ts (fun used => Primary (t :: used)) (operand start t c) := by
  have hk := Token.kind_of_operandStart? ho
  rw [operand_eq]
  cases start with
  | integer =>
    simp only
    cases Numeral.int64? t.text with
    | none => exact .throw
    | some v => exact .pure hc (.integer hk)
  | float =>
    simp only
    cases Numeral.binary64? t.text with
    | none => exact .throw
    | some x => exact .pure hc (.float hk)
  | name =>
    refine .accept hc (fun _ => Token.isEnd_of_opensParen) (fun l c₁ rest hts hl hc₁ => ?_) fun c₁ hc₁ =>
      .pure hc₁ (.name hk)
    subst hts
    rw [List.length_cons] at hn
    refine .accept hc₁ (fun u hu => Token.isEnd_of_kind (Token.kind_of_closesParen hu) (by simp))
      (fun r c₂ rest hts hr hc₂ => .pure hc₂ (.call hk hl hr)) fun c₂ hc₂ => ?_
    refine (yields_arguments hbelow (by omega) hc₂).bind ?_
    rintro args c₃ _ rest' rfl hc₃ ⟨es, r, rfl, hes, hr⟩
    refine .pure hc₃ ?_
    rw [List.append_nil]
    exact .callWith hk hl hes hr
  | paren =>
    refine (hbelow hn hc).bind ?_
    rintro e c₁ used rest rfl hc₁ he
    refine .take hc₁ fun r c₂ hrefuse htake => ?_
    split
    · rename_i hr
      have hr := Token.closesParen_of_closes hk hr
      obtain ⟨rest, rfl, hc₂⟩ := htake (Token.isEnd_of_kind (Token.kind_of_closesParen hr) (by simp))
      exact .cons (.pure hc₂ (.paren hk he hr))
    · exact hrefuse _
  | binding =>
    refine (yields_bindings hbelow hn hc).mono fun used hbound => ?_
    obtain ⟨bs, i, e, rfl, hbs, hi, he⟩ := hbound.bindings
    exact .binding hk hbs hi he

theorem yields_primary (hn : ts.length ≤ n) (hc : c.Reads ts) : Yields ts Primary (primary c) := by
  rw [primary_eq]
  refine .take hc fun t c₁ hrefuse htake => ?_
  cases ho : t.operandStart? with
  | none => exact hrefuse _
  | some start =>
    obtain ⟨rest, rfl, hc₁⟩ := htake (Token.isEnd_of_operandStart? ho)
    exact .cons (yields_operand hbelow ho hn hc₁)

theorem yields_unary (hn : ts.length ≤ n) (hc : c.Reads ts) : Yields ts Unary (unary c) := by
  induction hlen : ts.length using Nat.strongRecOn generalizing ts c with
  | _ k ih =>
    rw [unary_eq]
    refine .look hc fun t c₁ ht hc₁ hskip => ?_
    cases ho : t.operator? with
    | none => exact (yields_primary hbelow hn hc₁).mono fun used hp => .primary hp
    | some op =>
      simp only
      split
      · rename_i hs
        have he := Token.isEnd_of_operator? ho
        obtain ⟨rest, rfl⟩ := ht.eq_cons he
        have hc₂ : c₁.skip.Reads rest := hskip he
        rw [List.length_cons] at hn hlen
        refine .cons (.skip (.bind (ih rest.length (by omega) (by omega) hc₂ rfl) ?_))
        rintro x c₃ used rest rfl hc₃ hu
        refine .pure hc₃ ?_
        rw [List.append_nil]
        refine .sign ho ?_ hu
        cases op <;> simp_all [Operator.isSign]
      · exact .throw

theorem yields_operators (least : Int) (lhs : Expr) (hn : ts.length ≤ n) (hc : c.Reads ts) :
    Yields ts Operations (operators least lhs c) := by
  induction hlen : ts.length using Nat.strongRecOn generalizing ts c least lhs with
  | _ k ih =>
    rw [operators_eq]
    refine .look hc fun t c₁ ht hc₁ hskip => ?_
    cases ho : t.operator? with
    | none => exact .pure hc₁ .nil
    | some op =>
      simp only
      cases hp : op.precedence? with
      | none => exact .throw
      | some prec =>
        simp only
        split
        · exact .pure hc₁ .nil
        · have he := Token.isEnd_of_operator? ho
          obtain ⟨rest, rfl⟩ := ht.eq_cons he
          have hc₂ : c₁.skip.Reads rest := hskip he
          have ha : op ≠ .assign := by
            rintro rfl
            simp [Operator.precedence?] at hp
          rw [List.length_cons] at hn hlen
          refine .cons (.skip (.bind (yields_unary hbelow (by omega) hc₂) ?_))
          rintro rhs c₃ u rest rfl hc₃ hu
          rw [List.length_append] at hn hlen
          refine .look hc₃ fun ahead c₄ _ hc₄ _ => ?_
          -- what the right operand takes are operations of the same chain, before those that are left
          cases prec.rightLevel? ahead with
          | none =>
            refine (ih rest.length (by omega) least _ (by omega) hc₄ rfl).mono fun more hm => ?_
            exact .cons ho ha hu hm
          | some level =>
            refine (ih rest.length (by omega) level rhs (by omega) hc₄ rfl).bind ?_
            rintro rhs' c₅ more rest rfl hc₅ hm
            rw [List.length_append] at hn hlen
            refine (ih rest.length (by omega) least _ (by omega) hc₅ rfl).mono fun more' hm' => ?_
            exact .cons ho ha hu (hm.append hm')

end Below

theorem yields_expression (hc : c.Reads ts) : Yields ts Expression (expression c) := by
  induction hlen : ts.length using Nat.strongRecOn generalizing ts c with
  | _ k ih =>
    -- an expression inside of this one is read from fewer tokens
    have hbelow : YieldsBelow ε k := fun hlt hc => ih _ hlt hc rfl
    rw [expression_eq]
    refine (yields_unary hbelow (by omega) hc).bind ?_
    rintro lhs c₁ used rest rfl hc₁ hu
    rw [List.length_append] at hlen
    exact (yields_operators hbelow 0 lhs (by omega) hc₁).mono fun more hm => .mk hu hm

/-! ## Programs -/

/-- A comma is followed by a name; without one the list may end here. -/
theorem yields_parameters (afterComma : Bool) (hc : c.Reads ts) :
    Yields ts (fun used => ∃ ps r, used = ps ++ [r] ∧ r.closesParen = true ∧
      (Parameters ps ∨ ps = [] ∧ afterComma = false)) (parameters afterComma c) := by
  induction hlen : ts.length using Nat.strongRecOn generalizing ts c afterComma with
  | _ k ih =>
    rw [parameters_eq]
    refine .take hc fun t c₁ hrefuse htake => ?_
    split
    · rename_i ht
      obtain ⟨rest, rfl, hc₁⟩ := htake (Token.isEnd_of_kind ht (by simp))
      rw [List.length_cons] at hlen
      refine .cons (.accept hc₁ (fun _ => Token.isEnd_of_isComma) ?_ fun c₂ hc₂ => ?_)
      · rintro m c₂ rest rfl hm hc₂
        have hm : m.kind = .comma := of_decide_eq_true hm
        rw [List.length_cons] at hlen
        refine (ih rest.length (by omega) true hc₂ rfl).bind ?_
        rintro names c₃ _ rest' rfl hc₃ ⟨ps, r, rfl, hr, hps | ⟨-, habsurd⟩⟩
        · exact .pure hc₃ ⟨t :: m :: ps, r, by simp, hr, .inl (.comma ht hm hps)⟩
        · cases habsurd
      · refine (ih rest.length (by omega) false hc₂ rfl).bind ?_
        rintro names c₃ _ rest' rfl hc₃ ⟨ps, r, rfl, hr, hps | ⟨rfl, -⟩⟩
        · exact .pure hc₃ ⟨t :: ps, r, by simp, hr, .inl (.cons ht hps)⟩
        · exact .pure hc₃ ⟨[t], r, by simp, hr, .inl (.one ht)⟩
    · split
      · rename_i hr
        simp only [Bool.and_eq_true, Bool.not_eq_true'] at hr
        obtain ⟨rest, rfl, hc₁⟩ :=
          htake (Token.isEnd_of_kind (Token.kind_of_closesParen hr.1) (by simp))
        exact .cons (.pure hc₁ ⟨[], t, rfl, hr.1, .inr ⟨rfl, hr.2⟩⟩)
      · exact hrefuse _

theorem yields_prototype (hc : c.Reads ts) : Yields ts Grammar.Prototype (prototype c) := by
  rw [prototype_eq]
  refine .take hc fun t c₁ hrefuse htake => ?_
  split
  · rename_i ht
    obtain ⟨rest, rfl, hc₁⟩ := htake (Token.isEnd_of_kind ht (by simp))
    refine .cons (.take hc₁ fun l c₂ hrefuse htake => ?_)
    split
    · rename_i hl
      obtain ⟨rest, rfl, hc₂⟩ := htake (Token.isEnd_of_opensParen hl)
      refine .cons ((yields_parameters false hc₂).bind ?_)
      rintro names c₃ _ rest' rfl hc₃ ⟨ps, r, rfl, hr, hps | ⟨rfl, -⟩⟩
      · refine .pure hc₃ ?_
        rw [List.append_nil]
        exact .params ht hl hps hr
      · exact .pure hc₃ (.empty ht hl hr)
    · exact hrefuse _
  · exact hrefuse _

theorem yields_itemFrom {t : Token} (hl : c.lookahead = some t) (hc : c.Reads (t :: ts))
    (hskip : c.skip.Reads ts) : Yields (t :: ts) Grammar.Item (itemFrom t c.skip) := by
  rw [itemFrom_eq]
  split
  · rename_i hd
    refine .cons ((yields_prototype hskip).bind ?_)
    rintro proto c₁ p rest rfl hc₁ hp
    refine (yields_expression hc₁).bind ?_
    rintro body c₂ e rest rfl hc₂ he
    refine .pure hc₂ ?_
    rw [List.append_nil]
    exact .define hd hp he
  · split
    · rename_i hx
      refine .cons ((yields_prototype hskip).bind ?_)
      rintro proto c₁ p rest rfl hc₁ hp
      refine .pure hc₁ ?_
      rw [List.append_nil]
      exact .external hx hp
    · have hback : Yields (t :: ts) (· = []) (unread t c.skip) := by
        rw [unread_skip hl]
        exact .ok rfl hc rfl
      refine hback.bind ?_
      rintro _ c₁ _ rest hts hc₁ rfl
      rw [List.nil_append] at hts
      subst hts
      refine (yields_expression hc₁).bind ?_
      rintro body c₂ e rest hts hc₂ he
      refine .pure hc₂ ?_
      rw [List.nil_append, List.append_nil]
      exact .evaluate he

/-- What the reader of items does with the tokens `ts`. -/
inductive NextItem (ts : List Token) : EStateM.Result (Failure ε) (Cursor ε) (Option Item) → Prop
  | none {c : Cursor ε} (hs : Semicolons ts) : NextItem ts (.ok none c)
  | some {s used rest : List Token} {i : Item} {c : Cursor ε} (hts : ts = s ++ (used ++ rest))
      (hs : Semicolons s) (hi : Grammar.Item used) (hc : c.Reads rest) : NextItem ts (.ok (some i) c)
  | error {g : ParseError} {c : Cursor ε} : NextItem ts (.error (.grammar g) c)

theorem nextItem_item (hc : c.Reads ts) : NextItem ts (item c) := by
  induction ts generalizing c with
  | nil =>
    obtain ⟨t, c', hl, ht, -, -⟩ := hc.look
    rw [item_of_look_end hl ht]
    exact .none (by simp [Semicolons])
  | cons t ts ih =>
    obtain ⟨t', c', hl, rfl, hc', hskip⟩ := hc.look
    have hc₁ : c'.skip.Reads ts := hskip hc.isEnd
    rw [item_of_look hl hc.isEnd]
    split
    · rename_i ht
      have hcons {s : List Token} (hs : Semicolons s) : Semicolons (t' :: s) := by
        simpa [Semicolons, ht] using hs
      generalize hr : item c'.skip = r
      have h := ih hc₁
      rw [hr] at h
      cases h with
      | none hs => exact .none (hcons hs)
      | some hts hs hi hc₂ => exact .some (by rw [hts, List.cons_append]) (hcons hs) hi hc₂
      | error => exact .error
    · have h := yields_itemFrom (Cursor.lookahead_peek (peek_of_look hl)) hc' hc₁
      rw [map_itemFrom]
      generalize itemFrom t' c'.skip = r at h
      cases h with
      | ok hts hc₂ hi => exact .some (s := []) hts (by simp [Semicolons]) hi hc₂
      | error => exact .error

/-- A program that is read without an error is derivable, and the error of one that is not is an error
of the grammar. -/
theorem program_derivable (hc : c.Reads ts) :
    match Parse.program c with
    | .ok _ => Program ts
    | .error e => ∃ g, e = .grammar g := by
  induction hlen : ts.length using Nat.strongRecOn generalizing ts c with
  | _ k ih =>
    rw [program_eq]
    have h := nextItem_item hc
    generalize item c = r at h
    cases h with
    | none hs => exact ⟨ts, [], by simp, hs, .nil⟩
    | error => exact ⟨_, rfl⟩
    | @some s used rest i c' hts hs hi hc' =>
      have hpos := List.length_pos_iff.2 hi.ne_nil
      simp only [hts, List.length_append] at hlen
      have hrest := ih rest.length (by omega) hc' rfl
      simp only
      cases hp : Parse.program c' with
      | error e =>
        rw [hp] at hrest
        exact hrest
      | ok items =>
        rw [hp] at hrest
        obtain ⟨s', is, rfl, hs', his⟩ := hrest
        refine ⟨s, used ++ s' ++ is, ?_, hs, .cons hi hs' his⟩
        rw [hts, List.append_assoc used]

end Reading

namespace Parse

/-- The parser accepts exactly the token lists that the grammar derives, and refuses every other one
with an error of the grammar. -/
theorem program_ok_iff_derivable {ε : Type} {ts : List Token} (h : ∀ t ∈ ts, t.IsLexed)
    (ending : Position) :
    ((∃ items, program (.ofStream ⟨ts.map .ok, ending⟩ : Cursor ε) = .ok items) ↔ Program ts) ∧
      (¬ Program ts →
        ∃ e, program (.ofStream ⟨ts.map .ok, ending⟩ : Cursor ε) = .error (.grammar e)) := by
  have hc : (Cursor.ofStream ⟨ts.map .ok, ending⟩ : Cursor ε).Reads ts :=
    .ofStream (fun t ht => (h t ht).isSound) ending
  have hsound := Reading.program_derivable hc
  refine ⟨⟨?_, fun hp => Reading.program_of_separated hp.separated hc⟩, fun hno => ?_⟩
  · rintro ⟨items, hitems⟩
    rw [hitems] at hsound
    exact hsound
  · cases hp : program (Cursor.ofStream ⟨ts.map .ok, ending⟩ : Cursor ε) with
    | ok items =>
      rw [hp] at hsound
      exact absurd hsound hno
    | error e =>
      rw [hp] at hsound
      obtain ⟨g, rfl⟩ := hsound
      exact ⟨g, rfl⟩

/-- An assignment is no expression. -/
theorem program_ok_iff_derivable_assignment :
    ∃ ts ending, TokenStream.ofString "f(x) = 1" = ⟨ts.map .ok, ending⟩ ∧ (∀ t ∈ ts, t.IsLexed) ∧
      ¬ Program ts ∧
      ∃ e, program (.ofStream ⟨ts.map .ok, ending⟩ : Cursor ScanError) = .error (.grammar e) := by
  have hstream : TokenStream.ofString "f(x) = 1" =
      ⟨((TokenStream.ofString "f(x) = 1").answers.filterMap Except.toOption).map .ok, ⟨1, 9, 8⟩⟩ := by
    with_unfolding_all rfl
  generalize (TokenStream.ofString "f(x) = 1").answers.filterMap Except.toOption = ts at hstream
  have hlexed : ∀ t ∈ ts, t.IsLexed := by
    intro t ht
    have hmem : .ok t ∈ (TokenStream.ofString "f(x) = 1").answers := by
      rw [hstream]
      exact List.mem_map_of_mem ht
    exact TokenStream.isLexed_of_mem_ofBytes hmem
  have hrefused : ∀ items,
      program (.ofStream ⟨ts.map .ok, ⟨1, 9, 8⟩⟩ : Cursor ScanError) ≠ .ok items := by
    intro items
    have herror : program (.ofStream (TokenStream.ofString "f(x) = 1")) =
        .error (.grammar ⟨.notBinary .assign, ⟨.operator, "=", ⟨1, 6, 5⟩⟩⟩) := by
      with_unfolding_all rfl
    rw [← hstream, herror]
    simp
  have haccepts := program_ok_iff_derivable (ε := ScanError) hlexed ⟨1, 9, 8⟩
  have hno : ¬ Program ts := fun hp => by
    obtain ⟨items, hitems⟩ := haccepts.1.2 hp
    exact hrefused items hitems
  exact ⟨ts, ⟨1, 9, 8⟩, hstream, hlexed, hno, haccepts.2 hno⟩

end Parse

end ScalarLang
