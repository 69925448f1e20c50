import ScalarLang.Token.Basic
/-!
# The grammar of the language

Every construct derives certain token lists. The grammar is ambiguous: an operator after the body of a
binding may belong to the body or not, and two expressions in a row may also read as one.
`Program.separated` shows that every program has a derivation in which no item could go on with the first
token of the next one.
-/
namespace ScalarLang

namespace Token

theorem kind_of_isKeyword {t : Token} {k : Keyword} (h : t.isKeyword k = true) : t.kind = .keyword := by
  by_cases hk : t.kind = .keyword
  · exact hk
  · simp [isKeyword, keyword?, hk] at h

theorem kind_of_bracket? {t : Token} {b : Bracket} (h : t.bracket? = some b) : t.kind = .bracket := by
  by_cases hk : t.kind = .bracket
  · exact hk
  · simp [bracket?, hk] at h

theorem kind_of_opensParen {t : Token} (h : t.opensParen = true) : t.kind = .bracket :=
  kind_of_bracket? (of_decide_eq_true h)

theorem kind_of_closesParen {t : Token} (h : t.closesParen = true) : t.kind = .bracket :=
  kind_of_bracket? (of_decide_eq_true h)

theorem kind_of_operator? {t : Token} {op : Operator} (h : t.operator? = some op) :
    t.kind = .operator := by
  by_cases hk : t.kind = .operator
  · exact hk
  · simp [operator?, hk] at h

theorem closesParen_of_kind {t : Token} (h : t.kind ≠ .bracket) : t.closesParen = false := by
  simp [closesParen, bracket?, h]

theorem opensParen_of_kind {t : Token} (h : t.kind ≠ .bracket) : t.opensParen = false := by
  simp [opensParen, bracket?, h]

end Token

namespace Grammar

/-! ## Constructs -/

mutual

/-- `unary {binop unary}` -/
inductive Expression : List Token → Prop
  | mk {u more : List Token} (hu : Unary u) (hm : Operations more) : Expression (u ++ more)

/-- `{binop unary}`, where every operator but the assignment is binary -/
inductive Operations : List Token → Prop
  | nil : Operations []
  | cons {t : Token} {op : Operator} {u more : List Token} (ho : t.operator? = some op)
      (ha : op ≠ .assign) (hu : Unary u) (hm : Operations more) : Operations (t :: (u ++ more))

/-- `('+' | '-') unary | primary` -/
inductive Unary : List Token → Prop
  | sign {t : Token} {op : Operator} {u : List Token} (ho : t.operator? = some op)
      (hs : op = .add ∨ op = .sub) (hu : Unary u) : Unary (t :: u)
  | primary {p : List Token} (hp : Primary p) : Unary p

/-- `integer | float | identifier | identifier '(' [expression {',' expression}] ')' |
'(' expression ')' | 'var' binding {',' binding} 'in' expression` -/
inductive Primary : List Token → Prop
  | integer {t : Token} (ht : t.kind = .integer) : Primary [t]
  | float {t : Token} (ht : t.kind = .float) : Primary [t]
  | name {t : Token} (ht : t.kind = .identifier) : Primary [t]
  | call {t l r : Token} (ht : t.kind = .identifier) (hl : l.opensParen = true)
      (hr : r.closesParen = true) : Primary [t, l, r]
  | callWith {t l r : Token} {es : List Token} (ht : t.kind = .identifier) (hl : l.opensParen = true)
      (hes : Expressions es) (hr : r.closesParen = true) : Primary (t :: l :: (es ++ [r]))
  | paren {l r : Token} {e : List Token} (hl : l.opensParen = true) (he : Expression e)
      (hr : r.closesParen = true) : Primary (l :: (e ++ [r]))
  | binding {v i : Token} {bs e : List Token} (hv : v.isKeyword .binding = true) (hb : Bindings bs)
      (hi : i.isKeyword .within = true) (he : Expression e) : Primary (v :: (bs ++ i :: e))

/-- `expression {',' expression}` -/
inductive Expressions : List Token → Prop
  | one {e : List Token} (he : Expression e) : Expressions e
  | cons {t : Token} {e es : List Token} (he : Expression e) (ht : t.kind = .comma)
      (hes : Expressions es) : Expressions (e ++ t :: es)

/-- `binding {',' binding}` -/
inductive Bindings : List Token → Prop
  | one {b : List Token} (hb : Binding b) : Bindings b
  | cons {t : Token} {b bs : List Token} (hb : Binding b) (ht : t.kind = .comma)
      (hbs : Bindings bs) : Bindings (b ++ t :: bs)

/-- `identifier ['=' expression]` -/
inductive Binding : List Token → Prop
  | bare {t : Token} (ht : t.kind = .identifier) : Binding [t]
  | init {t a : Token} {e : List Token} (ht : t.kind = .identifier) (ha : a.operator? = some .assign)
      (he : Expression e) : Binding (t :: a :: e)

end

mutual

/-- `binding {',' binding} 'in' expression` -/
inductive Bound : List Token → Prop
  | mk {b ts : List Token} (hb : Binding b) (hts : AfterBinding ts) : Bound (b ++ ts)

/-- What follows the first binding: `{',' binding} 'in' expression` -/
inductive AfterBinding : List Token → Prop
  | comma {t : Token} {ts : List Token} (ht : t.kind = .comma) (hts : Bound ts) :
      AfterBinding (t :: ts)
  | body {i : Token} {e : List Token} (hi : i.isKeyword .within = true) (he : Expression e) :
      AfterBinding (i :: e)

end

/-- `identifier {[','] identifier}` -/
inductive Parameters : List Token → Prop
  | one {t : Token} (ht : t.kind = .identifier) : Parameters [t]
  | cons {t : Token} {ps : List Token} (ht : t.kind = .identifier) (hps : Parameters ps) :
      Parameters (t :: ps)
  | comma {t c : Token} {ps : List Token} (ht : t.kind = .identifier) (hc : c.kind = .comma)
      (hps : Parameters ps) : Parameters (t :: c :: ps)

/-- `identifier '(' [identifier {[','] identifier}] ')'` -/
inductive Prototype : List Token → Prop
  | empty {t l r : Token} (ht : t.kind = .identifier) (hl : l.opensParen = true)
      (hr : r.closesParen = true) : Prototype [t, l, r]
  | params {t l r : Token} {ps : List Token} (ht : t.kind = .identifier) (hl : l.opensParen = true)
      (hps : Parameters ps) (hr : r.closesParen = true) : Prototype (t :: l :: (ps ++ [r]))

/-- `'def' prototype expression | 'extern' prototype | expression` -/
inductive Item : List Token → Prop
  | define {d : Token} {p e : List Token} (hd : d.isKeyword .define = true) (hp : Prototype p)
      (he : Expression e) : Item (d :: (p ++ e))
  | external {x : Token} {p : List Token} (hx : x.isKeyword .external = true) (hp : Prototype p) :
      Item (x :: p)
  | evaluate {e : List Token} (he : Expression e) : Item e

/-- `{';'}` -/
def Semicolons (ts : List Token) : Prop := ∀ t ∈ ts, t.kind = .semicolon

/-- `{item {';'}}` -/
inductive Items : List Token → Prop
  | nil : Items []
  | cons {i s ts : List Token} (hi : Item i) (hs : Semicolons s) (hts : Items ts) :
      Items (i ++ s ++ ts)

/-- `{';'} {item {';'}}` -/
def Program (ts : List Token) : Prop := ∃ s is, ts = s ++ is ∧ Semicolons s ∧ Items is

/-! ## First and last tokens -/

theorem Unary.ne_nil {u : List Token} (h : Unary u) : u ≠ [] := by
  cases h with
  | sign => simp
  | primary hp => cases hp <;> simp

theorem Expression.ne_nil {e : List Token} (h : Expression e) : e ≠ [] := by
  cases h with
  | mk hu _ => simp [hu.ne_nil]

theorem Item.ne_nil {i : List Token} (h : Item i) : i ≠ [] := by
  cases h with
  | define => simp
  | external => simp
  | evaluate he => exact he.ne_nil

/-! ## Bindings -/

theorem Bindings.bound {bs e : List Token} {i : Token} (h : Bindings bs)
    (hi : i.isKeyword .within = true) (he : Expression e) : Bound (bs ++ i :: e) := by
  cases h with
  | one hb => exact .mk hb (.body hi he)
  | cons hb ht hbs =>
    have := hbs.bound hi he
    simpa using Bound.mk hb (.comma ht this)
termination_by bs.length
decreasing_by
  simp only [List.length_append, List.length_cons]
  omega

theorem Bound.bindings {ts : List Token} (h : Bound ts) :
    ∃ bs i e, ts = bs ++ i :: e ∧ Bindings bs ∧ i.isKeyword .within = true ∧ Expression e := by
  obtain ⟨hb, hts⟩ := h
  cases hts with
  | body hi he => exact ⟨_, _, _, rfl, .one hb, hi, he⟩
  | comma ht hts =>
    obtain ⟨bs, i, e, rfl, hbs, hi, he⟩ := hts.bindings
    exact ⟨_, i, e, by simp, .cons hb ht hbs, hi, he⟩
termination_by ts.length
decreasing_by
  simp only [List.length_append, List.length_cons]
  omega

/-! ## Expressions that go on -/

theorem Operations.append {xs ys : List Token} (h : Operations xs) (h' : Operations ys) :
    Operations (xs ++ ys) := by
  cases h with
  | nil => exact h'
  | cons ho ha hu hm =>
    have := hm.append h'
    simpa using Operations.cons ho ha hu this
termination_by xs.length
decreasing_by
  simp only [List.length_append, List.length_cons]
  omega

/-- Operations after an expression belong to it. -/
theorem Expression.append {e more : List Token} (h : Expression e) (hm : Operations more) :
    Expression (e ++ more) := by
  cases h with
  | mk hu hm' =>
    rw [List.append_assoc]
    exact .mk hu (hm'.append hm)

/-- The last token of a list that is not empty stays the last one behind other tokens. -/
theorem getLast?_append {xs ys : List Token} (h : ys ≠ []) : (xs ++ ys).getLast? = ys.getLast? := by
  rw [List.getLast?_append]
  cases hl : ys.getLast? with
  | none => simp_all
  | some t => rfl

mutual

/-- A name at the end of an expression may as well start another operand, such as a call. -/
theorem Expression.extend_last {t : Token} {c e : List Token} (ht : t.kind = .identifier)
    (hc : Primary (t :: c)) (h : Expression e) (hlast : e.getLast? = some t) :
    Expression (e ++ c) := by
  cases h with
  | @mk u more hu hm =>
    by_cases hnil : more = []
    · subst hnil
      rw [List.append_nil] at hlast ⊢
      simpa using Expression.mk (hu.extend_last ht hc hlast) .nil
    · rw [getLast?_append hnil] at hlast
      rw [List.append_assoc]
      exact .mk hu (hm.extend_last ht hc hlast)
termination_by 2 * e.length + 1
decreasing_by
  all_goals
    have := List.length_pos_iff.2 hu.ne_nil
    subst_vars
    rw [List.length_append]
    omega

theorem Operations.extend_last {t : Token} {c more : List Token} (ht : t.kind = .identifier)
    (hc : Primary (t :: c)) (h : Operations more) (hlast : more.getLast? = some t) :
    Operations (more ++ c) := by
  cases h with
  | nil => simp at hlast
  | @cons t' op u more' ho ha hu hm =>
    rw [← List.singleton_append, getLast?_append (by simp [hu.ne_nil])] at hlast
    by_cases hnil : more' = []
    · subst hnil
      rw [List.append_nil] at hlast
      simpa using Operations.cons ho ha (hu.extend_last ht hc hlast) .nil
    · rw [getLast?_append hnil] at hlast
      simpa using Operations.cons ho ha hu (hm.extend_last ht hc hlast)
termination_by 2 * more.length

theorem Unary.extend_last {t : Token} {c u : List Token} (ht : t.kind = .identifier)
    (hc : Primary (t :: c)) (h : Unary u) (hlast : u.getLast? = some t) : Unary (u ++ c) := by
  cases h with
  | @sign t' op u' ho hs hu =>
    rw [← List.singleton_append, getLast?_append hu.ne_nil] at hlast
    exact .sign ho hs (hu.extend_last ht hc hlast)
  | @primary p hp =>
    cases hp with
    | integer h =>
      simp only [List.getLast?_singleton, Option.some.injEq] at hlast
      simp [hlast, ht] at h
    | float h =>
      simp only [List.getLast?_singleton, Option.some.injEq] at hlast
      simp [hlast, ht] at h
    | name h =>
      simp only [List.getLast?_singleton, Option.some.injEq] at hlast
      subst hlast
      exact .primary hc
    | call _ _ hr =>
      cases hlast
      exact absurd ht (by simp [Token.kind_of_closesParen hr])
    | callWith _ _ _ hr =>
      simp only [← List.cons_append, List.getLast?_concat, Option.some.injEq] at hlast
      subst hlast
      exact absurd ht (by simp [Token.kind_of_closesParen hr])
    | paren _ _ hr =>
      simp only [← List.cons_append, List.getLast?_concat, Option.some.injEq] at hlast
      subst hlast
      exact absurd ht (by simp [Token.kind_of_closesParen hr])
    | @binding v i bs e hv hb hi he =>
      rw [← List.singleton_append, ← List.singleton_append (l := e), ← List.append_assoc,
        ← List.append_assoc, getLast?_append he.ne_nil] at hlast
      simpa using Unary.primary (.binding hv hb hi (he.extend_last ht hc hlast))
termination_by 2 * u.length

end

/-! ## Items apart -/

/-- What `rest` starts with cannot go on what `ts` ends with: it is no operator, and after a name no
open parenthesis. -/
def Stops (ts rest : List Token) : Prop :=
  ∀ t, rest.head? = some t → t.operator? = none ∧
    ∀ u, ts.getLast? = some u → u.kind = .identifier → t.opensParen = false

theorem Stops.of_kind {ts rest : List Token} {t : Token} (ho : t.kind ≠ .operator)
    (hp : t.opensParen = false) : Stops ts (t :: rest) := by
  intro t' ht'
  cases ht'
  exact ⟨by simp [Token.operator?, ho], fun _ _ _ => hp⟩

/-- Only the last token of what comes before matters. -/
theorem Stops.append {xs ys rest : List Token} (h : Stops ys rest) (hne : ys ≠ []) :
    Stops (xs ++ ys) rest := by
  intro t ht
  obtain ⟨ho, hp⟩ := h t ht
  refine ⟨ho, fun u hu => hp u ?_⟩
  rwa [getLast?_append hne] at hu

/-- What stops a list stops what it ends with. -/
theorem Stops.of_suffix {xs ys rest : List Token} (h : Stops ys rest) (hs : xs <:+ ys) :
    Stops xs rest := by
  intro t ht
  obtain ⟨ho, hp⟩ := h t ht
  refine ⟨ho, fun u hu => hp u ?_⟩
  obtain ⟨pre, rfl⟩ := hs
  rw [getLast?_append, hu]
  rintro rfl
  simp at hu

/-- An operand starts with no operator. -/
theorem Primary.head {p : List Token} (h : Primary p) :
    ∃ t more, p = t :: more ∧ t.kind ≠ .operator := by
  cases h with
  | integer h => exact ⟨_, _, rfl, by simp [h]⟩
  | float h => exact ⟨_, _, rfl, by simp [h]⟩
  | name h => exact ⟨_, _, rfl, by simp [h]⟩
  | call h => exact ⟨_, _, rfl, by simp [h]⟩
  | callWith h => exact ⟨_, _, rfl, by simp [h]⟩
  | paren h => exact ⟨_, _, rfl, by simp [Token.kind_of_opensParen h]⟩
  | binding h => exact ⟨_, _, rfl, by simp [Token.kind_of_isKeyword h]⟩

/-- A program whose items are as long as they can be. -/
inductive Separated : List Token → Prop
  | nil : Separated []
  | semicolon {t : Token} {ts : List Token} (ht : t.kind = .semicolon) (hts : Separated ts) :
      Separated (t :: ts)
  | external {x : Token} {p ts : List Token} (hx : x.isKeyword .external = true) (hp : Prototype p)
      (hts : Separated ts) : Separated (x :: (p ++ ts))
  | define {d : Token} {p e ts : List Token} (hd : d.isKeyword .define = true) (hp : Prototype p)
      (he : Expression e) (hs : Stops e ts) (hts : Separated ts) : Separated (d :: (p ++ (e ++ ts)))
  | evaluate {e ts : List Token} (he : Expression e) (hs : Stops e ts) (hts : Separated ts) :
      Separated (e ++ ts)

/-- Two expressions of which the second could go on the first are one. -/
theorem Expression.merge {e e' rest : List Token} (h : Expression e) (h' : Expression e')
    (hs : ¬ Stops e (e' ++ rest)) : Expression (e ++ e') := by
  obtain ⟨hu, hm⟩ := h'
  cases hu with
  | sign ho hsign hu =>
    refine h.append (.cons ho ?_ hu hm)
    rcases hsign with rfl | rfl <;> simp
  | primary hp =>
    obtain ⟨t, more, rfl, hk⟩ := hp.head
    have hnone : t.operator? = none := by simp [Token.operator?, hk]
    simp only [Stops, List.cons_append, List.head?_cons, Option.some.injEq, forall_eq', hnone,
      true_and, Classical.not_forall, Bool.not_eq_false] at hs
    obtain ⟨name, hlast, hname, hopen⟩ := hs
    have hbracket := Token.kind_of_opensParen hopen
    cases hp with
    | paren hl he hr =>
      have hcall : Expression (e ++ t :: (_ ++ [_])) :=
        h.extend_last hname (.callWith hname hl (.one he) hr) hlast
      simpa using hcall.append hm
    | integer h => simp [hbracket] at h
    | float h => simp [hbracket] at h
    | name h => simp [hbracket] at h
    | call h => simp [hbracket] at h
    | callWith h => simp [hbracket] at h
    | binding h => simp [Token.kind_of_isKeyword h] at hbracket

/-- An expression before a separated program goes on as far as it can. -/
theorem Separated.absorb {e ts : List Token} (he : Expression e) (h : Separated ts) :
    ∃ more ts', ts = more ++ ts' ∧ Expression (e ++ more) ∧ Stops (e ++ more) ts' ∧
      Separated ts' := by
  have hstop (hs : Stops e ts) : ∃ more ts', ts = more ++ ts' ∧ Expression (e ++ more) ∧
      Stops (e ++ more) ts' ∧ Separated ts' :=
    ⟨[], ts, rfl, by simpa using he, by simpa using hs, h⟩
  cases h with
  | nil => exact hstop (by simp [Stops])
  | semicolon ht _ => exact hstop (.of_kind (by simp [ht]) (Token.opensParen_of_kind (by simp [ht])))
  | external hx _ _ =>
    have hk := Token.kind_of_isKeyword hx
    exact hstop (.of_kind (by simp [hk]) (Token.opensParen_of_kind (by simp [hk])))
  | define hd _ _ _ _ =>
    have hk := Token.kind_of_isKeyword hd
    exact hstop (.of_kind (by simp [hk]) (Token.opensParen_of_kind (by simp [hk])))
  | @evaluate e' ts' he' hs' hts' =>
    by_cases hs : Stops e (e' ++ ts')
    · exact hstop hs
    · exact ⟨e', ts', rfl, he.merge he' hs, hs'.append he'.ne_nil, hts'⟩

theorem Separated.item {i ts : List Token} (hi : Item i) (h : Separated ts) : Separated (i ++ ts) := by
  cases hi with
  | external hx hp => exact .external hx hp h
  | define hd hp he =>
    obtain ⟨more, ts', rfl, he', hs, hts'⟩ := h.absorb he
    simpa using Separated.define hd hp he' hs hts'
  | evaluate he =>
    obtain ⟨more, ts', rfl, he', hs, hts'⟩ := h.absorb he
    simpa using Separated.evaluate he' hs hts'

theorem Separated.semicolons {s ts : List Token} (hs : Semicolons s) (h : Separated ts) :
    Separated (s ++ ts) := by
  induction s with
  | nil => exact h
  | cons t s ih =>
    exact .semicolon (hs t (by simp)) (ih fun u hu => hs u (by simp [hu]))

/-- Every program can be cut into items that are as long as they can be. -/
theorem Program.separated {ts : List Token} (h : Program ts) : Separated ts := by
  obtain ⟨s, is, rfl, hs, his⟩ := h
  refine .semicolons hs ?_
  induction his with
  | nil => exact .nil
  | cons hi hs' _ ih =>
    rw [List.append_assoc]
    exact .item hi (.semicolons hs' ih)

end Grammar

end ScalarLang
