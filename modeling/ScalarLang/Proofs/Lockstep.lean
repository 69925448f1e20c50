import Mathlib.Data.List.Forall2
import ScalarLang.Proofs.Reading
/-!
# Two cursors read in lockstep

A `Lockstep` relates cursors, tokens, trees and failures so that a look at two related cursors gives
related answers, and related parts build related trees. Then every grammar function takes related cursors
to related outcomes. The relation between the cursors has to survive the taking of a token only if the
token is no boundary: inside an item, every function that takes a boundary puts it back. Inside an item
it does not matter either whether a semicolon or the end of the input stops it, which is all that a
`Parallel` asks. `Aligned` readings go on in parallel from item to item, up to their ends.

An invariant of one reading is the case of a cursor that is related to itself.
-/
namespace ScalarLang

/-- Tokens that differ at most in their places. -/
def Token.Same (t u : Token) : Prop := t.kind = u.kind ∧ t.text = u.text

namespace Token.Same

variable {t u : Token} (h : t.Same u)
include h

theorem eq_place : u = { t with pos := u.pos } := by
  obtain ⟨hk, ht⟩ := h
  rw [hk, ht]

theorem isEnd : u.isEnd = t.isEnd := by rw [h.eq_place]; rfl

theorem isBoundary : u.isBoundary = t.isBoundary := by rw [h.eq_place]; rfl

theorem operator? : u.operator? = t.operator? := by rw [h.eq_place]; rfl

theorem operandStart? : u.operandStart? = t.operandStart? := by rw [h.eq_place]; rfl

theorem bracket? : u.bracket? = t.bracket? := by rw [h.eq_place]; rfl

theorem isComma : u.isComma = t.isComma := by rw [h.eq_place]; rfl

theorem isKeyword (k : Keyword) : u.isKeyword k = t.isKeyword k := by rw [h.eq_place]; rfl

end Token.Same

/-- A semicolon or the end of the input. -/
def Token.Stops (t : Token) : Prop := t.kind = .endOfInput ∨ t.kind = .semicolon

/-- Tokens that no item tells apart. -/
def Token.ReadsAs (t u : Token) : Prop := t.Same u ∨ (t.Stops ∧ u.Stops)

namespace Token

section Stops

variable {t : Token} (h : t.Stops)
include h

theorem Stops.isBoundary : t.isBoundary = true := by
  rcases h with h | h <;> simp [Token.isBoundary, isEnd, h]

theorem Stops.operator? : t.operator? = none := by
  rcases h with h | h <;> simp [Token.operator?, h]

theorem Stops.bracket? : t.bracket? = none := by
  rcases h with h | h <;> simp [Token.bracket?, h]

theorem Stops.isComma : t.isComma = false := by
  rcases h with h | h <;> simp [Token.isComma, h]

theorem Stops.isKeyword (k : Keyword) : t.isKeyword k = false := by
  rcases h with h | h <;> simp [Token.isKeyword, keyword?, h]

theorem Stops.kind_ne : t.kind ≠ .identifier := by
  rcases h with h | h <;> simp [h]

theorem Stops.operandStart? : t.operandStart? = none := by
  rcases h with h | h <;> simp [Token.operandStart?, opensParen, Token.bracket?, Token.isKeyword, keyword?, h]

end Stops

end Token

namespace Token.ReadsAs

variable {t u : Token} (h : t.ReadsAs u)
include h

theorem isBoundary : u.isBoundary = t.isBoundary := by
  rcases h with h | ⟨ht, hu⟩
  · exact h.isBoundary
  · rw [ht.isBoundary, hu.isBoundary]

theorem operator? : u.operator? = t.operator? := by
  rcases h with h | ⟨ht, hu⟩
  · exact h.operator?
  · rw [ht.operator?, hu.operator?]

theorem operandStart? : u.operandStart? = t.operandStart? := by
  rcases h with h | ⟨ht, hu⟩
  · exact h.operandStart?
  · rw [ht.operandStart?, hu.operandStart?]

theorem bracket? : u.bracket? = t.bracket? := by
  rcases h with h | ⟨ht, hu⟩
  · exact h.bracket?
  · rw [ht.bracket?, hu.bracket?]

theorem opensParen : u.opensParen = t.opensParen := by
  rw [Token.opensParen, h.bracket?, Token.opensParen]

theorem closesParen : u.closesParen = t.closesParen := by
  rw [Token.closesParen, h.bracket?, Token.closesParen]

theorem isComma : u.isComma = t.isComma := by
  rcases h with h | ⟨ht, hu⟩
  · exact h.isComma
  · rw [ht.isComma, hu.isComma]

theorem isKeyword (k : Keyword) : u.isKeyword k = t.isKeyword k := by
  rcases h with h | ⟨ht, hu⟩
  · exact h.isKeyword k
  · rw [ht.isKeyword, hu.isKeyword]

theorem kind_eq_identifier : u.kind = .identifier ↔ t.kind = .identifier := by
  rcases h with h | ⟨ht, hu⟩
  · rw [h.1]
  · simp [ht.kind_ne, hu.kind_ne]

theorem closes {t' u' : Token} (h' : t'.ReadsAs u') : u.closes u' = t.closes t' := by
  simp [Token.closes, h.bracket?, h'.bracket?]

theorem rightLevel? (p : Precedence) : p.rightLevel? u = p.rightLevel? t := by
  simp [Precedence.rightLevel?, h.operator?]

/-- An item ends and the next one starts after both tokens, or after none. -/
theorem kind_eq_semicolon (ht : t.isEnd = false) (hu : u.isEnd = false) :
    u.kind = .semicolon ↔ t.kind = .semicolon := by
  rcases h with h | ⟨hs, hs'⟩
  · rw [h.1]
  · simp only [isEnd, decide_eq_false_iff_not] at ht hu
    simp only [hs.resolve_left ht, hs'.resolve_left hu]

theorem semicolon_of_isEnd (ht : t.isEnd = true) (hu : u.isEnd = false) : u.kind = .semicolon := by
  rcases h with h | ⟨-, hs⟩
  · rw [h.isEnd, ht] at hu
    cases hu
  · exact hs.resolve_left (by simpa [isEnd] using hu)

/-- A token that starts an operand is read with its text. -/
theorem text_eq {start : OperandStart} (ho : t.operandStart? = some start) : t.text = u.text := by
  rcases h with h | ⟨ht, -⟩
  · exact h.2
  · rw [ht.operandStart?] at ho
    cases ho

end Token.ReadsAs

namespace Token

theorem isBoundary_of_operator? {t : Token} {op : Operator} (h : t.operator? = some op) :
    t.isBoundary = false := by
  unfold operator? at h
  split at h
  · rename_i hk
    simp [isBoundary, isEnd, isKeyword, keyword?, hk]
  · simp at h

theorem isBoundary_of_kind {t : Token} {k : TokenKind} (h : t.kind = k) (he : k ≠ .endOfInput)
    (hs : k ≠ .semicolon) (hk : k ≠ .keyword) : t.isBoundary = false := by
  simp [isBoundary, isEnd, isKeyword, keyword?, h, he, hs, hk]

theorem isBoundary_of_bracket? {t : Token} {b : Bracket} (h : t.bracket? = some b) :
    t.isBoundary = false := by
  unfold bracket? at h
  split at h
  · exact isBoundary_of_kind ‹_› (by simp) (by simp) (by simp)
  · simp at h

theorem isBoundary_of_opensParen {t : Token} (h : t.opensParen = true) : t.isBoundary = false :=
  isBoundary_of_bracket? (by simpa [opensParen] using h)

theorem isBoundary_of_closesParen {t : Token} (h : t.closesParen = true) : t.isBoundary = false :=
  isBoundary_of_bracket? (by simpa [closesParen] using h)

theorem isBoundary_of_closes {t u : Token} (h : t.closes u = true) : t.isBoundary = false := by
  unfold closes at h
  split at h
  · exact isBoundary_of_bracket? ‹_›
  · simp at h

theorem isEnd_of_closesParen {t : Token} (h : t.closesParen = true) : t.isEnd = false :=
  Parse.isEnd_of_isBoundary (isBoundary_of_closesParen h)

theorem isEnd_of_closes {t u : Token} (h : t.closes u = true) : t.isEnd = false :=
  Parse.isEnd_of_isBoundary (isBoundary_of_closes h)

theorem isBoundary_of_isComma {t : Token} (h : t.isComma = true) : t.isBoundary = false :=
  isBoundary_of_kind (k := .comma) (by simpa [isComma] using h) (by simp) (by simp) (by simp)

theorem isBoundary_of_isKeyword {t : Token} {k : Keyword} (h : t.isKeyword k = true)
    (hd : k ≠ .define) (hx : k ≠ .external) : t.isBoundary = false := by
  have he := isEnd_of_isKeyword h
  have hs : t.kind ≠ .semicolon := by
    intro hs
    simp [isKeyword, keyword?, hs] at h
  have hk : t.keyword? = some k := by simpa [isKeyword] using h
  simp [isBoundary, he, hs, isKeyword, hk, hd, hx]

theorem isBoundary_of_operandStart? {t : Token} {s : OperandStart} (h : t.operandStart? = some s) :
    t.isBoundary = false := by
  unfold operandStart? at h
  split at h
  · exact isBoundary_of_kind ‹_› (by simp) (by simp) (by simp)
  · exact isBoundary_of_kind ‹_› (by simp) (by simp) (by simp)
  · exact isBoundary_of_kind ‹_› (by simp) (by simp) (by simp)
  · split at h
    · exact isBoundary_of_opensParen ‹_›
    · split at h
      · exact isBoundary_of_isKeyword ‹_› (by simp) (by simp)
      · simp at h

/-- How a token of each kind starts an operand. -/
theorem kind_of_operandStart? {t : Token} {s : OperandStart} (h : t.operandStart? = some s) :
    match s with
    | .integer => t.kind = .integer
    | .float => t.kind = .float
    | .name => t.kind = .identifier
    | .paren => t.opensParen = true
    | .binding => t.isKeyword .binding = true := by
  unfold operandStart? at h
  split at h
  · cases h; assumption
  · cases h; assumption
  · cases h; assumption
  · split at h
    · cases h; assumption
    · split at h
      · cases h; assumption
      · simp at h

end Token

/-! ## The relation -/

namespace Reading

variable {ε δ : Type} (R : Cursor ε → Cursor δ → Prop) (T : Token → Token → Prop)
  (E : Expr → Expr → Prop) (F : Failure ε → Failure δ → Prop)

/-- Related answers to two looks, which leave related cursors. -/
inductive Looks : Except ε Token × Cursor ε → Except δ Token × Cursor δ → Prop
  | token {t u : Token} {c : Cursor ε} {d : Cursor δ} (ht : T t u) (hr : R c d)
      (hs : t.isBoundary = false → R c.skip d.skip) : Looks (.ok t, c) (.ok u, d)
  | error {e : ε} {e' : δ} {c : Cursor ε} {d : Cursor δ} (hf : F (.stream e) (.stream e'))
      (hr : R c d) : Looks (.error e, c) (.error e', d)

variable {R T F} in
theorem Looks.of_error {e : ε} {c : Cursor ε} {q : Except δ Token × Cursor δ}
    (h : Looks R T F (.error e, c) q) :
    ∃ e' d, q = (.error e', d) ∧ F (.stream e) (.stream e') ∧ R c d := by
  cases h with
  | error hf hr => exact ⟨_, _, rfl, hf, hr⟩

variable {R T F} in
theorem Looks.of_token {t : Token} {c : Cursor ε} {q : Except δ Token × Cursor δ}
    (h : Looks R T F (.ok t, c) q) :
    ∃ u d, q = (.ok u, d) ∧ T t u ∧ R c d ∧ (t.isBoundary = false → R c.skip d.skip) := by
  cases h with
  | token ht hr hs => exact ⟨_, _, rfl, ht, hr, hs⟩

/-- Related cursors answer alike, and what is built from related tokens and trees is related. -/
structure Parallel : Prop where
  reads {t u : Token} (ht : T t u) : t.ReadsAs u
  look {c : Cursor ε} {d : Cursor δ} (hr : R c d) : Looks R T F c.peek d.peek
  grammar {t u : Token} (fault : ParseFault) (ht : T t u) :
    F (.grammar ⟨fault, t⟩) (.grammar ⟨fault, u⟩)
  integer {t u : Token} {v : Int64} (ht : T t u) (hk : t.kind = .integer)
    (hv : Numeral.int64? t.text = some v) : E (.integer v t.pos) (.integer v u.pos)
  float {t u : Token} {v : Binary64} (ht : T t u) (hk : t.kind = .float)
    (hv : Numeral.binary64? t.text = some v) : E (.float v t.pos) (.float v u.pos)
  name {t u : Token} (ht : T t u) (hk : t.kind = .identifier) :
    E (.name t.text t.pos) (.name u.text u.pos)
  call {t u : Token} {xs ys : List Expr} (ht : T t u) (hk : t.kind = .identifier)
    (hx : List.Forall₂ E xs ys) : E (.call t.text xs t.pos) (.call u.text ys u.pos)
  unary {t u : Token} {op : Operator} {x y : Expr} (ht : T t u) (hs : op.isSign = true)
    (hx : E x y) : E (.unary op x t.pos) (.unary op y u.pos)
  binary {t u : Token} {op : Operator} {p : Precedence} {x x' y y' : Expr} (ht : T t u)
    (hp : op.precedence? = some p) (hx : E x x') (hy : E y y') :
    E (.binary op x y t.pos) (.binary op x' y' u.pos)
  zero {t u : Token} (ht : T t u) : E (.integer 0 t.pos) (.integer 0 u.pos)
  bind {t u : Token} {x x' y y' : Expr} (ht : T t u) (hk : t.kind = .identifier) (hx : E x x')
    (hy : E y y') : E (.bind t.text x y t.pos) (.bind u.text x' y' u.pos)

/-- Related tokens are the same up to their places. -/
structure Lockstep : Prop extends Parallel R T E F where
  same {t u : Token} (ht : T t u) : t.Same u
  reads ht := .inl (same ht)

/-- Readings that stay parallel from item to item. The first may have come to its end where the second
still has semicolons to pass over. -/
structure Aligned : Prop extends Parallel R T E F where
  skip {c : Cursor ε} {d : Cursor δ} (hr : R c d) : R c.skip d.skip
  ends {t u : Token} (ht : T t u) (hu : u.isEnd = true) : t.isEnd = true
  passes {t u : Token} {c : Cursor ε} {d : Cursor δ} (ht : T t u) (hr : R c d)
    (hc : c.lookahead = some t) (hd : d.lookahead = some u) (he : t.isEnd = true)
    (hu : u.isEnd = false) : R c d.skip

variable {R T E F} in
theorem Lockstep.aligned (S : Lockstep R T E F)
    (hskip : ∀ {c : Cursor ε} {d : Cursor δ}, R c d → R c.skip d.skip) : Aligned R T E F where
  toParallel := S.toParallel
  skip := hskip
  ends := by
    intro t u ht hu
    rw [← (S.same ht).isEnd, hu]
  passes := by
    intro t u c d ht _ _ _ he hu
    rw [(S.same ht).isEnd, he] at hu
    cases hu

/-- Lockstep of readings that give the same trees from the same tokens. -/
theorem Lockstep.of_eq {R : Cursor ε → Cursor δ → Prop} {F : Failure ε → Failure δ → Prop}
    (hlook : ∀ c d, R c d → Looks R Eq F c.peek d.peek)
    (hgrammar : ∀ e, F (.grammar e) (.grammar e)) : Lockstep R Eq Eq F where
  same := by rintro t u rfl; exact ⟨rfl, rfl⟩
  look := hlook _ _
  grammar := by rintro t u fault rfl; exact hgrammar _
  integer := by rintro t u v rfl - -; rfl
  float := by rintro t u v rfl - -; rfl
  name := by rintro t u rfl -; rfl
  call := by rintro t u xs ys rfl - hx; rw [List.forall₂_eq_eq_eq] at hx; rw [hx]
  unary := by rintro t u op x y rfl - rfl; rfl
  binary := by rintro t u op p x x' y y' rfl - rfl rfl; rfl
  zero := by rintro t u rfl; rfl
  bind := by rintro t u x x' y y' rfl - rfl rfl; rfl

/-- Two outcomes with related results and related cursors. -/
inductive Alike {α β : Type} (A : α → β → Prop) :
    EStateM.Result (Failure ε) (Cursor ε) α → EStateM.Result (Failure δ) (Cursor δ) β → Prop
  | ok {a : α} {b : β} {c : Cursor ε} {d : Cursor δ} (ha : A a b) (hr : R c d) :
      Alike A (.ok a c) (.ok b d)
  | error {e : Failure ε} {f : Failure δ} {c : Cursor ε} {d : Cursor δ} (hf : F e f) (hr : R c d) :
      Alike A (.error e c) (.error f d)

variable {R T E F} {α β α' β' : Type} {A : α → α' → Prop} {B : β → β' → Prop}

theorem Alike.of_ok {a : α} {c : Cursor ε} {r : EStateM.Result (Failure δ) (Cursor δ) α'}
    (h : Alike R F A (.ok a c) r) : ∃ b d, r = .ok b d ∧ A a b ∧ R c d := by
  cases h with
  | ok ha hr => exact ⟨_, _, rfl, ha, hr⟩

theorem Alike.of_error {e : Failure ε} {c : Cursor ε}
    {r : EStateM.Result (Failure δ) (Cursor δ) α'} (h : Alike R F A (.error e c) r) :
    ∃ f d, r = .error f d ∧ F e f ∧ R c d := by
  cases h with
  | error hf hr => exact ⟨_, _, rfl, hf, hr⟩

theorem Alike.cursor {m n : Nat} {p : Parsed ε α m} {q : Parsed δ α' n}
    (h : Alike R F A p.outcome q.outcome) : R p.cursor q.cursor := by
  unfold Parsed.outcome at h
  split at h
  · obtain ⟨b, d, hq, -, hr⟩ := h.of_ok
    split at hq <;> cases hq
    exact hr
  · obtain ⟨f, d, hq, -, hr⟩ := h.of_error
    split at hq <;> cases hq
    exact hr

theorem Alike.result {m n : Nat} {p : Parsed ε α m} {q : Parsed δ α' n}
    (h : Alike R F A p.outcome q.outcome) {a : α} (ha : p.result = .ok a) :
    ∃ b, q.result = .ok b ∧ A a b := by
  unfold Parsed.outcome at h
  rw [ha] at h
  obtain ⟨b, d, hq, hab, -⟩ := h.of_ok
  split at hq <;> cases hq
  exact ⟨b, ‹_›, hab⟩

theorem Alike.bind {x : Reading ε α} {y : Reading δ α'} {f : α → Reading ε β} {g : α' → Reading δ β'}
    {c : Cursor ε} {d : Cursor δ} (h : Alike R F A (x c) (y d))
    (hfg : ∀ a b c' d', x c = .ok a c' → A a b → R c' d' → Alike R F B (f a c') (g b d')) :
    Alike R F B ((x >>= f) c) ((y >>= g) d) := by
  show Alike R F B (EStateM.bind x f c) (EStateM.bind y g d)
  unfold EStateM.bind
  cases hx : x c with
  | ok a c' =>
    rw [hx] at h
    obtain ⟨b, d', hy, ha, hr⟩ := h.of_ok
    simp only [hy]
    exact hfg a b c' d' hx ha hr
  | error e c' =>
    rw [hx] at h
    obtain ⟨f, d', hy, hf, hr⟩ := h.of_error
    simp only [hy]
    exact .error hf hr

/-! ## Moves of the cursor -/

namespace Parallel

section Moves

variable (S : Parallel R T E F)
include S

theorem alike_look {c : Cursor ε} {d : Cursor δ} (hr : R c d) {f : Token → Reading ε α}
    {g : Token → Reading δ α'}
    (hfg : ∀ t u c' d', Reading.look c = .ok t c' → T t u → R c' d' →
      (t.isBoundary = false → R c'.skip d'.skip) → Alike R F A (f t c') (g u d')) :
    Alike R F A ((Reading.look >>= f) c) ((Reading.look >>= g) d) := by
  have hl := S.look hr
  show Alike R F A (EStateM.bind Reading.look f c) (EStateM.bind Reading.look g d)
  unfold EStateM.bind
  rcases hp : c.peek with ⟨e | t, c'⟩ <;> rw [hp] at hl
  · obtain ⟨e', d', hq, hf, hr'⟩ := hl.of_error
    simp only [Reading.look, hp, hq]
    exact .error hf hr'
  · obtain ⟨u, d', hq, ht, hr', hs⟩ := hl.of_token
    have hc := look_of_peek hp
    simp only [hc, look_of_peek hq]
    exact hfg t u c' d' hc ht hr' hs

/-- After two tokens are taken the cursors are related if the tokens are no boundaries, and in any
case if the tokens are refused. -/
theorem alike_take {c : Cursor ε} {d : Cursor δ} (hr : R c d) {f : Token → Reading ε α}
    {g : Token → Reading δ α'}
    (hfg : ∀ t u c' d', Reading.take c = .ok t c' → T t u → (t.isBoundary = false → R c' d') →
      (∀ {γ γ' : Type} (C : γ → γ' → Prop) (wanted : Expectation),
        Alike R F C (refuse wanted t c') (refuse wanted u d')) →
      Alike R F A (f t c') (g u d')) :
    Alike R F A ((Reading.take >>= f) c) ((Reading.take >>= g) d) := by
  have hl := S.look hr
  show Alike R F A (EStateM.bind Reading.take f c) (EStateM.bind Reading.take g d)
  unfold EStateM.bind
  rcases hp : c.peek with ⟨e | t, c'⟩ <;> rw [hp] at hl
  · obtain ⟨e', d', hq, hf, hr'⟩ := hl.of_error
    have hc := look_of_peek_error hp
    have hd := look_of_peek_error hq
    simp only [take_of_look_error hc, take_of_look_error hd]
    exact .error hf hr'
  · obtain ⟨u, d', hq, ht, hr', hs⟩ := hl.of_token
    have hc := look_of_peek hp
    have hd := look_of_peek hq
    have hb := (S.reads ht).isBoundary
    simp only [take_of_look hc, take_of_look hd]
    apply hfg t u _ _ (take_of_look hc) ht
    · intro hnb
      simpa [Parse.isEnd_of_isBoundary hnb, Parse.isEnd_of_isBoundary (hb.trans hnb)] using hs hnb
    · intro γ γ' C wanted
      rw [refuse_take wanted hc, refuse_take wanted hd, hb]
      refine .error (S.grammar _ ht) ?_
      cases h : t.isBoundary with
      | true => exact hr'
      | false => exact hs h

/-- Whether the next token is taken, and where that leaves the cursors. -/
theorem alike_accept {c : Cursor ε} {d : Cursor δ} (hr : R c d) {p : Token → Bool}
    (hp : ∀ t u, t.ReadsAs u → p u = p t) (hb : ∀ t, p t = true → t.isBoundary = false) :
    Alike R F Eq (accept p c) (accept p d) := by
  have hl := S.look hr
  unfold accept Cursor.consume Cursor.check
  rcases hc : c.peek with ⟨e | t, c'⟩ <;> rw [hc] at hl
  · obtain ⟨e', d', hd, hf, hr'⟩ := hl.of_error
    simp only [hd]
    exact .ok rfl hr'
  · obtain ⟨u, d', hd, ht, hr', hs⟩ := hl.of_token
    simp only [hd, hp t u (S.reads ht)]
    cases h : p t with
    | true => exact .ok rfl (hs (hb t h))
    | false => exact .ok rfl hr'

theorem alike_refused {t u : Token} {c : Cursor ε} {d : Cursor δ} (fault : ParseFault) (ht : T t u)
    (hr : R c d) :
    Alike R F A ((throw (.grammar ⟨fault, t⟩) : Reading ε α) c)
      ((throw (.grammar ⟨fault, u⟩) : Reading δ α') d) :=
  .error (S.grammar fault ht) hr

end Moves

/-! ## Expressions -/

mutual

theorem alike_expression (S : Parallel R T E F) {c : Cursor ε} {d : Cursor δ} (hr : R c d) :
    Alike R F E (Reading.expression c) (Reading.expression d) := by
  rw [expression_eq (ε := ε), expression_eq (ε := δ)]
  refine (alike_unary S hr).bind fun lhs lhs' c₁ d₁ h₁ hl hr₁ => ?_
  have := Parsed.size_of_outcome h₁
  exact alike_operators S 0 hl hr₁
termination_by 5 * c.size + 2

theorem alike_operators (S : Parallel R T E F) (least : Int) {lhs lhs' : Expr} (hl : E lhs lhs')
    {c : Cursor ε} {d : Cursor δ} (hr : R c d) :
    Alike R F E (Reading.operators least lhs c) (Reading.operators least lhs' d) := by
  rw [operators_eq (ε := ε), operators_eq (ε := δ)]
  refine S.alike_look hr fun t u c₁ d₁ h₁ ht hr₁ hs => ?_
  rw [(S.reads ht).operator?]
  cases ho : t.operator? with
  | none => exact .ok hl hr₁
  | some op =>
    have hlt := size_skip_look_lt h₁ (Token.isEnd_of_operator? ho)
    simp only
    cases hp : op.precedence? with
    | none => exact S.alike_refused _ ht hr₁
    | some prec =>
      simp only
      split
      · exact .ok hl hr₁
      · refine Alike.bind (.ok (A := fun _ _ => True) trivial
          (hs (Token.isBoundary_of_operator? ho))) fun _ _ c₂ d₂ h₂ _ hr₂ => ?_
        cases h₂
        refine (alike_unary S hr₂).bind fun rhs rhs' c₃ d₃ h₃ hx hr₃ => ?_
        have hle₃ := Parsed.size_of_outcome h₃
        refine S.alike_look hr₃ fun ahead ahead' c₄ d₄ h₄ ht' hr₄ _ => ?_
        have hle₄ := size_look_le h₄
        -- the tokens ahead are the same operator, so both sides choose one level
        rw [(S.reads ht').rightLevel?]
        cases prec.rightLevel? ahead with
        | none => exact alike_operators S least (S.binary ht hp hl hx) hr₄
        | some level =>
          refine (alike_operators S level hx hr₄).bind fun rhs rhs' c₅ d₅ h₅ hy hr₅ => ?_
          have hle₅ := Parsed.size_of_outcome h₅
          exact alike_operators S least (S.binary ht hp hl hy) hr₅
termination_by 5 * c.size

theorem alike_unary (S : Parallel R T E F) {c : Cursor ε} {d : Cursor δ} (hr : R c d) :
    Alike R F E (Reading.unary c) (Reading.unary d) := by
  rw [unary_eq (ε := ε), unary_eq (ε := δ)]
  refine S.alike_look hr fun t u c₁ d₁ h₁ ht hr₁ hs => ?_
  rw [(S.reads ht).operator?]
  cases ho : t.operator? with
  | none =>
    have := size_look_le h₁
    exact alike_primary S hr₁
  | some op =>
    have hlt := size_skip_look_lt h₁ (Token.isEnd_of_operator? ho)
    simp only
    split
    · rename_i hsign
      refine Alike.bind (.ok (A := fun _ _ => True) trivial
        (hs (Token.isBoundary_of_operator? ho))) fun _ _ c₂ d₂ h₂ _ hr₂ => ?_
      cases h₂
      refine (alike_unary S hr₂).bind fun x y c₃ d₃ _ hx hr₃ => ?_
      exact .ok (S.unary ht hsign hx) hr₃
    · exact S.alike_refused _ ht hr₁
termination_by 5 * c.size + 1

theorem alike_primary (S : Parallel R T E F) {c : Cursor ε} {d : Cursor δ} (hr : R c d) :
    Alike R F E (Reading.primary c) (Reading.primary d) := by
  rw [primary_eq (ε := ε), primary_eq (ε := δ)]
  refine S.alike_take hr fun t u c₁ d₁ h₁ ht hr₁ hrefuse => ?_
  rw [(S.reads ht).operandStart?]
  cases ho : t.operandStart? with
  | none => exact hrefuse E .expression
  | some start =>
    have hlt := size_take_lt h₁ (Token.isEnd_of_operandStart? ho)
    exact alike_operand S ho ht (hr₁ (Token.isBoundary_of_operandStart? ho))
termination_by 5 * c.size

theorem alike_operand (S : Parallel R T E F) {start : Token.OperandStart} {t u : Token}
    (ho : t.operandStart? = some start) (ht : T t u) {c : Cursor ε} {d : Cursor δ} (hr : R c d) :
    Alike R F E (Reading.operand start t c) (Reading.operand start u d) := by
  have hk := Token.kind_of_operandStart? ho
  have htext := (S.reads ht).text_eq ho
  rw [operand_eq (ε := ε), operand_eq (ε := δ)]
  cases start with
  | integer =>
    simp only [← htext]
    cases hv : Numeral.int64? t.text with
    | none => exact S.alike_refused _ ht hr
    | some v => exact .ok (S.integer ht hk hv) hr
  | float =>
    simp only [← htext]
    cases hv : Numeral.binary64? t.text with
    | none => exact S.alike_refused _ ht hr
    | some v => exact .ok (S.float ht hk hv) hr
  | name =>
    refine (S.alike_accept hr (fun _ _ h => h.opensParen)
      fun _ => Token.isBoundary_of_opensParen).bind fun b _ c₁ d₁ h₁ hb hr₁ => ?_
    have hle₁ := size_accept_le h₁
    subst hb
    cases b with
    | false => exact .ok (S.name ht hk) hr₁
    | true =>
      refine (S.alike_accept hr₁ (fun _ _ h => h.closesParen)
        fun _ => Token.isBoundary_of_closesParen).bind fun b _ c₂ d₂ h₂ hb hr₂ => ?_
      have hle₂ := size_accept_le h₂
      subst hb
      cases b with
      | true => exact .ok (S.call ht hk .nil) hr₂
      | false =>
        refine (alike_arguments S hr₂).bind fun xs ys c₃ d₃ _ hx hr₃ => ?_
        exact .ok (S.call ht hk hx) hr₃
  | paren =>
    refine (alike_expression S hr).bind fun e e' c₁ d₁ _ he hr₁ => ?_
    refine S.alike_take hr₁ fun u' v' c₂ d₂ _ ht' hr₂ hrefuse => ?_
    simp only [(S.reads ht').closes (S.reads ht)]
    split
    · rename_i hcl
      exact .ok he (hr₂ (Token.isBoundary_of_closes hcl))
    · exact hrefuse E .closeParen
  | binding => exact alike_bindings S hr
termination_by 5 * c.size + 4

theorem alike_arguments (S : Parallel R T E F) {c : Cursor ε} {d : Cursor δ} (hr : R c d) :
    Alike R F (List.Forall₂ E) (Reading.arguments c) (Reading.arguments d) := by
  rw [arguments_eq (ε := ε), arguments_eq (ε := δ)]
  refine (alike_expression S hr).bind fun e e' c₁ d₁ h₁ he hr₁ => ?_
  have hle₁ := Parsed.size_of_outcome h₁
  refine S.alike_take hr₁ fun u v c₂ d₂ h₂ ht hr₂ hrefuse => ?_
  simp only [(S.reads ht).closesParen, (S.reads ht).isComma]
  split
  · rename_i hcl
    exact .ok (.cons he .nil) (hr₂ (Token.isBoundary_of_closesParen hcl))
  · split
    · rename_i hcomma
      have hlt := size_take_lt h₂ (Token.isEnd_of_isComma hcomma)
      refine (alike_arguments S (hr₂ (Token.isBoundary_of_isComma hcomma))).bind
        fun xs ys c₃ d₃ _ hx hr₃ => ?_
      exact .ok (.cons he hx) hr₃
    · exact hrefuse _ .commaOrClose
termination_by 5 * c.size + 3

theorem alike_bindings (S : Parallel R T E F) {c : Cursor ε} {d : Cursor δ} (hr : R c d) :
    Alike R F E (Reading.bindings c) (Reading.bindings d) := by
  rw [bindings_eq (ε := ε), bindings_eq (ε := δ)]
  refine S.alike_take hr fun t u c₁ d₁ h₁ ht hr₁ hrefuse => ?_
  simp only [(S.reads ht).kind_eq_identifier]
  split
  · rename_i hk
    have hlt := size_take_lt h₁ (Token.isEnd_of_kind hk (by simp))
    have hb : t.isBoundary = false := Token.isBoundary_of_kind hk (by simp) (by simp) (by simp)
    refine S.alike_look (hr₁ hb) fun a b c₂ d₂ h₂ ht' hr₂ hs => ?_
    have hle₂ := size_look_le h₂
    simp only [(S.reads ht').operator?]
    split
    · rename_i ho
      have hlt₂ := size_skip_look_lt h₂ (Token.isEnd_of_operator? ho)
      refine Alike.bind (.ok (A := fun _ _ => True) trivial
        (hs (Token.isBoundary_of_operator? ho))) fun _ _ c₃ d₃ h₃ _ hr₃ => ?_
      cases h₃
      refine (alike_expression S hr₃).bind fun x y c₄ d₄ h₄ hx hr₄ => ?_
      have hle₄ := Parsed.size_of_outcome h₄
      exact alike_afterBinding S ht hk hx hr₄
    · exact alike_afterBinding S ht hk (S.zero ht) hr₂
  · exact hrefuse _ .variableName
termination_by 5 * c.size + 2

theorem alike_afterBinding (S : Parallel R T E F) {t u : Token} (ht : T t u)
    (hk : t.kind = .identifier) {x y : Expr} (hx : E x y) {c : Cursor ε} {d : Cursor δ} (hr : R c d) :
    Alike R F E (Reading.afterBinding t x c) (Reading.afterBinding u y d) := by
  rw [afterBinding_eq (ε := ε), afterBinding_eq (ε := δ)]
  refine (S.alike_accept hr (fun _ _ h => h.isComma)
    fun _ => Token.isBoundary_of_isComma).bind fun b _ c₁ d₁ h₁ hb hr₁ => ?_
  have hle₁ := size_accept_le h₁
  subst hb
  cases b with
  | true =>
    refine (alike_bindings S hr₁).bind fun e e' c₂ d₂ _ he hr₂ => ?_
    exact .ok (S.bind ht hk hx he) hr₂
  | false =>
    refine S.alike_take hr₁ fun v w c₂ d₂ h₂ ht' hr₂ hrefuse => ?_
    simp only [(S.reads ht').isKeyword]
    split
    · rename_i hin
      have hlt := size_take_lt h₂ (Token.isEnd_of_isKeyword hin)
      refine (alike_expression S (hr₂ (Token.isBoundary_of_isKeyword hin (by simp) (by simp)))).bind
        fun e e' c₃ d₃ _ he hr₃ => ?_
      exact .ok (S.bind ht hk hx he) hr₃
    · exact hrefuse _ .within
termination_by 5 * c.size + 3

end

/-! ## Items -/

end Parallel

variable (T E)

/-- Lists of names that were read from related tokens. -/
def Names (xs ys : List String) : Prop :=
  ∃ ts us : List Token, List.Forall₂ T ts us ∧ (∀ t ∈ ts, t.kind = .identifier) ∧
    xs = ts.map Token.text ∧ ys = us.map Token.text

/-- Prototypes that were read from related tokens. -/
inductive Heads : Prototype → Prototype → Prop
  | mk {t u : Token} {xs ys : List String} (ht : T t u) (hk : t.kind = .identifier)
      (hn : Names T xs ys) : Heads ⟨t.text, xs, t.pos⟩ ⟨u.text, ys, u.pos⟩

/-- Items that were read from related tokens and have related bodies. -/
inductive Items : Item → Item → Prop
  | external {t u : Token} {p q : Prototype} (ht : T t u) (hp : Heads T p q) :
      Items (.external p t.pos) (.external q u.pos)
  | define {t u : Token} {p q : Prototype} {x y : Expr} (ht : T t u) (hp : Heads T p q)
      (hx : E x y) : Items (.define p x t.pos) (.define q y u.pos)
  | evaluate {t u : Token} {x y : Expr} (ht : T t u) (hx : E x y) :
      Items (.evaluate x t.pos) (.evaluate y u.pos)

variable {T E}

theorem Items.eq_of_eq {i j : Item} (h : Items Eq Eq i j) : i = j := by
  have hheads : ∀ {p q : Prototype}, Heads Eq p q → p = q := by
    rintro p q ⟨rfl, -, ts, us, hts, -, rfl, rfl⟩
    rw [List.forall₂_eq_eq_eq] at hts
    rw [hts]
  cases h with
  | external ht hp => rw [ht, hheads hp]
  | define ht hp hx => rw [ht, hheads hp, hx]
  | evaluate ht hx => rw [ht, hx]

namespace Parallel

theorem alike_parameters (S : Parallel R T E F) (afterComma : Bool) {c : Cursor ε} {d : Cursor δ}
    (hr : R c d) :
    Alike R F (Names T) (Reading.parameters afterComma c) (Reading.parameters afterComma d) := by
  rw [parameters_eq (ε := ε), parameters_eq (ε := δ)]
  refine S.alike_take hr fun t u c₁ d₁ h₁ ht hr₁ hrefuse => ?_
  simp only [(S.reads ht).kind_eq_identifier, (S.reads ht).closesParen]
  split
  · rename_i hk
    have hlt := size_take_lt h₁ (Token.isEnd_of_kind hk (by simp))
    have hb : t.isBoundary = false := Token.isBoundary_of_kind hk (by simp) (by simp) (by simp)
    refine (S.alike_accept (hr₁ hb) (fun _ _ h => h.isComma)
      fun _ => Token.isBoundary_of_isComma).bind fun comma _ c₂ d₂ h₂ hc hr₂ => ?_
    have hle₂ := size_accept_le h₂
    subst hc
    refine (alike_parameters S comma hr₂).bind fun xs ys c₃ d₃ _ hx hr₃ => ?_
    obtain ⟨ts, us, hts, hks, rfl, rfl⟩ := hx
    refine .ok ⟨t :: ts, u :: us, .cons ht hts, ?_, rfl, rfl⟩ hr₃
    intro x hx
    rcases List.mem_cons.1 hx with rfl | hx
    · exact hk
    · exact hks x hx
  · split
    · rename_i hcl
      have hcl : t.closesParen = true := by simp_all
      exact .ok ⟨[], [], .nil, by simp, rfl, rfl⟩ (hr₁ (Token.isBoundary_of_closesParen hcl))
    · exact hrefuse _ _
termination_by c.size

theorem alike_prototype (S : Parallel R T E F) {c : Cursor ε} {d : Cursor δ} (hr : R c d) :
    Alike R F (Heads T) (Reading.prototype c) (Reading.prototype d) := by
  rw [prototype_eq (ε := ε), prototype_eq (ε := δ)]
  refine S.alike_take hr fun t u c₁ d₁ h₁ ht hr₁ hrefuse => ?_
  simp only [(S.reads ht).kind_eq_identifier]
  split
  · rename_i hk
    have hb : t.isBoundary = false := Token.isBoundary_of_kind hk (by simp) (by simp) (by simp)
    refine S.alike_take (hr₁ hb) fun v w c₂ d₂ h₂ ht' hr₂ hrefuse' => ?_
    simp only [(S.reads ht').opensParen]
    split
    · rename_i hop
      refine (S.alike_parameters false (hr₂ (Token.isBoundary_of_opensParen hop))).bind
        fun xs ys c₃ d₃ _ hx hr₃ => ?_
      exact .ok (.mk ht hk hx) hr₃
    · exact hrefuse' _ _
  · exact hrefuse _ _

/-- The item that starts with the token in the lookahead, which is no end of input. It is taken, also
if it is a boundary. -/
theorem alike_itemFrom (S : Parallel R T E F) {t u : Token} {c : Cursor ε} {d : Cursor δ} (ht : T t u)
    (hc : c.lookahead = some t) (hd : d.lookahead = some u)
    (hr : t.isKeyword .define = false → t.isKeyword .external = false → R c d) (hs : R c.skip d.skip) :
    Alike R F (Items T E) (Reading.itemFrom t c.skip) (Reading.itemFrom u d.skip) := by
  rw [itemFrom_eq (ε := ε), itemFrom_eq (ε := δ)]
  simp only [(S.reads ht).isKeyword]
  split
  · refine (S.alike_prototype hs).bind fun p q c₁ d₁ _ hp hr₁ => ?_
    refine (S.alike_expression hr₁).bind fun x y c₂ d₂ _ hx hr₂ => ?_
    exact .ok (.define ht hp hx) hr₂
  · rename_i hdefine
    split
    · refine (S.alike_prototype hs).bind fun p q c₁ d₁ _ hp hr₁ => ?_
      exact .ok (.external ht hp) hr₁
    -- an expression starts with the token that was taken, so both sides put it back
    · rename_i hexternal
      refine Alike.bind (A := fun _ _ => True) ?_ fun _ _ c₁ d₁ _ _ hr₁ => ?_
      · rw [unread_skip hc, unread_skip hd]
        exact .ok trivial (hr (by simpa using hdefine) (by simpa using hexternal))
      · refine (S.alike_expression hr₁).bind fun x y c₂ d₂ _ hx hr₂ => ?_
        exact .ok (.evaluate ht hx) hr₂

end Parallel

/-! ## Item after item -/

variable (T E F) in
/-- Related items, or related failures. -/
inductive Outcomes : Except (Failure ε) Item → Except (Failure δ) Item → Prop
  | ok {i j : Item} (hi : Items T E i j) : Outcomes (.ok i) (.ok j)
  | error {e : Failure ε} {f : Failure δ} (hf : F e f) : Outcomes (.error e) (.error f)

namespace Aligned

variable (S : Aligned R T E F)
include S

theorem isEnd_eq_false {t u : Token} (ht : T t u) (he : t.isEnd = false) : u.isEnd = false := by
  cases hu : u.isEnd with
  | false => rfl
  | true =>
    rw [S.ends ht hu] at he
    cases he

theorem alike_item {c : Cursor ε} {d : Cursor δ} (hr : R c d) :
    Alike R F (Option.Rel (Items T E)) (Reading.item c) (Reading.item d) := by
  have hl := S.look hr
  rcases hp : c.peek with ⟨e | t, c'⟩ <;> rw [hp] at hl
  · obtain ⟨e', d', hq, hf, hr'⟩ := hl.of_error
    have hc := look_of_peek_error hp
    have hd := look_of_peek_error hq
    rw [item_of_look_error hc, item_of_look_error hd]
    exact .error hf hr'
  · obtain ⟨u, d', hq, ht, hr', -⟩ := hl.of_token
    have hc := look_of_peek hp
    have hd := look_of_peek hq
    have hlc := Cursor.lookahead_peek hp
    have hld := Cursor.lookahead_peek hq
    cases he : t.isEnd with
    | true =>
      rw [item_of_look_end hc he]
      cases hu : u.isEnd with
      | true =>
        rw [item_of_look_end hd hu]
        exact .ok .none hr'
      | false =>
        -- the first reading looks at its end again while the second goes on
        have hlt := size_skip_look_lt hd hu
        have hle := size_look_le hc
        have hc' := look_of_peek (Cursor.peek_of_lookahead hlc)
        have hnext := alike_item (S.passes ht hr' hlc hld he hu)
        rw [item_of_look_end hc' he] at hnext
        rw [item_of_look hd hu, if_pos ((S.reads ht).semicolon_of_isEnd he hu)]
        exact hnext
    | false =>
      have hu := S.isEnd_eq_false ht he
      have hlt := size_skip_look_lt hc he
      have hlt' := size_skip_look_lt hd hu
      rw [item_of_look hc he, item_of_look hd hu]
      simp only [(S.reads ht).kind_eq_semicolon he hu]
      split
      · exact alike_item (S.skip hr')
      · refine (S.alike_itemFrom ht hlc hld (fun _ _ => hr') (S.skip hr')).bind fun i j c₁ d₁ _ hij hr₁ => ?_
        exact .ok (.some hij) hr₁
termination_by c.size + d.size

theorem related_synchronize {c : Cursor ε} {d : Cursor δ} (hr : R c d) :
    R (Parse.synchronize c) (Parse.synchronize d) := by
  have hl := S.look hr
  rw [synchronize_eq c, synchronize_eq d]
  unfold Reading.look
  rcases hp : c.peek with ⟨e | t, c'⟩ <;> rw [hp] at hl
  · obtain ⟨e', d', hq, -, hr'⟩ := hl.of_error
    have := Cursor.size_peek_error_lt hp
    simp only [hq]
    exact related_synchronize hr'
  · obtain ⟨u, d', hq, ht, hr', -⟩ := hl.of_token
    simp only [hq, (S.reads ht).isKeyword]
    cases he : t.isEnd with
    | true =>
      cases hu : u.isEnd with
      | true => simpa using hr'
      | false =>
        have hs := (S.reads ht).semicolon_of_isEnd he hu
        have hkeyword (k : Keyword) : t.isKeyword k = false := by
          rw [← (S.reads ht).isKeyword, Token.Stops.isKeyword (.inr hs)]
        simpa [hs, hkeyword] using
          S.passes ht hr' (Cursor.lookahead_peek hp) (Cursor.lookahead_peek hq) he hu
    | false =>
      have hu := S.isEnd_eq_false ht he
      have hlt := Cursor.size_skip_peek_lt hp he
      simp only [hu, (S.reads ht).kind_eq_semicolon he hu]
      split
      · exact hr'
      · split
        · exact S.skip hr'
        · exact related_synchronize (S.skip hr')
termination_by c.size

/-- Aligned readings give related results throughout. -/
theorem forall₂_results {c : Cursor ε} {d : Cursor δ} (hr : R c d) :
    List.Forall₂ (Outcomes T E F) (Parse.results c) (Parse.results d) := by
  have hitem := S.alike_item hr
  rw [results_eq c, results_eq d]
  rcases hc : Reading.item c with ⟨_ | i, c'⟩ | ⟨e, c'⟩ <;> rw [hc] at hitem
  · obtain ⟨o, d', hd, ho, -⟩ := hitem.of_ok
    cases ho
    rw [hd]
    exact .nil
  · obtain ⟨o, d', hd, ho, hr'⟩ := hitem.of_ok
    have hlt := size_item_lt hc
    cases ho with
    | some hij =>
      rw [hd]
      exact .cons (.ok hij) (forall₂_results hr')
  · obtain ⟨f, d', hd, hf, hr'⟩ := hitem.of_error
    have hlt := size_synchronize_item_lt hc
    rw [hd]
    exact .cons (.error hf) (forall₂_results (S.related_synchronize hr'))
termination_by c.size

end Aligned

end Reading

end ScalarLang
