import ScalarLang.Compilation
import ScalarLang.Proofs.Lockstep
import ScalarLang.Proofs.RoundTrip
/-!
# Places decide nothing

A tree has the same code whatever its places, and a tree that cannot be lowered fails in the same way
(`unplaced_item`); readings of tokens that differ in their places give trees that do (`results_same`,
`unplaced_of_items`); and compilations of such trees give the same functions in the same generator
(`agrees_ofResults`).
-/
namespace ScalarLang

/-! ## Errors without their places -/

/-- The error without its place. -/
def LexError.unplaced (e : LexError) : LexError := { e with pos := .unknown }

/-- The error without its place. -/
def ScanError.unplaced : ScanError → ScanError
  | lexical e => .lexical e.unplaced
  | unreadable _ cause => .unreadable .unknown cause

/-- The error without the place of its token. -/
def ParseError.unplaced (e : ParseError) : ParseError := { e with found := e.found.unplaced }

/-- The failure without its place. -/
def Failure.unplaced : Failure ScanError → Failure ScanError
  | stream e => .stream e.unplaced
  | grammar e => .grammar e.unplaced
  | overfull => .overfull

/-- The error without its place. -/
def LoweringError.unplaced (e : LoweringError) : LoweringError := { e with pos := .unknown }

/-- The error without its place. -/
def CompileError.unplaced : CompileError → CompileError
  | lexical e => .lexical e.unplaced
  | grammar e => .grammar e.unplaced
  | lowering e => .lowering e.unplaced

/-- The interruption without its place. -/
def Interruption.unplaced : Interruption → Interruption
  | unreadable _ cause => .unreadable .unknown cause
  | overfull => .overfull

/-! ## Trees -/

namespace Lowering

variable {α β : Type}

/-- Lowering that forgets the place of an error. -/
def unplaced (act : Lowering α) : Lowering α := EStateM.adaptExcept LoweringError.unplaced act

theorem unplaced_bind (act : Lowering α) (f : α → Lowering β) :
    (act >>= f).unplaced = act.unplaced >>= fun a => (f a).unplaced := by
  funext d
  show EStateM.adaptExcept _ (EStateM.bind act f) d = EStateM.bind (EStateM.adaptExcept _ act) _ d
  unfold EStateM.adaptExcept EStateM.bind
  cases h : act d with
  | ok a d' => simp only [h]; rfl
  | error e d' => simp only [h]

theorem unplaced_within (names : List (String × IR.Operand)) (act : Lowering α) :
    (within names act).unplaced = within names act.unplaced := by
  funext d
  unfold within unplaced EStateM.adaptExcept
  dsimp only
  generalize act _ = r
  cases r <;> rfl

theorem unplaced_lookup (id : String) (pos : Position) :
    (lookup id .unknown).unplaced = (lookup id pos).unplaced := by
  unfold lookup
  rw [unplaced_bind, unplaced_bind]
  congr 1
  funext d
  cases d.scope.get? id <;> rfl

end Lowering

theorem length_unplacedAll (es : List Expr) : (unplacedAll es).length = es.length := by
  induction es with
  | nil => rfl
  | cons e es ih => simp [unplacedAll, ih]

namespace Lowering

mutual

theorem unplaced_expression (arity? : String → Option Nat) (e : Expr) :
    (expression arity? e.unplaced).unplaced = (expression arity? e).unplaced := by
  cases e with
  | integer v p => rfl
  | float v p => rfl
  | missing => rfl
  | name id p => simpa only [Expr.unplaced, expression] using unplaced_lookup id p
  | bind id init body p =>
    simp only [Expr.unplaced, expression, unplaced_bind, unplaced_within,
      unplaced_expression arity? init, unplaced_expression arity? body]
  | unary op x p =>
    simp only [Expr.unplaced, expression, unplaced_bind, unplaced_expression arity? x]
    congr 1
    funext v
    split <;> rfl
  | binary op x y p =>
    simp only [Expr.unplaced, expression, unplaced_bind, unplaced_expression arity? x,
      unplaced_expression arity? y]
    congr 1
    funext v
    congr 1
    funext w
    split <;> rfl
  | call f args p =>
    simp only [Expr.unplaced, expression, length_unplacedAll]
    split
    · rfl
    · split
      · simp only [unplaced_bind, unplaced_arguments arity? args]
      · rfl

theorem unplaced_arguments (arity? : String → Option Nat) (es : List Expr) :
    (arguments arity? (unplacedAll es)).unplaced = (arguments arity? es).unplaced := by
  cases es with
  | nil => rfl
  | cons e es =>
    simp only [unplacedAll, arguments, unplaced_bind, unplaced_expression arity? e,
      unplaced_arguments arity? es]

end

end Lowering

/-! ## Items -/

namespace Generator

/-- A lowered body without the place of its error. -/
def Lowered.unplaced (l : Lowered) : Lowered :=
  { l with block := l.block.mapError LoweringError.unplaced }

/-- Bodies that are lowered to the same values, or fail in the same way, have the same blocks. -/
theorem unplaced_lowerBody_congr {g : Generator} {registry : Registry} {params : List String}
    {body body' : Expr} {promoted : Bool}
    (h : (bodyValue registry params body promoted).unplaced ⟨g.scope, #[], false⟩ =
      (bodyValue registry params body' promoted).unplaced ⟨g.scope, #[], false⟩) :
    (g.lowerBody registry params body promoted).unplaced =
      (g.lowerBody registry params body' promoted).unplaced := by
  unfold Lowering.unplaced EStateM.adaptExcept at h
  unfold lowerBody Lowered.unplaced
  revert h
  cases bodyValue registry params body promoted ⟨g.scope, #[], false⟩ <;>
    cases bodyValue registry params body' promoted ⟨g.scope, #[], false⟩ <;>
    simp +contextual [Except.mapError]

theorem unplaced_lowerBody (g : Generator) (registry : Registry) (params : List String) (body : Expr)
    (promoted : Bool) : (g.lowerBody registry params body.unplaced promoted).unplaced =
      (g.lowerBody registry params body promoted).unplaced := by
  have hvalue : (bodyValue registry params body.unplaced promoted).unplaced =
      (bodyValue registry params body promoted).unplaced := by
    simp only [bodyValue, Lowering.unplaced_within, Lowering.unplaced_bind,
      Lowering.unplaced_expression]
  exact unplaced_lowerBody_congr (congrFun hvalue _)

end Generator

/-- What came of an item, without the place of its error. -/
def Generated.unplaced (s : Generated) : Generated :=
  { s with result := s.result.mapError LoweringError.unplaced }

/-- What is generated up to places: one generator, and one symbol or errors that differ in places. -/
theorem Generated.eq_of_unplaced {s t : Generated} (h : s.unplaced = t.unplaced) :
    s.generator = t.generator ∧ ((∃ f, s.result = .ok f ∧ t.result = .ok f) ∨
      ∃ e e', s.result = .error e ∧ t.result = .error e' ∧ e.unplaced = e'.unplaced) := by
  have hgenerator := congrArg Generated.generator h
  have hresult := congrArg Generated.result h
  simp only [Generated.unplaced] at hgenerator hresult
  refine ⟨hgenerator, ?_⟩
  cases hs : s.result with
  | ok f =>
    cases ht : t.result with
    | error e => simp [hs, ht, Except.mapError] at hresult
    | ok f' =>
      obtain rfl : f = f' := by simpa [hs, ht, Except.mapError] using hresult
      exact .inl ⟨f, rfl, rfl⟩
  | error e =>
    cases ht : t.result with
    | ok f => simp [hs, ht, Except.mapError] at hresult
    | error e' => exact .inr ⟨e, e', rfl, rfl, by simpa [hs, ht, Except.mapError] using hresult⟩

namespace Generator

theorem unplaced_declare (g : Generator) (p : Prototype) :
    (g.declare p.unplaced).unplaced = (g.declare p).unplaced := by
  have hfault : g.prototypeFault? p.unplaced = g.prototypeFault? p := rfl
  unfold declare
  rw [hfault]
  split
  · rfl
  · rfl

/-- A definition depends on its body only by the block of it. -/
theorem unplaced_define_congr {g : Generator} {name : String} {params : List String} {pos pos' : Position}
    {body body' : Expr}
    (h : (g.lowerBody (g.registry.insert name ⟨params.length, false⟩) params body true).unplaced =
      (g.lowerBody (g.registry.insert name ⟨params.length, false⟩) params body' true).unplaced) :
    (g.define ⟨name, params, pos⟩ body).unplaced = (g.define ⟨name, params, pos'⟩ body').unplaced := by
  have hfault : g.prototypeFault? ⟨name, params, pos⟩ = g.prototypeFault? ⟨name, params, pos'⟩ := rfl
  unfold define
  rw [hfault]
  dsimp only [functionOf]
  by_cases hdefined : (g.registry.get? name).any Signature.defined = true
  · rw [if_pos hdefined, if_pos hdefined]
    rfl
  · rw [if_neg hdefined, if_neg hdefined]
    cases g.prototypeFault? ⟨name, params, pos'⟩ with
    | some fault => rfl
    | none =>
      generalize g.lowerBody _ params body true = l at h ⊢
      generalize g.lowerBody _ params body' true = l' at h ⊢
      obtain ⟨block, _, _⟩ := l
      obtain ⟨block', _, _⟩ := l'
      revert h
      cases block <;> cases block' <;>
        simp +contextual [Lowered.unplaced, Except.mapError, Generated.unplaced]

theorem unplaced_define (g : Generator) (p : Prototype) (body : Expr) :
    (g.define p.unplaced body.unplaced).unplaced = (g.define p body).unplaced :=
  unplaced_define_congr (unplaced_lowerBody g _ p.params body true)

theorem unplaced_evaluate_congr {g : Generator} {body body' : Expr}
    (h : (g.lowerBody g.registry [] body false).unplaced =
      (g.lowerBody g.registry [] body' false).unplaced) :
    (g.evaluate body).unplaced = (g.evaluate body').unplaced := by
  unfold evaluate
  generalize g.lowerBody _ [] body false = l at h ⊢
  generalize g.lowerBody _ [] body' false = l' at h ⊢
  obtain ⟨block, _, _⟩ := l
  obtain ⟨block', _, _⟩ := l'
  revert h
  cases block <;> cases block' <;>
    simp +contextual [Lowered.unplaced, Except.mapError, Generated.unplaced]

theorem unplaced_evaluate (g : Generator) (body : Expr) :
    (g.evaluate body.unplaced).unplaced = (g.evaluate body).unplaced :=
  unplaced_evaluate_congr (unplaced_lowerBody g g.registry [] body false)

/-- The code of an item does not depend on its places, and neither does what is wrong with it. -/
theorem unplaced_item (g : Generator) (i : Item) : (g.item i.unplaced).unplaced = (g.item i).unplaced := by
  cases i with
  | external p pos => exact g.unplaced_declare p
  | evaluate body pos => exact g.unplaced_evaluate body
  | define p body pos =>
    cases hp : p.isAnonymous with
    | false =>
      simp only [Item.unplaced, item, hp, Bool.false_and, Bool.false_eq_true, ↓reduceIte,
        Prototype.isAnonymous_unplaced]
      exact g.unplaced_define p body
    | true =>
      cases hempty : p.params.isEmpty with
      | true =>
        simp only [Item.unplaced, item, hp, hempty, Bool.and_self, ↓reduceIte]
        exact g.unplaced_evaluate body
      | false =>
        simp only [Item.unplaced, item, hp, hempty, Bool.and_false, Bool.false_eq_true, ↓reduceIte,
          Prototype.isAnonymous_unplaced]
        exact g.unplaced_evaluate body

end Generator

/-! ## Readings -/

/-- Trees that differ at most in their places. -/
def Expr.Same (x y : Expr) : Prop := x.unplaced = y.unplaced

theorem unplacedAll_of_forall₂ {xs ys : List Expr} (h : List.Forall₂ Expr.Same xs ys) :
    unplacedAll xs = unplacedAll ys := by
  induction h with
  | nil => rfl
  | cons hx _ ih => rw [unplacedAll, unplacedAll, hx, ih]

theorem Token.ReadsAs.text_of_identifier {t u : Token} (h : t.ReadsAs u) (hk : t.kind = .identifier) :
    t.text = u.text := by
  have ho : t.operandStart? = some .name := by simp [Token.operandStart?, hk]
  exact h.text_eq ho

namespace Reading

variable {ε δ : Type} {R : Cursor ε → Cursor δ → Prop} {T : Token → Token → Prop}
  {F : Failure ε → Failure δ → Prop}

/-- Readings that no item tells apart build trees that differ at most in their places. -/
theorem parallel_same (hreads : ∀ {t u}, T t u → t.ReadsAs u)
    (hlook : ∀ {c d}, R c d → Looks R T F c.peek d.peek)
    (hgrammar : ∀ {t u} fault, T t u → F (.grammar ⟨fault, t⟩) (.grammar ⟨fault, u⟩)) :
    Parallel R T Expr.Same F where
  reads := hreads
  look := hlook
  grammar := hgrammar
  integer := by intros; rfl
  float := by intros; rfl
  name := by
    intro t u ht hk
    rw [Expr.Same, Expr.unplaced, Expr.unplaced, (hreads ht).text_of_identifier hk]
  call := by
    intro t u xs ys ht hk hx
    rw [Expr.Same, Expr.unplaced, Expr.unplaced, (hreads ht).text_of_identifier hk,
      unplacedAll_of_forall₂ hx]
  unary := by
    intro t u op x y _ _ hx
    rw [Expr.Same, Expr.unplaced, Expr.unplaced, hx]
  binary := by
    intro t u op p x x' y y' _ _ hx hy
    rw [Expr.Same, Expr.unplaced, Expr.unplaced, hx, hy]
  zero := by intros; rfl
  bind := by
    intro t u x x' y y' ht hk hx hy
    rw [Expr.Same, Expr.unplaced, Expr.unplaced, (hreads ht).text_of_identifier hk, hx, hy]

theorem names_eq (hreads : ∀ {t u}, T t u → t.ReadsAs u) {xs ys : List String} (h : Names T xs ys) :
    xs = ys := by
  obtain ⟨ts, us, hts, hks, rfl, rfl⟩ := h
  induction hts with
  | nil => rfl
  | cons ht _ ih =>
    obtain ⟨hk, hks⟩ := List.forall_mem_cons.1 hks
    rw [List.map_cons, List.map_cons, (hreads ht).text_of_identifier hk, ih hks]

/-- Items that were read from such tokens differ at most in their places. -/
theorem unplaced_of_items (hreads : ∀ {t u}, T t u → t.ReadsAs u) {i j : Item}
    (h : Items T Expr.Same i j) : i.unplaced = j.unplaced := by
  have hheads {p q : Prototype} (hp : Heads T p q) : ∃ pos, q = { p with pos := pos } := by
    obtain ⟨ht, hk, hn⟩ := hp
    exact ⟨_, by rw [(hreads ht).text_of_identifier hk, names_eq hreads hn]⟩
  cases h with
  | external ht hp =>
    obtain ⟨pos, rfl⟩ := hheads hp
    rfl
  | define ht hp hx =>
    obtain ⟨pos, rfl⟩ := hheads hp
    rw [Item.unplaced, Item.unplaced, show _ = _ from hx]
    rfl
  | evaluate ht hx => rw [Item.unplaced, Item.unplaced, show _ = _ from hx]

end Reading

/-! ## Streams -/

theorem Token.same_iff {t u : Token} : t.Same u ↔ t.unplaced = u.unplaced := by
  simp [Token.Same, Token.unplaced]

/-- Answers that differ at most in their places. -/
inductive SameAnswer : Except ScanError Token → Except ScanError Token → Prop
  | token {t u : Token} (ht : t.Same u) : SameAnswer (.ok t) (.ok u)
  | error {e e' : ScanError} (he : e.unplaced = e'.unplaced) : SameAnswer (.error e) (.error e')

/-- Failures that differ at most in their places. -/
def Failure.Same (f f' : Failure ScanError) : Prop := f.unplaced = f'.unplaced

/-- Cursors that hold and await the same, up to places. -/
structure Cursor.Same (c d : Cursor ScanError) : Prop where
  lookahead : Option.Rel Token.Same c.lookahead d.lookahead
  coming : List.Forall₂ SameAnswer c.coming d.coming

namespace Reading

open Token (Same)

theorem looks_same {c d : Cursor ScanError} (h : c.Same d) :
    Looks Cursor.Same Same Failure.Same c.peek d.peek := by
  obtain ⟨l, cs, p⟩ := c
  obtain ⟨l', cs', p'⟩ := d
  obtain ⟨hl, hcs⟩ := h
  cases hl with
  | some ht => exact .token ht ⟨.some ht, hcs⟩ fun _ => ⟨.none, hcs⟩
  | none =>
    cases hcs with
    | nil =>
      have ht : Same ⟨.endOfInput, "", p⟩ ⟨.endOfInput, "", p'⟩ := ⟨rfl, rfl⟩
      exact .token ht ⟨.some ht, .nil⟩ fun _ => ⟨.none, .nil⟩
    | cons ha hcs =>
      cases ha with
      | token ht => exact .token ht ⟨.some ht, hcs⟩ fun _ => ⟨.none, hcs⟩
      | error he => exact .error (congrArg Failure.stream he) ⟨.none, hcs⟩

theorem lockstep_same : Lockstep Cursor.Same Same Expr.Same Failure.Same where
  toParallel := parallel_same .inl looks_same fun fault ht =>
    congrArg (fun t => Failure.grammar ⟨fault, t⟩) (Token.same_iff.1 ht)
  same := id

/-- Streams that differ in places are read to results that do. -/
theorem results_same {c d : Cursor ScanError} (h : c.Same d) :
    List.Forall₂ (Outcomes Same Expr.Same Failure.Same) (Parse.results c) (Parse.results d) :=
  (lockstep_same.aligned fun h => ⟨.none, h.coming⟩).forall₂_results h

end Reading

/-! ## Compilations -/

namespace Compilation

open Reading (Outcomes unplaced_of_items)

variable (Q : CompileError → CompileError → Prop) (P : Interruption → Interruption → Prop)

/-- What related failures are. -/
inductive Diagnoses : Except Interruption CompileError → Except Interruption CompileError → Prop
  | ok {e e' : CompileError} (hq : Q e e') : Diagnoses (.ok e) (.ok e')
  | error {i i' : Interruption} (hp : P i i') : Diagnoses (.error i) (.error i')

theorem diagnoses_of_same {f f' : Failure ScanError} (h : f.Same f') :
    Diagnoses (fun e e' => e.unplaced = e'.unplaced) (fun i i' => i.unplaced = i'.unplaced)
      f.diagnose f'.diagnose := by
  rcases f with (e | ⟨pos, cause⟩) | e | _ <;> rcases f' with (e' | ⟨pos', cause'⟩) | e' | _ <;>
    simp only [Failure.Same, Failure.unplaced, ScanError.unplaced, Failure.stream.injEq,
      ScanError.lexical.injEq, ScanError.unreadable.injEq, Failure.grammar.injEq, reduceCtorEq] at h
  · exact .ok (congrArg CompileError.lexical h)
  · exact .error (congrArg (Interruption.unreadable .unknown) h.2)
  · exact .ok (congrArg CompileError.grammar h)
  · exact .error rfl

/-- Compilations that come to the same, with related errors. -/
structure Agrees (c d : Compilation) : Prop where
  symbols : c.symbols = d.symbols
  generator : c.generator = d.generator
  errors : List.Forall₂ Q c.errors d.errors
  interruption : Option.Rel P c.interruption? d.interruption?

variable {Q P} {c d : Compilation}

theorem agrees_stop (g : Generator) : Agrees Q P (stop g) (stop g) := ⟨rfl, rfl, .nil, .none⟩

theorem Agrees.error {e e' : CompileError} (h : Agrees Q P c d) (hq : Q e e') (events events' : List Event) :
    Agrees Q P { c with errors := e :: c.errors, events := events }
      { d with errors := e' :: d.errors, events := events' } :=
  ⟨h.symbols, h.generator, .cons hq h.errors, h.interruption⟩

/-- Results that differ in places only, and in failures that are related, are compiled to the same. -/
theorem agrees_ofResults {T : Token → Token → Prop} {F : Failure ScanError → Failure ScanError → Prop}
    (hreads : ∀ {t u}, T t u → t.ReadsAs u)
    (hfailures : ∀ {f f'}, F f f' → Diagnoses Q P f.diagnose f'.diagnose)
    (hlowering : ∀ {e e'}, e.unplaced = e'.unplaced → Q (.lowering e) (.lowering e'))
    {rs rs' : List (Except (Failure ScanError) Item)} (h : List.Forall₂ (Outcomes T Expr.Same F) rs rs')
    (keepGoing : Bool) (g : Generator) :
    Agrees Q P (ofResults keepGoing g rs) (ofResults keepGoing g rs') := by
  induction h generalizing g with
  | nil => exact agrees_stop g
  | cons hfirst _ ih =>
    cases hfirst with
    | error hf =>
      simp only [ofResults]
      have hdiagnoses := hfailures hf
      revert hdiagnoses
      generalize Failure.diagnose _ = r
      generalize Failure.diagnose _ = r'
      intro hdiagnoses
      cases hdiagnoses with
      | error hp => exact ⟨rfl, rfl, .nil, .some hp⟩
      | ok hq =>
        cases keepGoing with
        | true => exact (ih g).error hq _ _
        | false => exact (agrees_stop g).error hq _ _
    | @ok i j hij =>
      simp only [ofResults]
      have hsame : (g.item i).unplaced = (g.item j).unplaced := by
        rw [← g.unplaced_item i, unplaced_of_items hreads hij, g.unplaced_item j]
      obtain ⟨hgenerator, hresult⟩ := Generated.eq_of_unplaced hsame
      rw [hgenerator]
      have hnext := ih (g.item j).generator
      obtain ⟨f, hi, hj⟩ | ⟨e, e', hi, hj, herror⟩ := hresult
      · simp only [hi, hj]
        exact ⟨congrArg (f :: ·) hnext.symbols, hnext.generator, hnext.errors, hnext.interruption⟩
      · have hinternal : e.isInternal = e'.isInternal := by
          change e.unplaced.isInternal = e'.unplaced.isInternal
          rw [herror]
        simp only [hi, hj, hinternal]
        split
        · exact hnext.error (hlowering herror) _ _
        · exact (agrees_stop _).error (hlowering herror) _ _

end Compilation

end ScalarLang
