import ScalarLang.Proofs.Generation
import ScalarLang.Proofs.Places
/-!
# The names of bindings do not matter

Two trees are alpha-equivalent if they are equal up to their places and a consistent renaming of the
names that they bind (`Expr.AlphaEquiv`). Lowering looks at names only in the scope, so in scopes that
give the same operands to corresponding names such trees have the same code, or the same fault
(`unplaced_inScope_expression`). `item_alphaEquiv`: definitions with one head and alpha-equivalent bodies
come to the same.
-/
namespace ScalarLang

open IR

/-! ## Trees up to the names of bindings -/

/-- The names that are bound at one place of two trees, in pairs, the innermost first. -/
abbrev Pairing := List (String × String)

/-- Whether a name in the first tree and a name in the second one mean the same: one binding is the
innermost for both, or both are free and equal. -/
def Pairing.relates : Pairing → String → String → Bool
  | [], x, y => x = y
  | (a, b) :: ρ, x, y => if x = a || y = b then x = a && y = b else relates ρ x y

mutual

/-- Trees that are equal up to their places and the names of their bindings, where the names in `ρ` are
bound. -/
inductive Expr.AlphaEquiv : Pairing → Expr → Expr → Prop
  | integer {ρ : Pairing} (v : Int64) (p q : Position) : Expr.AlphaEquiv ρ (.integer v p) (.integer v q)
  | float {ρ : Pairing} (v : Binary64) (p q : Position) : Expr.AlphaEquiv ρ (.float v p) (.float v q)
  | name {ρ : Pairing} {x y : String} (h : ρ.relates x y = true) (p q : Position) :
      Expr.AlphaEquiv ρ (.name x p) (.name y q)
  | bind {ρ : Pairing} {x y : String} {init init' body body' : Expr} (hinit : Expr.AlphaEquiv ρ init init')
      (hbody : Expr.AlphaEquiv ((x, y) :: ρ) body body') (p q : Position) :
      Expr.AlphaEquiv ρ (.bind x init body p) (.bind y init' body' q)
  | unary {ρ : Pairing} {e e' : Expr} (op : Operator) (h : Expr.AlphaEquiv ρ e e') (p q : Position) :
      Expr.AlphaEquiv ρ (.unary op e p) (.unary op e' q)
  | binary {ρ : Pairing} {l l' r r' : Expr} (op : Operator) (hl : Expr.AlphaEquiv ρ l l')
      (hr : Expr.AlphaEquiv ρ r r') (p q : Position) :
      Expr.AlphaEquiv ρ (.binary op l r p) (.binary op l' r' q)
  | call {ρ : Pairing} {es es' : List Expr} (callee : String) (h : AlphaEquivAll ρ es es')
      (p q : Position) : Expr.AlphaEquiv ρ (.call callee es p) (.call callee es' q)
  | missing {ρ : Pairing} : Expr.AlphaEquiv ρ .missing .missing

/-- Lists of trees that are equivalent one by one. -/
inductive AlphaEquivAll : Pairing → List Expr → List Expr → Prop
  | nil {ρ : Pairing} : AlphaEquivAll ρ [] []
  | cons {ρ : Pairing} {e e' : Expr} {es es' : List Expr} (he : Expr.AlphaEquiv ρ e e')
      (hes : AlphaEquivAll ρ es es') : AlphaEquivAll ρ (e :: es) (e' :: es')

end

theorem AlphaEquivAll.length_eq : ∀ {ρ : Pairing} {es es' : List Expr}, AlphaEquivAll ρ es es' →
    es.length = es'.length
  | _, _, _, .nil => rfl
  | _, _, _, .cons _ hes => by rw [List.length_cons, List.length_cons, hes.length_eq]

/-- Definitions of functions with the same names and parameters, or expressions to be evaluated, whose
bodies are alpha-equivalent. -/
inductive Item.AlphaEquiv : Item → Item → Prop
  | define {body body' : Expr} (name : String) (params : List String)
      (h : Expr.AlphaEquiv [] body body') (p p' q q' : Position) :
      Item.AlphaEquiv (.define ⟨name, params, p⟩ body q) (.define ⟨name, params, p'⟩ body' q')
  | evaluate {body body' : Expr} (h : Expr.AlphaEquiv [] body body') (q q' : Position) :
      Item.AlphaEquiv (.evaluate body q) (.evaluate body' q')

/-! ## Scopes -/

namespace Scope

variable {α : Type} {ρ : Pairing} {s s' : Scope α}

/-- Names that mean the same have the same values, and are equal if they have none. -/
def Agree (ρ : Pairing) (s s' : Scope α) : Prop :=
  ∀ x y, ρ.relates x y = true → s.get? x = s'.get? y ∧ (s.get? x = none → x = y)

theorem Agree.refl (s : Scope α) : Agree [] s s := by
  intro x y h
  obtain rfl : x = y := of_decide_eq_true h
  exact ⟨rfl, fun _ => rfl⟩

theorem Agree.push (h : Agree ρ s s') (a b : String) (v : α) :
    Agree ((a, b) :: ρ) (s.push.set a v) (s'.push.set b v) := by
  intro x y hxy
  rw [get?_set, get?_set, get?_push, get?_push]
  simp only [Pairing.relates, Bool.or_eq_true, decide_eq_true_eq] at hxy
  split at hxy
  · simp only [Bool.and_eq_true, decide_eq_true_eq] at hxy
    rw [if_pos hxy.1, if_pos hxy.2]
    exact ⟨rfl, fun hnone => by cases hnone⟩
  · rename_i hne
    obtain ⟨hx, hy⟩ := not_or.1 hne
    rw [if_neg hx, if_neg hy]
    exact h x y hxy

end Scope

/-! ## Lowering in another scope -/

namespace Lowering

variable {α β : Type}

/-- Lowering with another scope for as long as it takes. -/
def inScope (s : Scope Operand) (act : Lowering α) : Lowering α := fun d =>
  match act { d with scope := s } with
  | .ok a d' => .ok a { d' with scope := d.scope }
  | .error e d' => .error e { d' with scope := d.scope }

theorem inScope_bind (s : Scope Operand) {act : Lowering α} (h : Extends act) (f : α → Lowering β) :
    inScope s (act >>= f) = inScope s act >>= fun a => inScope s (f a) := by
  funext d
  have hscope := (h { d with scope := s }).scope
  show inScope s (EStateM.bind act f) d = EStateM.bind (inScope s act) _ d
  unfold draft at hscope
  unfold inScope EStateM.bind
  cases hact : act { d with scope := s } with
  | error e d' => simp only [hact]
  | ok a d' =>
    simp only [hact] at hscope ⊢
    rw [← hscope]

/-- A frame of its own is a scope of its own. -/
theorem inScope_within (s : Scope Operand) {act : Lowering α} (names : List (String × Operand)) :
    inScope s (within names act) = inScope (names.foldl (fun s (id, v) => s.set id v) s.push) act := by
  funext d
  unfold inScope within
  dsimp only
  generalize act _ = r
  cases r <;> rfl

theorem within_eq_inScope {act : Lowering α} (h : Extends act) (names : List (String × Operand))
    (d : Draft) : within names act d =
      inScope (names.foldl (fun s (id, v) => s.set id v) d.scope.push) act d := by
  have hpop := Scope.pop_foldl_set_push names d.scope
  unfold within inScope
  dsimp only
  generalize List.foldl _ _ names = inner at hpop ⊢
  have hscope := (h { d with scope := inner }).scope
  unfold draft at hscope
  cases hact : act { d with scope := inner } with
  | ok a d' =>
    simp only [hact] at hscope ⊢
    rw [hscope, hpop]
  | error e d' =>
    simp only [hact] at hscope ⊢
    rw [hscope, hpop]

theorem inScope_lookup_of_some {s : Scope Operand} {id : String} {v : Operand} (h : s.get? id = some v)
    (pos : Position) : inScope s (lookup id pos) = pure v := by
  funext d
  unfold inScope
  rw [lookup_of_some h]
  rfl

theorem inScope_lookup_of_none {s : Scope Operand} {id : String} (h : s.get? id = none)
    (pos : Position) : inScope s (lookup id pos) = throw ⟨.undefinedName id, pos⟩ := by
  funext d
  unfold inScope
  rw [lookup_of_none h]
  rfl

theorem unplaced_inScope_lookup {ρ : Pairing} {s s' : Scope Operand} {x y : String}
    (hs : Scope.Agree ρ s s') (h : ρ.relates x y = true) (p q : Position) :
    (inScope s (lookup x p)).unplaced = (inScope s' (lookup y q)).unplaced := by
  obtain ⟨hget, hfree⟩ := hs x y h
  cases hx : s.get? x with
  | some v => rw [inScope_lookup_of_some hx, inScope_lookup_of_some (hget ▸ hx)]
  | none =>
    rw [inScope_lookup_of_none hx, inScope_lookup_of_none (hget ▸ hx), hfree hx]
    rfl

/-- An action that does not look at the scope. -/
def Scopeless (act : Lowering α) : Prop := ∀ s, inScope s act = act

namespace Scopeless

theorem pure (a : α) : Scopeless (Pure.pure a) := fun _ => rfl

theorem emit (i : Instr) : Scopeless (Lowering.emit i) := fun _ => rfl

theorem bind {act : Lowering α} {f : α → Lowering β} (hext : Extends act) (h : Scopeless act)
    (hf : ∀ a, Scopeless (f a)) : Scopeless (act >>= f) := by
  intro s
  rw [inScope_bind s hext, h s]
  congr 1
  funext a
  exact hf a s

end Scopeless

/-- An action that is left out if constants decide its result. -/
theorem Scopeless.unless {act : Lowering Operand} (h : Scopeless act) (known : Option Operand) :
    Scopeless (match known with
      | some k => Pure.pure k
      | none => act) := by
  cases known with
  | none => exact h
  | some k => exact .pure k

theorem scopeless_promote (v : Operand) : Scopeless (promote v) := by
  unfold promote
  split
  · exact .pure _
  · split
    · exact .pure _
    · exact .emit _

theorem scopeless_negate (v : Operand) : Scopeless (negate v) := by
  unfold negate
  split
  · exact .pure _
  · split <;> exact .emit _

theorem scopeless_balance (x y : Operand) : Scopeless (balance x y) := by
  unfold balance
  split
  · exact .bind (extends_promote x) (scopeless_promote x) fun _ =>
      .bind (extends_promote y) (scopeless_promote y) fun _ => .pure _
  · exact .pure _

theorem scopeless_arith (op : Arithmetic) (x y : Operand) : Scopeless (arith op x y) :=
  .bind (extends_balance x y) (scopeless_balance x y) fun (on, x, y) =>
    .unless (.emit (.arith op on x y)) (Operand.foldArith? op x y)

theorem scopeless_compare (op : Comparison) (x y : Operand) : Scopeless (compare op x y) :=
  .bind (extends_balance x y) (scopeless_balance x y) fun (on, x, y) =>
    .unless (.bind (extends_emit _) (.emit (.compare op on x y)) fun bit => .emit (.widen bit))
      (Operand.foldCompare? op x y)

theorem scopeless_power (x y : Operand) : Scopeless (power x y) :=
  .bind (extends_promote x) (scopeless_promote x) fun x =>
    .bind (extends_promote y) (scopeless_promote y) fun y =>
      .unless (fun _ => rfl) (Operand.foldPower? x y)

theorem scopeless_binary {op : Operator} {compute : Operand → Operand → Lowering Operand}
    (h : binary? op = some compute) (x y : Operand) : Scopeless (compute x y) := by
  cases op <;> simp only [binary?, Option.some.injEq, reduceCtorEq] at h <;> subst h
  all_goals first
    | exact scopeless_arith _ x y
    | exact scopeless_compare _ x y
    | exact scopeless_power x y

/-- Actions that come to the same in every scope do so in a frame, also with the same action after them. -/
theorem unplaced_within_congr {act act' : Lowering α} {f : α → Lowering β} (hact : Extends act)
    (hact' : Extends act') (hf : ∀ a, Extends (f a))
    (h : ∀ s, (inScope s act).unplaced = (inScope s act').unplaced) (names : List (String × Operand))
    (d : Draft) : (within names (act >>= f)).unplaced d = (within names (act' >>= f)).unplaced d := by
  have hscope (s : Scope Operand) : (inScope s (act >>= f)).unplaced = (inScope s (act' >>= f)).unplaced := by
    rw [inScope_bind s hact, inScope_bind s hact', unplaced_bind, unplaced_bind, h s]
  have hd := congrFun (hscope (names.foldl (fun s (id, v) => s.set id v) d.scope.push)) d
  unfold unplaced EStateM.adaptExcept at hd ⊢
  rwa [within_eq_inScope (hact.bind hf), within_eq_inScope (hact'.bind hf)]

/-! ## Expressions -/

mutual

/-- Alpha-equivalent trees have the same code in scopes that agree, or the same fault. -/
theorem unplaced_inScope_expression (arity? : String → Option Nat) {ρ : Pairing} {s s' : Scope Operand}
    {e e' : Expr} (hs : Scope.Agree ρ s s') (h : e.AlphaEquiv ρ e') :
    (inScope s (expression arity? e)).unplaced = (inScope s' (expression arity? e')).unplaced := by
  cases h with
  | integer v p q => rfl
  | float v p q => rfl
  | missing => rfl
  | name h p q => simpa only [expression] using unplaced_inScope_lookup hs h p q
  | bind hinit hbody p q =>
    simp only [expression, inScope_bind _ (extends_expression arity? _), unplaced_bind, inScope_within]
    rw [unplaced_inScope_expression arity? hs hinit]
    congr 1
    funext v
    exact unplaced_inScope_expression arity? (hs.push _ _ v) hbody
  | unary op h p q =>
    simp only [expression, inScope_bind _ (extends_expression arity? _), unplaced_bind]
    rw [unplaced_inScope_expression arity? hs h]
    congr 1
    funext v
    split
    · rfl
    · rw [scopeless_negate v s, scopeless_negate v s']
    · rfl
  | binary op hl hr p q =>
    simp only [expression, inScope_bind _ (extends_expression arity? _), unplaced_bind]
    rw [unplaced_inScope_expression arity? hs hl, unplaced_inScope_expression arity? hs hr]
    congr 1
    funext v
    congr 1
    funext w
    split
    · rename_i compute hcompute
      rw [scopeless_binary hcompute v w s, scopeless_binary hcompute v w s']
    · rfl
  | call callee h p q =>
    simp only [expression, h.length_eq]
    split
    · rfl
    · split
      · simp only [inScope_bind _ (extends_arguments arity? _), unplaced_bind]
        rw [unplaced_inScope_arguments arity? hs h]
        rfl
      · rfl
termination_by sizeOf e

theorem unplaced_inScope_arguments (arity? : String → Option Nat) {ρ : Pairing} {s s' : Scope Operand}
    {es es' : List Expr} (hs : Scope.Agree ρ s s') (h : AlphaEquivAll ρ es es') :
    (inScope s (arguments arity? es)).unplaced = (inScope s' (arguments arity? es')).unplaced := by
  cases h with
  | nil => rfl
  | cons he hes =>
    simp only [arguments, inScope_bind _ (extends_expression arity? _),
      inScope_bind _ (extends_promote _), inScope_bind _ (extends_arguments arity? _), unplaced_bind,
      scopeless_promote _ s, scopeless_promote _ s']
    rw [unplaced_inScope_expression arity? hs he, unplaced_inScope_arguments arity? hs hes]
    rfl
termination_by sizeOf es

end

end Lowering

/-! ## Items -/

namespace Generator

open Lowering

theorem unplaced_bodyValue (registry : Registry) (params : List String) {body body' : Expr}
    (promoted : Bool) (h : Expr.AlphaEquiv [] body body') (d : Draft) :
    (bodyValue registry params body promoted).unplaced d =
      (bodyValue registry params body' promoted).unplaced d := by
  apply unplaced_within_congr (extends_expression _ body) (extends_expression _ body')
  · intro v
    split
    · exact extends_promote v
    · exact .pure v
  · intro s
    exact unplaced_inScope_expression registry.arity? (.refl s) h

theorem unplaced_lowerBody_of_alphaEquiv (g : Generator) (registry : Registry) (params : List String)
    {body body' : Expr} (promoted : Bool) (h : Expr.AlphaEquiv [] body body') :
    (g.lowerBody registry params body promoted).unplaced =
      (g.lowerBody registry params body' promoted).unplaced :=
  unplaced_lowerBody_congr (unplaced_bodyValue registry params promoted h _)

theorem unplaced_item_of_alphaEquiv (g : Generator) {i j : Item} (h : i.AlphaEquiv j) :
    (g.item i).unplaced = (g.item j).unplaced := by
  cases h with
  | evaluate h q q' =>
    exact unplaced_evaluate_congr (g.unplaced_lowerBody_of_alphaEquiv g.registry [] false h)
  | define name params h p p' q q' =>
    by_cases hname : name = ""
    · simp only [item, Prototype.isAnonymous, hname, decide_true, ↓reduceIte]
      exact unplaced_evaluate_congr (g.unplaced_lowerBody_of_alphaEquiv g.registry [] false h)
    · simp only [item, Prototype.isAnonymous, hname, decide_false, Bool.false_eq_true, ↓reduceIte]
      exact unplaced_define_congr (g.unplaced_lowerBody_of_alphaEquiv _ params true h)

/-- An item with a body that succeeds leaves its function in the module. -/
theorem find?_item_of_ok {g : Generator} {i : Item} {s : IR.Symbol} (hi : i.kind = .define)
    (h : (g.item i).result = .ok s) :
    ∃ f block, (g.item i).generator.module.find? s = some f ∧ f.body? = some block := by
  cases i with
  | external p pos => cases hi
  | evaluate body pos =>
    obtain ⟨block, -, hfind⟩ := evaluate_eq_ok h
    exact ⟨_, block, hfind, rfl⟩
  | define p body pos =>
    unfold item at h ⊢
    cases hp : p.isAnonymous with
    | true =>
      simp only [hp, ↓reduceIte] at h ⊢
      obtain ⟨block, -, hfind⟩ := evaluate_eq_ok h
      exact ⟨_, block, hfind, rfl⟩
    | false =>
      simp only [hp, Bool.false_eq_true, ↓reduceIte] at h ⊢
      obtain ⟨-, registry, block, -, hfind⟩ := define_eq_ok h
      exact ⟨_, block, hfind, rfl⟩

/-- The names of bindings do not matter: definitions with one head and alpha-equivalent bodies leave one
generator, and both succeed with one function, or both fail with one error up to its place. -/
theorem item_alphaEquiv (g : Generator) {i j : Item} (h : i.AlphaEquiv j) :
    (g.item i).generator = (g.item j).generator ∧
    ((∃ s f block, (g.item i).result = .ok s ∧ (g.item j).result = .ok s ∧
        (g.item i).generator.module.find? s = some f ∧ (g.item j).generator.module.find? s = some f ∧
        f.body? = some block) ∨
      ∃ e e', (g.item i).result = .error e ∧ (g.item j).result = .error e' ∧
        e.unplaced = e'.unplaced) := by
  obtain ⟨hgenerator, hresult⟩ := Generated.eq_of_unplaced (g.unplaced_item_of_alphaEquiv h)
  refine ⟨hgenerator, ?_⟩
  obtain ⟨s, hi, hj⟩ | herror := hresult
  · have hkind : i.kind = .define := by cases h <;> rfl
    obtain ⟨f, block, hfind, hbody⟩ := find?_item_of_ok hkind hi
    exact .inl ⟨s, f, block, hi, hj, hfind, hgenerator ▸ hfind, hbody⟩
  · exact .inr herror

/-- The definition `def f(a) var x = a in var y = x * 2 in y - x`, with two names of one letter for `x`
and `y`. -/
def doubling (x y : String) : Item :=
  .define ⟨"f", ["a"], ⟨1, 5, 4⟩⟩
    (.bind x (.name "a" ⟨1, 18, 17⟩)
      (.bind y (.binary .mul (.name x ⟨1, 31, 30⟩) (.integer 2 ⟨1, 35, 34⟩) ⟨1, 33, 32⟩)
        (.binary .sub (.name y ⟨1, 40, 39⟩) (.name x ⟨1, 44, 43⟩) ⟨1, 42, 41⟩) ⟨1, 27, 26⟩) ⟨1, 14, 13⟩)
    ⟨1, 1, 0⟩

/-- One name changes its binding, and the other one hides the parameter. -/
theorem alphaEquiv_doubling : (doubling "x" "y").AlphaEquiv (doubling "y" "a") :=
  .define "f" ["a"]
    (.bind (.name rfl _ _)
      (.bind (.binary .mul (.name rfl _ _) (.integer 2 _ _) _ _)
        (.binary .sub (.name rfl _ _) (.name rfl _ _) _ _) _ _) _ _) _ _ _ _

theorem item_alphaEquiv_doubling :
    (doubling "x" "y").IsParsed ∧ (doubling "y" "a").IsParsed ∧
    (doubling "x" "y").AlphaEquiv (doubling "y" "a") ∧
    (initial.item (doubling "x" "y")).generator = (initial.item (doubling "y" "a")).generator ∧
    ((∃ s f block, (initial.item (doubling "x" "y")).result = .ok s ∧
        (initial.item (doubling "y" "a")).result = .ok s ∧
        (initial.item (doubling "x" "y")).generator.module.find? s = some f ∧
        (initial.item (doubling "y" "a")).generator.module.find? s = some f ∧ f.body? = some block) ∨
      ∃ e e', (initial.item (doubling "x" "y")).result = .error e ∧
        (initial.item (doubling "y" "a")).result = .error e' ∧ e.unplaced = e'.unplaced) :=
  ⟨⟨"def f(a) var x = a in var y = x * 2 in y - x".toUTF8.toList, none, _, .start,
      by with_unfolding_all rfl⟩,
    ⟨"def f(a) var y = a in var a = y * 2 in a - y".toUTF8.toList, none, _, .start,
      by with_unfolding_all rfl⟩,
    alphaEquiv_doubling, item_alphaEquiv initial alphaEquiv_doubling⟩

end Generator

end ScalarLang
