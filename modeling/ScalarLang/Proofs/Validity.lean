import ScalarLang.Proofs.TypedModules
/-!
# Which items are accepted

What an expression asks of its surroundings is read off the tree (`Expr.demands`): every name that it
mentions, with the names in scope there, and every call with the number of its arguments, in the order in
which they are looked at. An item is valid if nothing is wrong with its head and all demands of its body
are met. `result_item`: exactly the valid items are accepted, and for any other item the first thing that
is wrong is reported.
-/
namespace ScalarLang

open IR

/-! ## What expressions ask for -/

/-- What an expression asks for at one place. -/
inductive Demand where
  /-- The name `id` is mentioned where the names `scope` are bound. -/
  | name (id : String) (scope : List String) (pos : Position)
  /-- The function `callee` is called with `given` arguments. -/
  | call (callee : String) (given : Nat) (pos : Position)

namespace Demand

variable (arity? : String → Option Nat)

/-- The name is in scope, or the function is known and takes as many arguments as it is given. -/
def IsMet : Demand → Prop
  | name id scope _ => id ∈ scope
  | call callee given _ => arity? callee = some given

/-- What is wrong if a demand is not met. -/
def error? : Demand → Option LoweringError
  | name id scope pos => if id ∈ scope then none else some ⟨.undefinedName id, pos⟩
  | call callee given pos =>
    match arity? callee with
    | none => some ⟨.undefinedFunction callee, pos⟩
    | some takes => if given = takes then none else some ⟨.wrongArity callee takes given, pos⟩

variable {arity?}

theorem error?_eq_none_iff {d : Demand} : d.error? arity? = none ↔ d.IsMet arity? := by
  cases d with
  | name id scope pos => simp [error?, IsMet]
  | call callee given pos =>
    simp only [error?, IsMet]
    cases arity? callee with
    | none => simp
    | some takes => simp [eq_comm]

theorem isInternal_of_error? {d : Demand} {e : LoweringError} (h : d.error? arity? = some e) :
    e.isInternal = false := by
  cases d with
  | name id scope pos =>
    obtain ⟨-, hsome⟩ := Option.ite_none_left_eq_some.1 h
    cases hsome
    rfl
  | call callee given pos =>
    simp only [error?] at h
    split at h
    · cases h
      rfl
    · obtain ⟨-, hsome⟩ := Option.ite_none_left_eq_some.1 h
      cases hsome
      rfl

end Demand

mutual

/-- All that an expression asks for where the names `scope` are bound: an initial value before the body
that can use it, operands from left to right, and a call before its arguments. -/
def Expr.demands (scope : List String) : Expr → List Demand
  | .integer .. | .float .. | .missing => []
  | .name id pos => [.name id scope pos]
  | .bind id init body _ => init.demands scope ++ body.demands (id :: scope)
  | .unary _ x _ => x.demands scope
  | .binary _ x y _ => x.demands scope ++ y.demands scope
  | .call callee args pos => .call callee args.length pos :: demandsOfAll scope args

/-- What some expressions ask for, in order. -/
def demandsOfAll (scope : List String) : List Expr → List Demand
  | [] => []
  | e :: es => e.demands scope ++ demandsOfAll scope es

end

namespace Expr

variable (arity? : String → Option Nat) (scope : List String) (e : Expr)

/-- Every name that is mentioned is in scope, and every call is of a known function with as many
arguments as it takes. -/
def IsValid : Prop := ∀ d ∈ e.demands scope, d.IsMet arity?

/-- All that is wrong with an expression, in order. -/
def errors : List LoweringError := (e.demands scope).filterMap (Demand.error? arity?)

variable {arity? scope e}

theorem errors_eq_nil_iff : e.errors arity? scope = [] ↔ e.IsValid arity? scope := by
  simp only [errors, IsValid, List.filterMap_eq_nil_iff, Demand.error?_eq_none_iff]

theorem isInternal_of_mem_errors {error : LoweringError} (h : error ∈ e.errors arity? scope) :
    error.isInternal = false := by
  obtain ⟨d, -, hd⟩ := List.mem_filterMap.1 h
  exact Demand.isInternal_of_error? hd

end Expr

/-! ## Trees that tokens build -/

mutual

/-- Nothing is left out of a tree, and every operator stands where the grammar has one. -/
def Expr.isComplete : Expr → Bool
  | .integer .. | .float .. | .name .. => true
  | .bind _ init body _ => init.isComplete && body.isComplete
  | .unary op x _ => op.isSign && x.isComplete
  | .binary op x y _ => op.precedence?.isSome && x.isComplete && y.isComplete
  | .call _ args _ => areComplete args
  | .missing => false

/-- Nothing is missing in any of some expressions. -/
def areComplete : List Expr → Bool
  | [] => true
  | e :: es => e.isComplete && areComplete es

end

mutual

theorem Expr.isComplete_of_isSource : ∀ {e : Expr}, e.isSource = true → e.isComplete = true
  | .integer .., _ | .float .., _ | .name .., _ => rfl
  | .bind .., h => by
    simp only [Expr.isSource, Bool.and_eq_true] at h
    simp [Expr.isComplete, Expr.isComplete_of_isSource h.1.2, Expr.isComplete_of_isSource h.2]
  | .unary .., h => by
    simp only [Expr.isSource, Bool.and_eq_true] at h
    simp [Expr.isComplete, h.1, Expr.isComplete_of_isSource h.2]
  | .binary .., h => by
    simp only [Expr.isSource, Bool.and_eq_true] at h
    simp [Expr.isComplete, h.1.1, Expr.isComplete_of_isSource h.1.2, Expr.isComplete_of_isSource h.2]
  | .call .., h => by
    simp only [Expr.isSource, Bool.and_eq_true] at h
    simp [Expr.isComplete, areComplete_of_areSource h.2]
  | .missing, h => by simp [Expr.isSource] at h

theorem areComplete_of_areSource : ∀ {es : List Expr}, areSource es = true → areComplete es = true
  | [], _ => rfl
  | e :: es, h => by
    simp only [areSource, Bool.and_eq_true] at h
    simp [areComplete, Expr.isComplete_of_isSource h.1, areComplete_of_areSource h.2]

end

/-- Nothing is missing in an item. -/
def Item.isComplete : Item → Bool
  | external .. => true
  | define _ body _ | evaluate body _ => body.isComplete

theorem Item.IsParsed.isComplete {i : Item} (h : i.IsParsed) : i.isComplete = true := by
  have hsource := h.sourceItem
  cases i with
  | external p pos => rfl
  | define p body pos => exact Expr.isComplete_of_isSource hsource.2
  | evaluate body pos => exact Expr.isComplete_of_isSource hsource

/-! ## Names in scope -/

namespace Scope

variable {α : Type} {s : Scope α} {names : List String}

/-- The names in scope are those of the list. -/
def Binds (s : Scope α) (names : List String) : Prop :=
  ∀ id, (s.get? id).isSome = true ↔ id ∈ names

theorem binds_empty : (empty : Scope α).Binds [] := by
  intro id
  simp [empty, get?]

theorem exists_binds (s : Scope α) : ∃ names, s.Binds names := by
  refine ⟨(s.innermost :: s.enclosing).flatten.map Prod.fst, fun id => ?_⟩
  simp only [get?, List.findSome?_isSome_iff, List.lookup_isSome_iff, List.mem_map,
    List.mem_flatten, beq_iff_eq]
  constructor
  · rintro ⟨frame, hframe, binding, hbinding, rfl⟩
    exact ⟨binding, ⟨frame, hframe, hbinding⟩, rfl⟩
  · rintro ⟨binding, ⟨frame, hframe, hbinding⟩, rfl⟩
    exact ⟨frame, hframe, binding, hbinding, rfl⟩

theorem Binds.set (h : s.Binds names) (id : String) (v : α) : (s.set id v).Binds (id :: names) := by
  intro id'
  rw [get?_set, List.mem_cons, ← h id']
  by_cases hid : id' = id <;> simp [hid]

/-- A frame of its own that binds some names in turn. -/
theorem Binds.foldl_set (h : s.Binds names) (bindings : List (String × α)) :
    (bindings.foldl (fun s (id, v) => s.set id v) s).Binds (bindings.map Prod.fst ++ names) := by
  induction bindings generalizing s names with
  | nil => exact h
  | cons binding bindings ih =>
    intro id
    rw [List.foldl_cons, ih (h.set binding.1 binding.2) id]
    simp [or_left_comm]

theorem Binds.push (h : s.Binds names) : s.push.Binds names := h

end Scope

/-! ## What lowering reports -/

/-- A result that fails with the first of some errors, and succeeds if there are none. -/
def Reports {α : Type} (r : Except LoweringError α) (errors : List LoweringError) : Prop :=
  match r with
  | .ok _ => errors = []
  | .error e => errors.head? = some e

theorem Reports.mem {α : Type} {r : Except LoweringError α} {errors : List LoweringError}
    {e : LoweringError} (h : Reports r errors) (hr : r = .error e) : e ∈ errors := by
  subst hr
  exact List.mem_of_mem_head? h

namespace Lowering

variable {α β : Type} {d : Draft} {errors errors' : List LoweringError}

/-- An action that fails with the first of some errors; if there are none, it succeeds and leaves the
scope as it was. -/
def Reports (act : Lowering α) (d : Draft) (errors : List LoweringError) : Prop :=
  match act d with
  | .ok _ d' => errors = [] ∧ d'.scope = d.scope
  | .error e _ => errors.head? = some e

namespace Reports

theorem pure (a : α) (d : Draft) : Reports (pure a) d [] := ⟨rfl, rfl⟩

theorem throw (e : LoweringError) (errors : List LoweringError) (d : Draft) :
    Reports (throw e : Lowering α) d (e :: errors) := rfl

/-- What the first action reports comes before what the second one does. -/
theorem bind {act : Lowering α} {f : α → Lowering β} (h : Reports act d errors)
    (hf : ∀ a d', act d = .ok a d' → d'.scope = d.scope → Reports (f a) d' errors') :
    Reports (act >>= f) d (errors ++ errors') := by
  unfold Reports at h
  show match EStateM.bind act f d with
    | .ok _ d' => _
    | .error e _ => _
  unfold EStateM.bind
  cases hact : act d with
  | error e d' =>
    rw [hact] at h
    simp [List.head?_append, h]
  | ok a d' =>
    rw [hact] at h
    obtain ⟨rfl, hscope⟩ := h
    have hfa := hf a d' hact hscope
    unfold Reports at hfa
    dsimp only
    cases hb : f a d' with
    | error e d'' => simpa [hb] using hfa
    | ok b d'' =>
      simp only [hb] at hfa
      exact ⟨hfa.1, hfa.2.trans hscope⟩

theorem within {bindings : List (String × Operand)} {act : Lowering α}
    (h : Reports act
      { d with scope := bindings.foldl (fun s (id, v) => s.set id v) d.scope.push } errors) :
    Reports (within bindings act) d errors := by
  have hpop := Scope.pop_foldl_set_push bindings d.scope
  unfold Reports at h ⊢
  unfold Lowering.within
  dsimp only
  generalize List.foldl _ _ bindings = inner at hpop h ⊢
  cases hact : act { d with scope := inner } with
  | error e d' => simpa only [hact] using h
  | ok a d' =>
    simp only [hact] at h
    exact ⟨h.1, by rw [h.2, hpop]⟩

end Reports

/-! ## Operations on values always succeed -/

theorem reports_emit (i : Instr) (d : Draft) : Reports (emit i) d [] := ⟨rfl, rfl⟩

theorem reports_promote (v : Operand) (d : Draft) : Reports (promote v) d [] := by
  unfold promote
  split
  · exact .pure _ d
  · split
    · exact .pure _ d
    · exact reports_emit _ d

theorem reports_negate (v : Operand) (d : Draft) : Reports (negate v) d [] := by
  unfold negate
  split
  · exact .pure _ d
  · split <;> exact reports_emit _ d

theorem reports_balance (x y : Operand) (d : Draft) : Reports (balance x y) d [] := by
  unfold balance
  split
  · exact .bind (reports_promote x d) fun _ d₁ _ _ =>
      .bind (reports_promote y d₁) fun _ d₂ _ _ => .pure _ d₂
  · exact .pure _ d

theorem reports_arith (op : Arithmetic) (x y : Operand) (d : Draft) :
    Reports (arith op x y) d [] := by
  refine .bind (reports_balance x y d) ?_
  rintro ⟨on, x', y'⟩ d₁ - -
  dsimp only
  split
  · exact .pure _ d₁
  · exact reports_emit _ d₁

theorem reports_compare (op : Comparison) (x y : Operand) (d : Draft) :
    Reports (compare op x y) d [] := by
  refine .bind (reports_balance x y d) ?_
  rintro ⟨on, x', y'⟩ d₁ - -
  dsimp only
  split
  · exact .pure _ d₁
  · exact .bind (reports_emit _ d₁) fun _ d₂ _ _ => reports_emit _ d₂

theorem reports_power (x y : Operand) (d : Draft) : Reports (power x y) d [] := by
  refine .bind (reports_promote x d) fun x' d₁ _ _ => .bind (reports_promote y d₁) fun y' d₂ _ _ => ?_
  split
  · exact .pure _ d₂
  · exact ⟨rfl, rfl⟩

theorem reports_binary {op : Operator} {compute : Operand → Operand → Lowering Operand}
    (h : binary? op = some compute) (x y : Operand) (d : Draft) : Reports (compute x y) d [] := by
  cases op <;> simp only [binary?, Option.some.injEq, reduceCtorEq] at h <;> subst h
  case pow => exact reports_power x y d
  case add | sub | mul | div => exact reports_arith _ x y d
  case less | greater | lessEqual | greaterEqual | equal => exact reports_compare _ x y d

/-! ## Expressions -/

variable {arity? : String → Option Nat} {scope : List String}

theorem reports_lookup (id : String) (pos : Position) (h : d.scope.Binds scope) :
    Reports (lookup id pos) d ((Expr.name id pos).errors arity? scope) := by
  have hid := h id
  rw [← List.nil_append (Expr.errors _ _ _)]
  refine .bind (⟨rfl, rfl⟩ : Reports get d []) fun a d' hget _ => ?_
  cases hget
  cases hs : d.scope.get? id with
  | some v =>
    have hmem : id ∈ scope := by simpa [hs] using hid
    simp only [Expr.errors, Expr.demands, List.filterMap_cons, Demand.error?, hmem, ↓reduceIte]
    exact .pure v d
  | none =>
    have hmem : id ∉ scope := by simpa [hs] using hid
    simp only [Expr.errors, Expr.demands, List.filterMap_cons, Demand.error?, hmem, ↓reduceIte]
    exact .throw _ _ d

mutual

/-- The first demand of an expression that is not met is what its lowering reports. -/
theorem reports_expression :
    ∀ e : Expr, e.isComplete = true → ∀ {d : Draft} {scope : List String}, d.scope.Binds scope →
      Reports (expression arity? e) d (e.errors arity? scope)
  | .integer v _, _, d, scope, _ => by
    simp only [expression]
    exact .pure _ d
  | .float v _, _, d, scope, _ => by
    simp only [expression]
    exact .pure _ d
  | .name id pos, _, d, scope, h => by
    simp only [expression]
    exact reports_lookup id pos h
  | .bind id init body _, he, d, scope, h => by
    simp only [Expr.isComplete, Bool.and_eq_true] at he
    simp only [expression, Expr.errors, Expr.demands, List.filterMap_append]
    refine .bind (reports_expression init he.1 h) fun v d₁ _ hscope => .within ?_
    exact reports_expression body he.2 ((hscope ▸ h).push.set id v)
  | .unary op x pos, he, d, scope, h => by
    simp only [Expr.isComplete, Bool.and_eq_true] at he
    simp only [expression]
    rw [← List.append_nil (Expr.errors _ _ _)]
    refine .bind (reports_expression x he.2 h) fun v d₁ _ _ => ?_
    cases op with
    | add => exact .pure v d₁
    | sub => exact reports_negate v d₁
    | _ => cases he.1
  | .binary op x y pos, he, d, scope, h => by
    simp only [Expr.isComplete, Bool.and_eq_true] at he
    obtain ⟨compute, hop⟩ := isSome_binary? he.1.1
    simp only [expression, Expr.errors, Expr.demands, List.filterMap_append, hop]
    refine .bind (reports_expression x he.1.2 h) fun v d₁ _ hscope => ?_
    rw [← List.append_nil (List.filterMap _ _)]
    refine .bind (reports_expression y he.2 (hscope ▸ h)) fun w d₂ _ _ => ?_
    exact reports_binary hop v w d₂
  | .call callee args pos, he, d, scope, h => by
    simp only [Expr.isComplete] at he
    simp only [expression, Expr.errors, Expr.demands, List.filterMap_cons, Demand.error?]
    cases arity? callee with
    | none => exact .throw _ _ d
    | some takes =>
      by_cases hlen : args.length = takes
      · simp only [hlen, ↓reduceIte]
        rw [← List.append_nil (List.filterMap _ _)]
        exact .bind (reports_arguments args he h) fun vs d₁ _ _ => reports_emit _ d₁
      · simp only [hlen, ↓reduceIte]
        exact .throw _ _ d
  | .missing, he, _, _, _ => by simp [Expr.isComplete] at he

theorem reports_arguments :
    ∀ es : List Expr, areComplete es = true → ∀ {d : Draft} {scope : List String},
      d.scope.Binds scope → Reports (arguments arity? es) d
        ((demandsOfAll scope es).filterMap (Demand.error? arity?))
  | [], _, d, scope, _ => by
    simp only [arguments]
    exact .pure _ d
  | e :: es, he, d, scope, h => by
    simp only [areComplete, Bool.and_eq_true] at he
    simp only [arguments, demandsOfAll, List.filterMap_append]
    refine .bind (reports_expression e he.1 h) fun v d₁ _ h₁ => ?_
    rw [← List.nil_append (List.filterMap _ _)]
    refine .bind (reports_promote v d₁) fun v' d₂ _ h₂ => ?_
    rw [← List.append_nil (List.filterMap _ _)]
    exact .bind (reports_arguments es he.2 ((h₂.trans h₁) ▸ h)) fun vs d₃ _ _ => .pure _ d₃

end

end Lowering

/-! ## Prototypes -/

/-- What is known of functions by their names. -/
abbrev Known := String → Option Signature

namespace Known

/-- The number of parameters of a function that is known. -/
def arity? (known : Known) (name : String) : Option Nat := (known name).map Signature.arity

/-- The function of a prototype is known too. -/
def declaring (known : Known) (p : Prototype) : Known := fun name =>
  if name = p.name then some ⟨p.params.length, false⟩ else known name

end Known

/-- The names of a list that stand in it before, or in `seen`. -/
def repetitions (seen : List String) : List String → List String
  | [] => []
  | name :: names => (if name ∈ seen then [name] else []) ++ repetitions (name :: seen) names

theorem head?_repetitions (seen names : List String) :
    (repetitions seen names).head? = Generator.firstRepeated? seen names := by
  induction names generalizing seen with
  | nil => rfl
  | cons name names ih =>
    by_cases hseen : name ∈ seen <;> simp [repetitions, Generator.firstRepeated?, hseen, ih]

theorem repetitions_eq_nil_iff {seen names : List String} :
    repetitions seen names = [] ↔ names.Nodup ∧ ∀ name ∈ names, name ∉ seen := by
  induction names generalizing seen with
  | nil => simp [repetitions]
  | cons name names ih =>
    by_cases hseen : name ∈ seen
    · simp [repetitions, hseen]
    · simp only [repetitions, hseen, ↓reduceIte, List.nil_append, ih, List.nodup_cons,
        List.mem_cons, not_or, forall_eq_or_imp, not_false_eq_true, true_and]
      grind

namespace Prototype

variable (known : Known) (p : Prototype)

/-- A function may be declared so: its name is free for programs to give, its parameters have different
names, and a function that is known under its name has as many. -/
structure IsValid : Prop where
  notPrinter : p.name ≠ IR.Module.printerName
  notExpression : ¬ IR.expressionMark.isPrefixOf p.name = true
  distinct : p.params.Nodup
  arity : ∀ s, known p.name = some s → s.arity = p.params.length

/-- All that is wrong with a prototype, in order. -/
def errors : List LoweringError :=
  (if p.name = IR.Module.printerName ∨ IR.expressionMark.isPrefixOf p.name = true then
      [⟨.reservedName p.name, p.pos⟩]
    else []) ++
  (repetitions [] p.params).map (fun param => ⟨.repeatedParameter param p.name, p.pos⟩) ++
  match known p.name with
  | some s =>
    if s.arity = p.params.length then []
    else [⟨.otherArity p.name p.params.length s.arity, p.pos⟩]
  | none => []

variable {known p}

theorem errors_eq_nil_iff : p.errors known = [] ↔ p.IsValid known := by
  have harity : (match known p.name with
      | some s =>
        if s.arity = p.params.length then []
        else [(⟨.otherArity p.name p.params.length s.arity, p.pos⟩ : LoweringError)]
      | none => []) = [] ↔ ∀ s, known p.name = some s → s.arity = p.params.length := by
    cases known p.name <;> simp
  simp only [errors, List.append_eq_nil_iff, List.map_eq_nil_iff, repetitions_eq_nil_iff, harity,
    ite_eq_right_iff, List.cons_ne_nil, imp_false, not_or]
  constructor
  · rintro ⟨⟨⟨hprinter, hexpression⟩, hdistinct, -⟩, harity⟩
    exact ⟨hprinter, hexpression, hdistinct, harity⟩
  · rintro ⟨hprinter, hexpression, hdistinct, harity⟩
    exact ⟨⟨⟨hprinter, hexpression⟩, hdistinct, by simp⟩, harity⟩

/-- The fault of a prototype is the first of its errors. -/
theorem head?_errors (g : Generator) (p : Prototype) :
    (p.errors g.registry.get?).head? = (g.prototypeFault? p).map fun fault => ⟨fault, p.pos⟩ := by
  unfold errors Generator.prototypeFault? Generator.isReserved
  by_cases hname : p.name = IR.Module.printerName ∨ IR.expressionMark.isPrefixOf p.name = true
  · have hreserved : (decide (p.name = IR.Module.printerName) ||
        IR.expressionMark.isPrefixOf p.name) = true := by simpa using hname
    simp [hname, hreserved]
  · have hfree : (decide (p.name = IR.Module.printerName) ||
        IR.expressionMark.isPrefixOf p.name) = false := by simpa using hname
    rw [if_neg hname, hfree, ← head?_repetitions]
    cases repetitions [] p.params with
    | cons param params => simp
    | nil =>
      cases g.registry.get? p.name with
      | none => rfl
      | some s => by_cases harity : s.arity = p.params.length <;> simp [harity]

theorem isInternal_of_mem_errors {e : LoweringError} (h : e ∈ p.errors known) :
    e.isInternal = false := by
  simp only [errors, List.mem_append, List.mem_map] at h
  rcases h with (hname | ⟨param, -, rfl⟩) | harity
  · split at hname <;> simp at hname
    subst hname
    rfl
  · rfl
  · split at harity
    · split at harity <;> simp at harity
      subst harity
      rfl
    · simp at harity

end Prototype

/-! ## Items -/

namespace Known

variable (known : Known) (outer : List String) (p : Prototype) (body : Expr)

/-- All that is wrong with a definition where the names `outer` are bound, in order. -/
def definitionErrors : List LoweringError :=
  (if (known p.name).any Signature.defined = true then [⟨.alreadyDefined p.name, p.pos⟩] else []) ++
  p.errors known ++ body.errors (known.declaring p).arity? (p.params ++ outer)

variable {known outer p body}

theorem isInternal_of_mem_definitionErrors {e : LoweringError}
    (h : e ∈ known.definitionErrors outer p body) : e.isInternal = false := by
  simp only [definitionErrors, List.mem_append] at h
  rcases h with (hdefined | hp) | hbody
  · split at hdefined <;> simp at hdefined
    subst hdefined
    rfl
  · exact Prototype.isInternal_of_mem_errors hp
  · exact Expr.isInternal_of_mem_errors hbody

end Known

namespace Item

variable (known : Known)

/-- The items that are accepted where `known` tells what is known of functions. -/
def IsValid : Item → Prop
  | external p _ => p.IsValid known
  | define p body _ => p.IsValid known ∧ (∀ s, known p.name = some s → s.defined = false) ∧
      body.IsValid (known.declaring p).arity? p.params
  | evaluate body _ => body.IsValid known.arity? []

/-- All that is wrong with an item, in the order in which it is looked at. -/
def errors : Item → List LoweringError
  | external p _ => p.errors known
  | define p body _ => known.definitionErrors [] p body
  | evaluate body _ => body.errors known.arity? []

variable {known}

theorem errors_eq_nil_iff {i : Item} : i.errors known = [] ↔ i.IsValid known := by
  cases i with
  | external p pos => exact Prototype.errors_eq_nil_iff
  | evaluate body pos => exact Expr.errors_eq_nil_iff
  | define p body pos =>
    have hdefined : (known p.name).any Signature.defined = true ↔
        ¬ ∀ s, known p.name = some s → s.defined = false := by
      cases known p.name <;> simp
    simp only [errors, Known.definitionErrors, List.append_eq_nil_iff, List.append_nil,
      Prototype.errors_eq_nil_iff, Expr.errors_eq_nil_iff, hdefined, ite_eq_right_iff,
      List.cons_ne_nil, imp_false, not_not, IsValid]
    tauto

end Item

namespace Generator

variable {g : Generator} {i : Item} {p : Prototype} {body : Expr} {outer : List String}

theorem reports_declare (g : Generator) (p : Prototype) :
    Reports (g.declare p).result (p.errors g.registry.get?) := by
  have hhead := Prototype.head?_errors g p
  unfold declare
  cases hfault : g.prototypeFault? p with
  | some fault =>
    rw [hfault] at hhead
    exact hhead
  | none =>
    have hnil : p.errors g.registry.get? = [] := by simpa [hfault] using hhead
    dsimp only
    split <;> exact hnil

theorem reports_lowerBody (registry : Registry) (params : List String) (promoted : Bool)
    (hs : g.scope.Binds outer) (hb : body.isComplete = true) :
    Reports (g.lowerBody registry params body promoted).block
      (body.errors registry.arity? (params ++ outer)) := by
  have hbinds := hs.push.foldl_set (params.mapIdx fun i name => (name, Operand.param i))
  have hnames : (params.mapIdx fun i name => (name, Operand.param i)).map Prod.fst = params :=
    List.ext_getElem? fun i => by cases h : params[i]? <;> simp [h]
  rw [hnames] at hbinds
  have hreports : Lowering.Reports (bodyValue registry params body promoted) ⟨g.scope, #[], false⟩
      (body.errors registry.arity? (params ++ outer)) := by
    rw [← List.append_nil (Expr.errors _ _ _)]
    refine .within (.bind (Lowering.reports_expression body hb hbinds) fun v d _ _ => ?_)
    split
    · exact Lowering.reports_promote v d
    · exact .pure v d
  unfold Lowering.Reports at hreports
  unfold lowerBody
  split <;> rename_i hv <;> rw [hv] at hreports
  · exact hreports.1
  · exact hreports

theorem reports_evaluate (hs : g.scope.Binds outer) (hb : body.isComplete = true) :
    Reports (g.evaluate body).result (body.errors g.registry.arity? outer) := by
  have hbody := reports_lowerBody g.registry [] false hs hb
  unfold evaluate
  dsimp only
  split <;> rename_i hblock <;> rw [hblock] at hbody <;> exact hbody

/-- A definition is known in its own body. -/
theorem declaring_get? (r : Registry) (p : Prototype) :
    Known.declaring r.get? p = (r.insert p.name ⟨p.params.length, false⟩).get? := by
  funext name
  rw [Registry.get?_insert, Known.declaring]

theorem reports_define (hs : g.scope.Binds outer) (hb : body.isComplete = true) :
    Reports (g.define p body).result (Known.definitionErrors g.registry.get? outer p body) := by
  have hhead := Prototype.head?_errors g p
  unfold define Known.definitionErrors
  rw [declaring_get?]
  dsimp only
  by_cases hdefined : (g.registry.get? p.name).any Signature.defined = true
  · rw [if_pos hdefined, if_pos hdefined]
    rfl
  · rw [if_neg hdefined, if_neg hdefined]
    cases hfault : g.prototypeFault? p with
    | some fault =>
      rw [hfault] at hhead
      show List.head? _ = _
      rw [List.nil_append, List.head?_append, hhead]
      rfl
    | none =>
      have hnil : p.errors g.registry.get? = [] := by simpa [hfault] using hhead
      rw [hnil]
      have hbody := reports_lowerBody (g.registry.insert p.name ⟨p.params.length, false⟩) p.params
        true hs hb
      dsimp only
      split <;> rename_i hblock <;> rw [hblock] at hbody <;> exact hbody

/-- A complete item is refused for a fault of the program. -/
theorem isInternal_item (g : Generator) {i : Item} {e : LoweringError} (hi : i.isComplete = true)
    (h : (g.item i).result = .error e) : e.isInternal = false := by
  obtain ⟨outer, hs⟩ := g.scope.exists_binds
  have hevaluate {body : Expr} (hb : body.isComplete = true) (h : (g.evaluate body).result = .error e) :
      e.isInternal = false :=
    Expr.isInternal_of_mem_errors ((reports_evaluate hs hb).mem h)
  cases i with
  | external p pos =>
    exact Prototype.isInternal_of_mem_errors ((reports_declare g p).mem h)
  | evaluate body pos => exact hevaluate hi h
  | define p body pos =>
    simp only [item] at h
    split at h
    · exact hevaluate hi h
    · exact Known.isInternal_of_mem_definitionErrors ((reports_define hs hi).mem h)

/-! ## What is known -/

/-- What a generator knows of functions: how many parameters they have, and if they have a body. -/
def known (g : Generator) : Known := fun name => (g.function? name).map signature

theorem Consistent.known_eq (hg : g.Consistent) : g.known = g.registry.get? := by
  funext name
  rw [known, ← hg.named name, function?, ← hg.named name]
  cases g.module.find? (.named name) <;> rfl

theorem reports_item (hg : g.Reachable) (hi : i.IsParsed) :
    Reports (g.item i).result (i.errors g.known) := by
  have hs : g.scope.Binds [] := hg.scope ▸ Scope.binds_empty
  have hcomplete := hi.isComplete
  rw [hg.consistent.known_eq]
  cases i with
  | external p pos => exact reports_declare g p
  | evaluate body pos => exact reports_evaluate hs hcomplete
  | define p body pos =>
    have hnamed := Prototype.isAnonymous_of_isSource hi.sourceItem.1
    simp only [item, hnamed, Bool.false_eq_true, ↓reduceIte]
    exact reports_define hs hcomplete

/-- An item is accepted exactly if it is valid, and an item that is not fails with the first of its
errors: of those of its head, and then of those of its body from left to right. -/
theorem result_item (hg : g.Reachable) (hi : i.IsParsed) :
    ((∃ s, (g.item i).result = .ok s) ↔ i.IsValid g.known) ∧
    ∀ e, (g.item i).result = .error e → (i.errors g.known).head? = some e := by
  have hreports := reports_item hg hi
  rw [← Item.errors_eq_nil_iff]
  unfold Reports at hreports
  cases hr : (g.item i).result with
  | ok s =>
    rw [hr] at hreports
    exact ⟨⟨fun _ => hreports, fun _ => ⟨s, rfl⟩⟩, nofun⟩
  | error e =>
    rw [hr] at hreports
    refine ⟨⟨nofun, fun hnil => ?_⟩, ?_⟩
    · rw [hnil] at hreports
      cases hreports
    · rintro e' ⟨⟩
      exact hreports

/-- The text `def g(x) var y = h(y) in x`: the function `h` is not known, and the initial value of `y`
does not see `y`. -/
def ownInitializer : Item :=
  .define ⟨"g", ["x"], ⟨1, 5, 4⟩⟩
    (.bind "y" (.call "h" [.name "y" ⟨1, 20, 19⟩] ⟨1, 18, 17⟩) (.name "x" ⟨1, 26, 25⟩) ⟨1, 14, 13⟩)
    ⟨1, 1, 0⟩

theorem isParsed_ownInitializer : ownInitializer.IsParsed :=
  ⟨"def g(x) var y = h(y) in x".toUTF8.toList, none, _, .start, by with_unfolding_all rfl⟩

/-- The definition that calls itself is valid; of the two errors of the other one the first is told. -/
theorem result_item_ownInitializer :
    ((initial.item unbound).generator.Reachable ∧ recursive.IsParsed ∧
      recursive.IsValid (initial.item unbound).generator.known) ∧
    initial.Reachable ∧ ownInitializer.IsParsed ∧ ¬ ownInitializer.IsValid initial.known ∧
    ownInitializer.errors initial.known =
      [⟨.undefinedFunction "h", ⟨1, 18, 17⟩⟩, ⟨.undefinedName "y", ⟨1, 20, 19⟩⟩] ∧
    ∃ e, (initial.item ownInitializer).result = .error e ∧
      (ownInitializer.errors initial.known).head? = some e := by
  have hg : (initial.item unbound).generator.Reachable := .item .initial isParsed_unbound
  have hok : ((initial.item unbound).generator.item recursive).result = .ok (.named "f") := by
    with_unfolding_all rfl
  have hfails : (initial.item ownInitializer).result =
      .error ⟨.undefinedFunction "h", ⟨1, 18, 17⟩⟩ := by with_unfolding_all rfl
  obtain ⟨hvalid, hfirst⟩ := result_item .initial isParsed_ownInitializer
  refine ⟨⟨hg, isParsed_recursive, (result_item hg isParsed_recursive).1.1 ⟨_, hok⟩⟩, .initial,
    isParsed_ownInitializer, fun h => ?_, by with_unfolding_all rfl, _, hfails, hfirst _ hfails⟩
  obtain ⟨s, hs⟩ := hvalid.2 h
  rw [hfails] at hs
  cases hs

end Generator

end ScalarLang
