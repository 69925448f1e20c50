import ScalarLang.Proofs.Generation
import ScalarLang.Proofs.Validity
/-!
# Constant expressions need no code

An expression of finite numbers, signs, operators and names that it binds itself is computed while it is
lowered, unless its evaluation comes to an operation whose result is left to the running code: a division
without a quotient, or one of doubles that is infinite or not a number (`Operation.isExceptional`).
`folds_or_writes`: an expression without such an operation is lowered to its value, and one with such an
operation to at least one instruction. `item_constant` says the same of the function of an expression
that is evaluated.
-/
namespace ScalarLang

open IR

/-! ## Values -/

namespace Value

/-- Integers are finite. -/
def isFinite : Value → Bool
  | integer _ => true
  | float x => x.isFinite

theorem isFinite_toFloat {v : Value} (h : v.isFinite = true) : v.toFloat.isFinite = true := by
  cases v with
  | integer a => exact Binary64.isFinite_ofInt64 a
  | float x => exact h

theorem isFinite_negate {v : Value} (h : v.isFinite = true) : v.negate.isFinite = true := by
  cases v with
  | integer a => rfl
  | float x => exact Binary64.isFinite_neg h

/-- Whether a division has no quotient: of integers by zero, or of the least one by minus one, and of
doubles by a zero. -/
def lacksQuotient : Value → Value → Bool
  | integer a, integer b => b = 0 || (a = Int64.minValue && b = -1)
  | _, w => w.toFloat.isZero

theorem lacksQuotient_integers (a b : Int64) : lacksQuotient (.integer a) (.integer b) =
    decide (b = 0 ∨ (a = Int64.minValue ∧ b = -1)) := by
  simp [lacksQuotient]

/-- A number as a constant of its kind. -/
def constant : Value → Operand
  | integer a => .integer a
  | float x => .float x

end Value

/-! ## What an evaluation comes to -/

/-- What a run gives that begins without calls. -/
def Run.value? {α : Type} (m : Run α) : Option α :=
  match m [] with
  | .ok a _ => some a
  | .error .. => none

theorem Run.value?_pure {α : Type} (a : α) : Run.value? (pure a) = some a := rfl

/-- A binary operation on numbers. -/
structure Operation where
  op : Operator
  left : Value
  right : Value
  deriving DecidableEq, Repr

/-- Whether an operation is a division without a quotient, or has a result that is infinite or not a
number. -/
def Operation.isExceptional (o : Operation) : Bool :=
  (o.op = .div && o.left.lacksQuotient o.right) ||
    (o.op.eval o.left o.right).value?.any (!·.isFinite)

namespace Expr

/-- The value of an expression that makes no calls. -/
def value? (env : Environment) (e : Expr) : Option Value := (e.eval (fun _ _ => none) env).value?

theorem value?_of_eval {env : Environment} {e : Expr} {v : Value}
    (h : ∀ callees, e.eval callees env = pure v) : e.value? env = some v := by
  unfold value?
  rw [h]
  rfl

/-- The operations that the evaluation of an expression without calls comes to, in order. -/
def operations (env : Environment) : Expr → List Operation
  | .integer .. | .float .. | .name .. | .call .. | .missing => []
  | .bind id init body _ =>
    init.operations env ++ (init.value? env).elim [] fun v => body.operations ((id, v) :: env)
  | .unary _ x _ => x.operations env
  | .binary op x y _ =>
    x.operations env ++ (x.value? env).elim [] fun v =>
      y.operations env ++ (y.value? env).elim [] fun w => [⟨op, v, w⟩]

theorem operations_bind {env : Environment} {init : Expr} {v : Value} (h : init.value? env = some v)
    (id : String) (body : Expr) (pos : Position) : (Expr.bind id init body pos).operations env =
      init.operations env ++ body.operations ((id, v) :: env) := by
  rw [operations, h]
  rfl

theorem operations_binary_left {env : Environment} {x : Expr} {v : Value} (hx : x.value? env = some v)
    (op : Operator) (y : Expr) (pos : Position) :
    (Expr.binary op x y pos).operations env = x.operations env ++
      (y.operations env ++ (y.value? env).elim [] fun w => [⟨op, v, w⟩]) := by
  rw [operations, hx]
  rfl

/-- Finite numbers, names among `bound` or bound by the expression itself, signs and operators. -/
def isConstant (bound : List String) : Expr → Bool
  | .integer .. => true
  | .float x _ => x.isFinite
  | .name id _ => id ∈ bound
  | .bind id init body _ => init.isConstant bound && body.isConstant (id :: bound)
  | .unary op x _ => op.isSign && x.isConstant bound
  | .binary op x y _ => op.precedence?.isSome && x.isConstant bound && y.isConstant bound
  | .call .. | .missing => false

end Expr

/-! ## Exceptional operations -/

namespace IR

/-- The operator that an operation is written with. -/
def Arithmetic.operator : Arithmetic → Operator
  | add => .add
  | sub => .sub
  | mul => .mul
  | div => .div

/-- The operator that a comparison is written with. -/
def Comparison.operator : Comparison → Operator
  | less => .less
  | greater => .greater
  | lessEqual => .lessEqual
  | greaterEqual => .greaterEqual
  | equal => .equal

theorem Arithmetic.eval_operator (op : Arithmetic) (v w : Value) :
    op.operator.eval v w = v.arithmetic op.onIntegers op.onFloats w := by
  cases op <;> rfl

theorem Comparison.eval_operator (op : Comparison) (v w : Value) :
    op.operator.eval v w = pure (v.comparison op.onIntegers op.onFloats w) := by
  cases op <;> rfl

theorem Arithmetic.operator_eq_div {op : Arithmetic} : op.operator = .div ↔ op = .div := by
  cases op <;> simp [operator]

end IR

namespace Operation

/-- Arithmetic on integers is exceptional if it is not folded. -/
theorem isExceptional_integers (op : Arithmetic) (a b : Int64) :
    isExceptional ⟨op.operator, .integer a, .integer b⟩ = (op.onIntegers? a b).isNone := by
  cases op with
  | div =>
    have heval : Operator.eval .div (.integer a) (.integer b) = Value.integer <$> quotient a b := rfl
    simp only [isExceptional, Arithmetic.operator, heval, quotient, Arithmetic.onIntegers?,
      Value.lacksQuotient_integers, decide_true, Bool.true_and]
    by_cases h : b = 0 ∨ (a = Int64.minValue ∧ b = -1)
    · rw [if_pos h, if_pos h, decide_eq_true h]
      rfl
    · rw [if_neg h, if_neg h, decide_eq_false h]
      rfl
  | _ => rfl

theorem isExceptional_floats (op : Arithmetic) {v w : Value}
    (hmixed : ∀ a b, v = .integer a → w ≠ .integer b) :
    isExceptional ⟨op.operator, v, w⟩ = (op.onFloats? v.toFloat w.toFloat).isNone := by
  have hquotient : v.lacksQuotient w = w.toFloat.isZero := by
    unfold Value.lacksQuotient
    split
    · rename_i a b
      exact absurd rfl (hmixed a b rfl)
    · rfl
  simp only [isExceptional, Arithmetic.eval_operator, Value.arithmetic_of_mixed hmixed, Run.value?_pure,
    Option.any_some, Value.isFinite, hquotient, Arithmetic.onFloats?, Arithmetic.operator_eq_div]
  by_cases hzero : op = .div ∧ w.toFloat.isZero = true
  · simp [hzero]
  · rw [if_neg hzero]
    have hfalse : (decide (op = .div) && w.toFloat.isZero) = false := by simpa using hzero
    rw [hfalse]
    cases (op.onFloats v.toFloat w.toFloat).isFinite <;> rfl

theorem isExceptional_comparison (op : Comparison) (v w : Value) :
    isExceptional ⟨op.operator, v, w⟩ = false := by
  have hdiv : op.operator ≠ .div := by cases op <;> simp [Comparison.operator]
  have hfinite : (v.comparison op.onIntegers op.onFloats w).isFinite = true := by
    unfold Value.comparison
    split <;> rfl
  simp only [isExceptional, Comparison.eval_operator, Run.value?_pure, Option.any_some, hfinite, hdiv,
    decide_false, Bool.false_and, Bool.not_true, Bool.or_false]

theorem isExceptional_pow (v w : Value) :
    isExceptional ⟨.pow, v, w⟩ = !(v.toFloat.pow w.toFloat).isFinite := by
  simp only [isExceptional, Operator.eval, Run.value?_pure, Option.any_some, Value.isFinite, reduceCtorEq,
    decide_false, Bool.false_and, Bool.false_or]

end Operation

/-! ## Code that is written -/

namespace Lowering

variable {α β : Type} {d : Draft}

theorem bind_of_ok {act : Lowering α} {f : α → Lowering β} {a : α} {d' : Draft} (h : act d = .ok a d') :
    (act >>= f) d = f a d' := by
  show EStateM.bind act f d = _
  simp only [EStateM.bind, h]

/-- An action that writes at least one instruction. -/
def Writes (act : Lowering α) (d : Draft) : Prop := d.code.size < (act.draft d).code.size

theorem writes_emit (i : Instr) (d : Draft) : Writes (emit i) d := by
  show d.code.size < (d.code.push i).size
  simp

namespace Writes

theorem bind {act : Lowering α} {f : α → Lowering β} (h : Writes act d) (hf : ∀ a, Extends (f a)) :
    Writes (act >>= f) d := by
  show d.code.size < (draft (EStateM.bind act f) d).code.size
  unfold Writes at h
  unfold draft EStateM.bind at *
  cases hact : act d with
  | error e d' => simpa only [hact] using h
  | ok a d' =>
    simp only [hact] at h ⊢
    have hlen := (hf a d').code.length_le
    simp only [Array.length_toList] at hlen
    exact Nat.lt_of_lt_of_le h hlen

theorem of_ok {act : Lowering α} {f : α → Lowering β} {a : α} (h : act d = .ok a d)
    (hf : Writes (f a) d) : Writes (act >>= f) d := by
  unfold Writes draft at *
  rwa [bind_of_ok h]

theorem within {names : List (String × Operand)} {act : Lowering α}
    (h : Writes act { d with scope := names.foldl (fun s (id, v) => s.set id v) d.scope.push }) :
    Writes (within names act) d := by
  unfold Writes draft Lowering.within at *
  dsimp only at *
  generalize act _ = r at h ⊢
  cases r <;> exact h

end Writes

/-! ## Operations on constants -/

/-- Lowering without code, to a finite constant. -/
structure Folds (act : Lowering Operand) (d : Draft) (v : Value) : Prop where
  finite : v.isFinite = true
  ok : act d = .ok v.constant d

theorem within_of_ok {names : List (String × Operand)} {act : Lowering α} {a : α}
    (h : act { d with scope := names.foldl (fun s (id, v) => s.set id v) d.scope.push } =
      .ok a { d with scope := names.foldl (fun s (id, v) => s.set id v) d.scope.push }) :
    within names act d = .ok a d := by
  have hpop := Scope.pop_foldl_set_push names d.scope
  unfold within
  dsimp only
  rw [h]
  dsimp only
  rw [hpop]

theorem negate_constant {v : Value} (hv : v.isFinite = true) :
    negate v.constant = pure v.negate.constant := by
  cases v with
  | integer a => rfl
  | float x =>
    unfold negate Value.constant
    rw [Operand.foldNegate?, counted_of_isFinite hv]
    rfl

theorem promote_constant (v : Value) : promote v.constant = pure (.float v.toFloat) := by
  cases v <;> rfl

theorem balance_integers (a b : Int64) :
    balance (.integer a) (.integer b) = pure (.integer, .integer a, .integer b) := rfl

theorem balance_constant {v w : Value} (hmixed : ∀ a b, v = .integer a → w ≠ .integer b) :
    balance v.constant w.constant = pure (.float, .float v.toFloat, .float w.toFloat) := by
  have hty : v.constant.ty = .double ∨ w.constant.ty = .double := by
    cases v with
    | float x => exact .inl rfl
    | integer a =>
      cases w with
      | float y => exact .inr rfl
      | integer b => exact absurd rfl (hmixed a b rfl)
  unfold balance
  rw [if_pos hty, promote_constant, promote_constant]
  rfl

/-- An operation on constants is folded, unless it is exceptional. -/
def Settles (o : Operation) (act : Lowering Operand) (d : Draft) : Prop :=
  (o.isExceptional = false ∧ ∃ r, o.op.eval o.left o.right = pure r ∧ Folds act d r) ∨
    (o.isExceptional = true ∧ Writes act d)

theorem settles_arith (op : Arithmetic) {v w : Value} (hv : v.isFinite = true) (hw : w.isFinite = true)
    (d : Draft) : Settles ⟨op.operator, v, w⟩ (arith op v.constant w.constant) d := by
  by_cases hmixed : ∀ a b, v = .integer a → w ≠ .integer b
  · have hfold : Operand.foldArith? op (.float v.toFloat) (.float w.toFloat) =
        (op.onFloats? v.toFloat w.toFloat).map .float := by
      rw [Operand.foldArith?, counted_of_isFinite (Value.isFinite_toFloat hv),
        counted_of_isFinite (Value.isFinite_toFloat hw)]
    unfold Settles arith
    rw [Operation.isExceptional_floats op hmixed, balance_constant hmixed, pure_bind]
    dsimp only
    rw [hfold]
    cases hr : op.onFloats? v.toFloat w.toFloat with
    | none => exact .inr ⟨rfl, writes_emit _ d⟩
    | some r =>
      obtain ⟨rfl, hfinite⟩ := onFloats_of_onFloats? hr
      refine .inl ⟨rfl, .float (op.onFloats v.toFloat w.toFloat), ?_, hfinite, rfl⟩
      rw [Arithmetic.eval_operator, Value.arithmetic_of_mixed hmixed]
  · obtain ⟨a, b, rfl, rfl⟩ : ∃ a b, v = .integer a ∧ w = .integer b := by simpa using hmixed
    unfold Settles arith Value.constant
    rw [Operation.isExceptional_integers, balance_integers, pure_bind]
    dsimp only
    rw [Operand.foldArith?]
    cases hr : op.onIntegers? a b with
    | none => exact .inr ⟨rfl, writes_emit _ d⟩
    | some r =>
      refine .inl ⟨rfl, .integer r, ?_, rfl, rfl⟩
      rw [Arithmetic.eval_operator, Value.arithmetic, onIntegers_of_onIntegers? hr]
      rfl

theorem settles_compare (op : Comparison) {v w : Value} (hv : v.isFinite = true) (hw : w.isFinite = true)
    (d : Draft) : Settles ⟨op.operator, v, w⟩ (compare op v.constant w.constant) d := by
  refine .inl ⟨Operation.isExceptional_comparison op v w, _, op.eval_operator v w, ?_⟩
  by_cases hmixed : ∀ a b, v = .integer a → w ≠ .integer b
  · have hv' := Value.isFinite_toFloat hv
    have hw' := Value.isFinite_toFloat hw
    rw [Value.comparison_of_mixed hmixed]
    unfold compare
    rw [balance_constant hmixed, pure_bind]
    dsimp only
    rw [Operand.foldCompare?, counted_of_isFinite hv', counted_of_isFinite hw',
      holds_orderOfFloats op hv' hw']
    exact ⟨rfl, rfl⟩
  · obtain ⟨a, b, rfl, rfl⟩ : ∃ a b, v = .integer a ∧ w = .integer b := by simpa using hmixed
    unfold compare Value.constant
    rw [balance_integers, pure_bind]
    dsimp only
    rw [Operand.foldCompare?, holds_orderOfIntegers]
    exact ⟨rfl, rfl⟩

theorem settles_power {v w : Value} (hv : v.isFinite = true) (hw : w.isFinite = true) (d : Draft) :
    Settles ⟨.pow, v, w⟩ (power v.constant w.constant) d := by
  unfold Settles power
  rw [Operation.isExceptional_pow, promote_constant, promote_constant, pure_bind, pure_bind]
  rw [Operand.foldPower?, counted_of_isFinite (Value.isFinite_toFloat hv),
    counted_of_isFinite (Value.isFinite_toFloat hw)]
  cases hfinite : (v.toFloat.pow w.toFloat).isFinite with
  | false => exact .inr ⟨rfl, writes_emit _ { d with usesPower := true }⟩
  | true => exact .inl ⟨rfl, .float (v.toFloat.pow w.toFloat), rfl, hfinite, rfl⟩

theorem settles_binary {op : Operator} {compute : Operand → Operand → Lowering Operand}
    (h : binary? op = some compute) {v w : Value} (hv : v.isFinite = true) (hw : w.isFinite = true)
    (d : Draft) : Settles ⟨op, v, w⟩ (compute v.constant w.constant) d := by
  cases op <;> simp only [binary?, Option.some.injEq, reduceCtorEq] at h <;> subst h
  case add => exact settles_arith .add hv hw d
  case sub => exact settles_arith .sub hv hw d
  case mul => exact settles_arith .mul hv hw d
  case div => exact settles_arith .div hv hw d
  case pow => exact settles_power hv hw d
  case less => exact settles_compare .less hv hw d
  case greater => exact settles_compare .greater hv hw d
  case lessEqual => exact settles_compare .lessEqual hv hw d
  case greaterEqual => exact settles_compare .greaterEqual hv hw d
  case equal => exact settles_compare .equal hv hw d

/-! ## Expressions -/

/-- The names of the environment stand for finite constants. -/
def Fixes (scope : Scope Operand) (env : Environment) : Prop :=
  ∀ id v, env.lookup id = some v → v.isFinite = true ∧ scope.get? id = some v.constant

theorem Fixes.push {scope : Scope Operand} {env : Environment} {v : Value} (h : Fixes scope env)
    (id : String) (hv : v.isFinite = true) :
    Fixes (scope.push.set id v.constant) ((id, v) :: env) := by
  intro id' v' hlookup
  rw [Scope.get?_set, Scope.get?_push]
  by_cases hid : id' = id
  · subst hid
    obtain rfl : v = v' := by simpa using hlookup
    exact ⟨hv, if_pos rfl⟩
  · have hne : (id' == id) = false := by simpa using hid
    rw [List.lookup_cons, hne] at hlookup
    rw [if_neg hid]
    exact h id' v' hlookup

/-- An expression is lowered to its value, unless its evaluation comes to an exceptional operation. -/
inductive FoldsOrWrites (arity? : String → Option Nat) (env : Environment) (e : Expr) (d : Draft) : Prop
  | folds {v : Value} (hops : ∀ o ∈ e.operations env, o.isExceptional = false)
      (heval : ∀ callees, e.eval callees env = pure v) (h : Folds (expression arity? e) d v)
  | writes {o : Operation} (ho : o ∈ e.operations env) (hexceptional : o.isExceptional = true)
      (h : Writes (expression arity? e) d)

namespace FoldsOrWrites

variable {arity? : String → Option Nat} {env : Environment}

theorem name {id : String} (pos : Position) (hid : id ∈ env.map Prod.fst) (hd : Fixes d.scope env) :
    FoldsOrWrites arity? env (.name id pos) d := by
  obtain ⟨v, hv⟩ : ∃ v, env.lookup id = some v := by
    simpa [← Option.isSome_iff_exists] using hid
  obtain ⟨hfinite, hget⟩ := hd id v hv
  refine .folds (v := v) (by simp [Expr.operations]) ?_ ⟨hfinite, ?_⟩
  · intro callees
    rw [Expr.eval, hv]
  · rw [expression, lookup_of_some hget]

theorem bind {id : String} {init body : Expr} (pos : Position) (hinit : FoldsOrWrites arity? env init d)
    (hbody : ∀ v : Value, v.isFinite = true → FoldsOrWrites arity? ((id, v) :: env) body
      { d with scope := d.scope.push.set id v.constant }) :
    FoldsOrWrites arity? env (.bind id init body pos) d := by
  cases hinit with
  | writes ho hexceptional h =>
    refine .writes (List.mem_append_left _ ho) hexceptional ?_
    rw [expression]
    exact h.bind fun v => extends_within (extends_expression arity? body)
  | @folds v hops heval h =>
    have hoperations := Expr.operations_bind (Expr.value?_of_eval heval) id body pos
    cases hbody v h.finite with
    | writes ho hexceptional hwrites =>
      refine .writes (hoperations ▸ List.mem_append_right _ ho) hexceptional ?_
      rw [expression]
      exact .of_ok h.ok (.within hwrites)
    | @folds w hops' heval' h' =>
      refine .folds (v := w) ?_ ?_ ⟨h'.finite, ?_⟩
      · rw [hoperations]
        exact List.forall_mem_append.2 ⟨hops, hops'⟩
      · intro callees
        rw [Expr.eval, heval, pure_bind, heval']
      · rw [expression, bind_of_ok h.ok]
        exact within_of_ok h'.ok

theorem unary {op : Operator} {x : Expr} (pos : Position) (hop : op.isSign = true)
    (hx : FoldsOrWrites arity? env x d) : FoldsOrWrites arity? env (.unary op x pos) d := by
  cases hx with
  | writes ho hexceptional h =>
    refine .writes ho hexceptional ?_
    rw [expression]
    refine h.bind fun v => ?_
    cases op with
    | add => exact .pure v
    | sub => exact extends_negate v
    | _ => cases hop
  | @folds v hops heval h =>
    cases op with
    | add =>
      refine .folds (v := v) hops ?_ ⟨h.finite, ?_⟩
      · intro callees
        rw [Expr.eval, heval, pure_bind]
      · rw [expression, bind_of_ok h.ok]
        rfl
    | sub =>
      refine .folds (v := v.negate) hops ?_ ⟨Value.isFinite_negate h.finite, ?_⟩
      · intro callees
        rw [Expr.eval, heval, pure_bind]
      · rw [expression, bind_of_ok h.ok]
        exact congrFun (negate_constant h.finite) d
    | _ => cases hop

theorem binary {op : Operator} {x y : Expr} (pos : Position) (hop : op.precedence?.isSome = true)
    (hx : FoldsOrWrites arity? env x d) (hy : FoldsOrWrites arity? env y d) :
    FoldsOrWrites arity? env (.binary op x y pos) d := by
  obtain ⟨compute, hcompute⟩ := isSome_binary? hop
  cases hx with
  | writes ho hexceptional h =>
    refine .writes (List.mem_append_left _ ho) hexceptional ?_
    simp only [expression, hcompute]
    exact h.bind fun v => (extends_expression arity? y).bind fun w => extends_binary hcompute v w
  | @folds v hops heval h =>
    have hoperations := Expr.operations_binary_left (Expr.value?_of_eval heval) op y pos
    cases hy with
    | writes ho hexceptional hwrites =>
      refine .writes (hoperations ▸ List.mem_append_right _ (List.mem_append_left _ ho)) hexceptional ?_
      simp only [expression, hcompute]
      exact .of_ok h.ok (hwrites.bind fun w => extends_binary hcompute _ w)
    | @folds w hops' heval' h' =>
      rw [Expr.value?_of_eval heval', Option.elim_some] at hoperations
      obtain ⟨hexceptional, r, hr, hfolds⟩ | ⟨hexceptional, hwrites⟩ :=
        settles_binary hcompute h.finite h'.finite d
      · refine .folds (v := r) ?_ ?_ ⟨hfolds.finite, ?_⟩
        · rw [hoperations]
          simpa [List.forall_mem_append, or_imp, forall_and] using ⟨hops, hops', hexceptional⟩
        · intro callees
          rw [Expr.eval, heval, pure_bind, heval', pure_bind, hr]
        · simp only [expression, hcompute]
          rw [bind_of_ok h.ok, bind_of_ok h'.ok, hfolds.ok]
      · refine .writes (o := ⟨op, v, w⟩) ?_ hexceptional ?_
        · rw [hoperations]
          simp
        · simp only [expression, hcompute]
          exact .of_ok h.ok (.of_ok h'.ok hwrites)

end FoldsOrWrites

theorem folds_or_writes (arity? : String → Option Nat) :
    ∀ (e : Expr) (env : Environment) (d : Draft), e.isConstant (env.map Prod.fst) = true →
      Fixes d.scope env → FoldsOrWrites arity? env e d
  | .integer a _, env, d, _, _ =>
    .folds (v := .integer a) (by simp [Expr.operations]) (fun _ => rfl) ⟨rfl, rfl⟩
  | .float x _, env, d, he, _ =>
    .folds (v := .float x) (by simp [Expr.operations]) (fun _ => rfl) ⟨he, rfl⟩
  | .name id pos, env, d, he, hd => .name pos (of_decide_eq_true he) hd
  | .bind id init body pos, env, d, he, hd => by
    simp only [Expr.isConstant, Bool.and_eq_true] at he
    exact .bind pos (folds_or_writes arity? init env d he.1 hd) fun v hv =>
      folds_or_writes arity? body ((id, v) :: env) _ he.2 (hd.push id hv)
  | .unary op x pos, env, d, he, hd => by
    simp only [Expr.isConstant, Bool.and_eq_true] at he
    exact .unary pos he.1 (folds_or_writes arity? x env d he.2 hd)
  | .binary op x y pos, env, d, he, hd => by
    simp only [Expr.isConstant, Bool.and_eq_true] at he
    exact .binary pos he.1.1 (folds_or_writes arity? x env d he.1.2 hd)
      (folds_or_writes arity? y env d he.2 hd)

end Lowering

/-! ## Items -/

namespace Expr

theorem isComplete_of_isConstant : ∀ (e : Expr) {bound : List String}, e.isConstant bound = true →
    e.isComplete = true
  | .integer .., _, _ | .float .., _, _ | .name .., _, _ => rfl
  | .bind _ init body _, _, h => by
    simp only [isConstant, isComplete, Bool.and_eq_true] at h ⊢
    exact ⟨isComplete_of_isConstant init h.1, isComplete_of_isConstant body h.2⟩
  | .unary _ x _, _, h => by
    simp only [isConstant, isComplete, Bool.and_eq_true] at h ⊢
    exact ⟨h.1, isComplete_of_isConstant x h.2⟩
  | .binary _ x y _, _, h => by
    simp only [isConstant, isComplete, Bool.and_eq_true] at h ⊢
    exact ⟨⟨h.1.1, isComplete_of_isConstant x h.1.2⟩, isComplete_of_isConstant y h.2⟩

/-- A constant expression asks for no names but those that are bound. -/
theorem isValid_of_isConstant (arity? : String → Option Nat) : ∀ (e : Expr) {bound scope : List String},
    e.isConstant bound = true → (∀ id ∈ bound, id ∈ scope) → e.IsValid arity? scope
  | .integer .., _, _, _, _ | .float .., _, _, _, _ => by simp [IsValid, demands]
  | .name id pos, _, _, h, hscope => by
    have hid := hscope id (of_decide_eq_true h)
    simpa [IsValid, demands, Demand.IsMet] using hid
  | .bind id init body pos, bound, scope, h, hscope => by
    simp only [isConstant, Bool.and_eq_true] at h
    have hinner : ∀ x ∈ id :: bound, x ∈ id :: scope := by
      intro x hx
      rcases List.mem_cons.1 hx with rfl | hx
      · exact List.mem_cons_self
      · exact List.mem_cons_of_mem _ (hscope x hx)
    exact List.forall_mem_append.2 ⟨isValid_of_isConstant arity? init h.1 hscope,
      isValid_of_isConstant arity? body h.2 hinner⟩
  | .unary op x pos, _, _, h, hscope => by
    simp only [isConstant, Bool.and_eq_true] at h
    exact isValid_of_isConstant arity? x h.2 hscope
  | .binary op x y pos, _, _, h, hscope => by
    simp only [isConstant, Bool.and_eq_true] at h
    exact List.forall_mem_append.2 ⟨isValid_of_isConstant arity? x h.1.2 hscope,
      isValid_of_isConstant arity? y h.2 hscope⟩

end Expr

/-- Items that evaluate an expression: as such, or as the body of a function without a name. -/
inductive Item.Evaluates : Item → Expr → Prop
  | evaluate (e : Expr) (pos : Position) : Item.Evaluates (.evaluate e pos) e
  | define {p : Prototype} (hp : p.isAnonymous = true) (e : Expr) (pos : Position) :
      Item.Evaluates (.define p e pos) e

namespace Generator

variable {g : Generator} {e : Expr} {block : Block}

theorem item_of_evaluates (g : Generator) {i : Item} (h : i.Evaluates e) : g.item i = g.evaluate e := by
  cases h with
  | evaluate pos => rfl
  | define hp pos => exact if_pos hp

/-- The body of a constant expression is lowered. -/
theorem exists_block_of_isConstant (g : Generator) (he : e.isConstant [] = true) :
    ∃ block, (g.lowerBody g.registry [] e false).block = .ok block := by
  obtain ⟨outer, houter⟩ := g.scope.exists_binds
  have hreports := reports_lowerBody g.registry [] false houter (e.isComplete_of_isConstant he)
  have herrors : e.errors g.registry.arity? ([] ++ outer) = [] :=
    Expr.errors_eq_nil_iff.2 (e.isValid_of_isConstant _ he (by simp))
  rw [herrors] at hreports
  unfold Reports at hreports
  cases hblock : (g.lowerBody g.registry [] e false).block with
  | ok block => exact ⟨block, rfl⟩
  | error error => simp [hblock] at hreports

/-- The block of a constant expression. -/
theorem block_of_isConstant (he : e.isConstant [] = true)
    (h : (g.lowerBody g.registry [] e false).block = .ok block) :
    ((∀ o ∈ e.operations [], o.isExceptional = false) ∧ block.code = [] ∧
      ∃ v, (∀ callees, e.eval callees [] = pure v) ∧ block.value = v.constant) ∨
    ((∃ o ∈ e.operations [], o.isExceptional = true) ∧ block.code ≠ []) := by
  have hfixes : Lowering.Fixes g.scope.push [] := by
    intro id v hlookup
    cases hlookup
  unfold lowerBody at h
  cases Lowering.folds_or_writes g.registry.arity? e [] ⟨g.scope.push, #[], false⟩ he hfixes with
  | @folds v hops heval hfolds =>
    have hvalue : bodyValue g.registry [] e false ⟨g.scope, #[], false⟩ =
        .ok v.constant ⟨g.scope, #[], false⟩ := by
      refine Lowering.within_of_ok ?_
      exact Lowering.bind_of_ok hfolds.ok
    rw [hvalue] at h
    cases h
    exact .inl ⟨hops, rfl, v, heval, rfl⟩
  | @writes o ho hexceptional hwrites =>
    have hvalue : Lowering.Writes (bodyValue g.registry [] e false) ⟨g.scope, #[], false⟩ :=
      .within (hwrites.bind fun v => .pure v)
    unfold Lowering.Writes Lowering.draft at hvalue
    split at h
    · rename_i v d hd
      cases h
      simp only [hd] at hvalue
      refine .inr ⟨⟨o, ho, hexceptional⟩, ?_⟩
      exact List.ne_nil_of_length_pos hvalue
    · cases h

/-- The function of a constant expression has no code exactly if the evaluation of the expression comes to no
exceptional operation, and then it returns the value of the expression. -/
theorem item_constant (g : Generator) {i : Item} {e : Expr} (hi : i.Evaluates e)
    (he : e.isConstant [] = true) :
    ∃ block, (g.item i).result = .ok (.expression g.evaluated) ∧
      (g.item i).generator.module.find? (.expression g.evaluated) =
        some ⟨.expression g.evaluated, [], block.value.ty, some block⟩ ∧
      block.label = some entry ∧
      (block.code = [] ↔ ∀ o ∈ e.operations [], o.isExceptional = false) ∧
      (block.code = [] → ∃ v, (∀ callees, e.eval callees [] = pure v) ∧ block.value = v.constant) := by
  obtain ⟨block, hblock⟩ := g.exists_block_of_isConstant he
  have hresult : (g.evaluate e).result = .ok (.expression g.evaluated) := by
    unfold evaluate
    dsimp only
    rw [hblock]
  obtain ⟨block', hblock', hfind⟩ := evaluate_eq_ok hresult
  obtain rfl : block = block' := by simpa [hblock] using hblock'
  rw [g.item_of_evaluates hi]
  refine ⟨block, hresult, hfind, label_lowerBody hblock, ?_⟩
  obtain ⟨hops, hcode, hvalue⟩ | ⟨⟨o, ho, hexceptional⟩, hcode⟩ := block_of_isConstant he hblock
  · exact ⟨⟨fun _ => hops, fun _ => hcode⟩, fun _ => hvalue⟩
  · refine ⟨⟨fun hempty => absurd hempty hcode, fun hops => ?_⟩, fun hempty => absurd hempty hcode⟩
    rw [hops o ho] at hexceptional
    cases hexceptional

/-- The expression `var x = 7 in x / (x - 7)`, which divides by zero. -/
def vanishing : Expr :=
  .bind "x" (.integer 7 ⟨1, 9, 8⟩)
    (.binary .div (.name "x" ⟨1, 14, 13⟩)
      (.binary .sub (.name "x" ⟨1, 19, 18⟩) (.integer 7 ⟨1, 23, 22⟩) ⟨1, 21, 20⟩) ⟨1, 16, 15⟩)
    ⟨1, 5, 4⟩

theorem item_constant_vanishing :
    (Item.evaluate vanishing ⟨1, 1, 0⟩).Evaluates vanishing ∧ vanishing.isConstant [] = true ∧
    vanishing.operations [] =
      [⟨.sub, .integer 7, .integer 7⟩, ⟨.div, .integer 7, .integer 0⟩] ∧
    ∃ block, (initial.item (.evaluate vanishing ⟨1, 1, 0⟩)).result = .ok (.expression 0) ∧
      (initial.item (.evaluate vanishing ⟨1, 1, 0⟩)).generator.module.find? (.expression 0) =
        some ⟨.expression 0, [], block.value.ty, some block⟩ ∧
      block.label = some entry ∧
      (block.code = [] ↔ ∀ o ∈ vanishing.operations [], o.isExceptional = false) ∧
      (block.code = [] →
        ∃ v, (∀ callees, vanishing.eval callees [] = pure v) ∧ block.value = v.constant) :=
  ⟨.evaluate _ _, by decide, by rfl, item_constant initial (.evaluate _ _) (by decide)⟩

end Generator

end ScalarLang
