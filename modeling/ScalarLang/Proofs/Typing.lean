import ScalarLang.Proofs.Simulation
/-!
# Lowering writes code that is typed

The rules say what an operand is after the instructions before it and which operands an instruction may
have; the kind of an expression is read off the tree. `Gives` is closed under sequencing, so that each
function of the lowering is shown once to keep its draft typed, to give a value of the right kind, and to
fail for faults of the program only.
-/
namespace ScalarLang

open IR

/-! ## Typed code -/

namespace IR

/-- What an operand is in a function with `arity` parameters, after the instructions `before`. -/
inductive Operand.HasType (arity : Nat) (before : List Instr) : Operand → Ty → Prop
  | integer (v : Int64) : HasType arity before (.integer v) .i64
  | float (v : Binary64) : HasType arity before (.float v) .double
  | param {i : Nat} (h : i < arity) : HasType arity before (.param i) .double
  | result {i : Nat} {instr : Instr} (h : before[i]? = some instr) :
      HasType arity before (.result instr.ty i) instr.ty

/-- The instructions that may stand after `before`, where `calls s n` says that the function `s` takes
`n` doubles and gives one. A single bit is read by the instruction right after its comparison. -/
inductive Instr.IsTyped (calls : Symbol → Nat → Prop) (arity : Nat) (before : List Instr) :
    Instr → Prop
  | arith {op : Arithmetic} {on : Scalar} {x y : Operand} (hx : x.HasType arity before on.ty)
      (hy : y.HasType arity before on.ty) : IsTyped calls arity before (.arith op on x y)
  | negate {x : Operand} (hx : x.HasType arity before .double) :
      IsTyped calls arity before (.negate x)
  | compare {op : Comparison} {on : Scalar} {x y : Operand} (hx : x.HasType arity before on.ty)
      (hy : y.HasType arity before on.ty) : IsTyped calls arity before (.compare op on x y)
  | widen {earlier : List Instr} {op : Comparison} {on : Scalar} {x y : Operand}
      (h : before = earlier ++ [.compare op on x y]) :
      IsTyped calls arity before (.widen (.result .i1 earlier.length))
  | promote {x : Operand} (hx : x.HasType arity before .i64) :
      IsTyped calls arity before (.promote x)
  | call {callee : Symbol} {args : List Operand} (hc : calls callee args.length)
      (hargs : ∀ x ∈ args, x.HasType arity before .double) :
      IsTyped calls arity before (.call callee args)

/-- Every instruction may stand after the ones before it. -/
def CodeTyped (calls : Symbol → Nat → Prop) (arity : Nat) (code : List Instr) : Prop :=
  ∀ before i, before ++ [i] <+: code → i.IsTyped calls arity before

variable {calls calls' : Symbol → Nat → Prop} {arity : Nat} {before code : List Instr} {x : Operand}

namespace Operand.HasType

theorem mono {ty : Ty} (h : x.HasType arity before ty) (hpre : before <+: code) :
    x.HasType arity code ty := by
  cases h with
  | integer v => exact .integer v
  | float v => exact .float v
  | param hi => exact .param hi
  | result hi =>
    obtain ⟨rest, rfl⟩ := hpre
    have hlt := (List.getElem?_eq_some_iff.1 hi).1
    exact .result (by rw [List.getElem?_append_left hlt, hi])

theorem ty_eq {ty : Ty} (h : x.HasType arity before ty) : x.ty = ty := by
  cases h <;> rfl

theorem ty_float (h : x.HasType arity before Scalar.float.ty) : x.ty = .double := h.ty_eq

theorem ty_integer (h : x.HasType arity before Scalar.integer.ty) : x.ty = .i64 := h.ty_eq

/-- The result of the instruction that was written last. -/
theorem last (arity : Nat) (code : List Instr) (i : Instr) :
    (Operand.result i.ty code.length).HasType arity (code ++ [i]) i.ty :=
  .result (by simp)

theorem of_integer {v : Int64} {s : Scalar} (h : (Operand.integer v).HasType arity before s.ty) :
    s = .integer := by
  cases s with
  | integer => rfl
  | float => cases h

theorem of_float {v : Binary64} {s : Scalar} (h : (Operand.float v).HasType arity before s.ty) :
    s = .float := by
  cases s with
  | integer => cases h
  | float => rfl

end Operand.HasType

theorem Instr.IsTyped.imp {i : Instr} (h : i.IsTyped calls arity before)
    (hcalls : ∀ s n, calls s n → calls' s n) : i.IsTyped calls' arity before := by
  cases h with
  | arith hx hy => exact .arith hx hy
  | negate hx => exact .negate hx
  | compare hx hy => exact .compare hx hy
  | widen h => exact .widen h
  | promote hx => exact .promote hx
  | call hc hargs => exact .call (hcalls _ _ hc) hargs

namespace CodeTyped

theorem nil : CodeTyped calls arity [] := by
  intro before i h
  simp at h

theorem imp (h : CodeTyped calls arity code) (hcalls : ∀ s n, calls s n → calls' s n) :
    CodeTyped calls' arity code :=
  fun before i hi => (h before i hi).imp hcalls

theorem snoc {i : Instr} (h : CodeTyped calls arity code) (hi : i.IsTyped calls arity code) :
    CodeTyped calls arity (code ++ [i]) := by
  intro before j hj
  rcases List.prefix_concat_iff.1 hj with heq | hpre
  · obtain ⟨rfl, hlast⟩ := List.append_inj' heq rfl
    cases hlast
    exact hi
  · exact h before j hpre

end CodeTyped

/-- A number of either kind is a double if one of two is. -/
def Scalar.join : Scalar → Scalar → Scalar
  | .integer, .integer => .integer
  | _, _ => .float

end IR

/-! ## The kinds of expressions -/

/-- The kind of what a binary operator gives. -/
def Operator.scalar (op : Operator) (x y : Scalar) : Scalar :=
  match op with
  | .add | .sub | .mul | .div => x.join y
  | .less | .greater | .lessEqual | .greaterEqual | .equal => .integer
  | .pow | .assign | .other _ => .float

/-- The kind of number that an expression gives. Names are parameters unless `env` binds them. -/
def Expr.scalar (env : List (String × Scalar)) : Expr → Scalar
  | .integer .. => .integer
  | .float .. => .float
  | .name id _ => (env.lookup id).getD .float
  | .bind id init body _ => body.scalar ((id, init.scalar env) :: env)
  | .unary _ x _ => x.scalar env
  | .binary op x y _ => op.scalar (x.scalar env) (y.scalar env)
  | .call .. => .float
  | .missing => .float

/-! ## Typed drafts -/

namespace Lowering

variable {α β : Type}

/-- The calls that a lowering may write: of known functions, and of the power function once it is
marked as called. -/
def Callable (arity? : String → Option Nat) (usesPower : Bool) : Symbol → Nat → Prop
  | .named name, n => arity? name = some n
  | .power, n => usesPower = true ∧ n = 2
  | .expression _, _ => False

variable (arity? : String → Option Nat) (arity : Nat)

/-- From a draft that is typed, an action leads to a later one that is typed, with a result of which
`post` holds; or it fails, and the program is at fault. -/
def Gives (act : Lowering α) (d : Draft) (post : α → List Instr → Prop) : Prop :=
  CodeTyped (Callable arity? d.usesPower) arity d.code.toList →
    match act d with
    | .ok a d' => d.Grows d' ∧ CodeTyped (Callable arity? d'.usesPower) arity d'.code.toList ∧
        post a d'.code.toList
    | .error e _ => e.isInternal = false

/-- Names stand for numbers of their kinds. -/
def ScopeTyped (code : List Instr) (scope : Scope Operand) (env : List (String × Scalar)) : Prop :=
  ∀ id o, scope.get? id = some o → o.HasType arity code ((env.lookup id).getD .float).ty

variable {arity? arity} {d : Draft} {x y : Operand} {s t : Scalar}

namespace Gives

theorem pure {a : α} {post : α → List Instr → Prop} (h : post a d.code.toList) :
    Gives arity? arity (pure a) d post :=
  fun hd => ⟨.refl d, hd, h⟩

theorem throw {e : LoweringError} {post : α → List Instr → Prop} (h : e.isInternal = false) :
    Gives arity? arity (throw e) d post :=
  fun _ => h

theorem bind {act : Lowering α} {f : α → Lowering β} {mid : α → List Instr → Prop}
    {post : β → List Instr → Prop} (h : Gives arity? arity act d mid)
    (hf : ∀ a d', d.Grows d' → mid a d'.code.toList → Gives arity? arity (f a) d' post) :
    Gives arity? arity (act >>= f) d post := by
  intro hd
  have hact := h hd
  show match EStateM.bind act f d with
    | .ok b d' => _
    | .error e _ => _
  unfold EStateM.bind
  cases ha : act d with
  | error e d' =>
    rw [ha] at hact
    exact hact
  | ok a d₁ =>
    rw [ha] at hact
    obtain ⟨hgrows, hd₁, hmid⟩ := hact
    have hfa := hf a d₁ hgrows hmid hd₁
    dsimp only
    cases hb : f a d₁ with
    | error e d₂ =>
      rw [hb] at hfa
      exact hfa
    | ok b d₂ =>
      rw [hb] at hfa
      obtain ⟨hgrows', hd₂, hpost⟩ := hfa
      exact ⟨hgrows.trans hgrows', hd₂, hpost⟩

theorem emit {i : Instr} {post : Operand → List Instr → Prop}
    (hi : i.IsTyped (Callable arity? d.usesPower) arity d.code.toList)
    (h : post (.result i.ty d.code.size) (d.code.toList ++ [i])) :
    Gives arity? arity (emit i) d post := by
  intro hd
  refine ⟨extends_emit i d, ?_, ?_⟩
  · simpa using hd.snoc hi
  · simpa using h

/-- An instruction whose result is a number of kind `s`. -/
theorem number {i : Instr} (hi : i.IsTyped (Callable arity? d.usesPower) arity d.code.toList)
    (hs : i.ty = s.ty) :
    Gives arity? arity (Lowering.emit i) d fun o code => o.HasType arity code s.ty := by
  refine .emit hi ?_
  rw [← hs, ← Array.length_toList]
  exact .last arity d.code.toList i

theorem within {names : List (String × Operand)} {act : Lowering α}
    {post : α → List Instr → Prop}
    (h : Gives arity? arity act
      { d with scope := names.foldl (fun s (id, v) => s.set id v) d.scope.push } post) :
    Gives arity? arity (within names act) d post := by
  intro hd
  have hpop := Scope.pop_foldl_set_push names d.scope
  have hact := h hd
  unfold Lowering.within
  dsimp only
  generalize List.foldl _ _ names = inner at hpop hact ⊢
  cases ha : act { d with scope := inner } with
  | error e d' =>
    rw [ha] at hact
    exact hact
  | ok a d' =>
    rw [ha] at hact
    obtain ⟨hgrows, hd', hpost⟩ := hact
    exact ⟨⟨by rw [hgrows.scope, hpop], hgrows.code⟩, hd', hpost⟩

end Gives

/-! ## Operations -/

theorem gives_promote (h : x.HasType arity d.code.toList s.ty) :
    Gives arity? arity (promote x) d fun o code => o.HasType arity code .double := by
  unfold promote
  cases s with
  | float =>
    rw [if_pos h.ty_float]
    exact .pure h
  | integer =>
    rw [if_neg (by simp [h.ty_integer])]
    split
    · exact .pure (.float _)
    · exact .number (s := .float) (.promote h) rfl

theorem gives_negate (h : x.HasType arity d.code.toList s.ty) :
    Gives arity? arity (negate x) d fun o code => o.HasType arity code s.ty := by
  unfold negate
  split
  · rename_i k hk
    cases x with
    | integer v =>
      obtain rfl := h.of_integer
      cases hk
      exact .pure (.integer _)
    | float v =>
      obtain rfl := h.of_float
      cases hk
      exact .pure (.float _)
    | param i => cases hk
    | result ty i => cases hk
  · cases s with
    | float =>
      rw [if_pos h.ty_float]
      exact .number (.negate h) rfl
    | integer =>
      rw [if_neg (by simp [h.ty_integer])]
      exact .number (.arith (.integer 0) h) rfl

/-- Two numbers are taken as numbers of the kind that joins theirs. -/
theorem gives_balance (hx : x.HasType arity d.code.toList s.ty)
    (hy : y.HasType arity d.code.toList t.ty) :
    Gives arity? arity (balance x y) d fun p code =>
      p.1 = s.join t ∧ p.2.1.HasType arity code p.1.ty ∧ p.2.2.HasType arity code p.1.ty := by
  have hfloats (hjoin : s.join t = .float) :
      Gives arity? arity
        (do let x ← promote x
            let y ← promote y
            pure (.float, x, y)) d fun p code =>
        p.1 = s.join t ∧ p.2.1.HasType arity code p.1.ty ∧ p.2.2.HasType arity code p.1.ty := by
    refine .bind (gives_promote hx) fun x' d₁ hd₁ hx' => ?_
    refine .bind (gives_promote (hy.mono hd₁.code)) fun y' d₂ hd₂ hy' => ?_
    exact .pure ⟨hjoin.symm, hx'.mono hd₂.code, hy'⟩
  unfold balance
  cases s with
  | float =>
    rw [if_pos (.inl hx.ty_float)]
    exact hfloats rfl
  | integer =>
    cases t with
    | float =>
      rw [if_pos (.inr hy.ty_float)]
      exact hfloats rfl
    | integer =>
      rw [if_neg (by simp [hx.ty_integer, hy.ty_integer])]
      exact .pure ⟨rfl, hx, hy⟩

theorem gives_arith (op : Arithmetic) (hx : x.HasType arity d.code.toList s.ty)
    (hy : y.HasType arity d.code.toList t.ty) :
    Gives arity? arity (arith op x y) d fun o code => o.HasType arity code (s.join t).ty := by
  refine .bind (gives_balance hx hy) ?_
  rintro ⟨on, x', y'⟩ d₁ - ⟨hon, hx', hy'⟩
  dsimp only at hon hx' hy' ⊢
  rw [← hon]
  split
  · rename_i k hk
    rcases foldArith?_eq_some hk with ⟨a, b, r, rfl, rfl, -, rfl⟩ | ⟨a, b, r, rfl, rfl, -, rfl⟩
    · obtain rfl := hx'.of_integer
      exact .pure (.integer r)
    · obtain rfl := hx'.of_float
      exact .pure (.float r)
  · exact .number (.arith hx' hy') rfl

theorem gives_compare (op : Comparison) (hx : x.HasType arity d.code.toList s.ty)
    (hy : y.HasType arity d.code.toList t.ty) :
    Gives arity? arity (compare op x y) d fun o code => o.HasType arity code .i64 := by
  refine .bind (gives_balance hx hy) ?_
  rintro ⟨on, x', y'⟩ d₁ - ⟨-, hx', hy'⟩
  dsimp only at hx' hy' ⊢
  split
  · rename_i k hk
    rcases foldCompare?_eq_some hk with ⟨a, b, -, -, rfl⟩ | ⟨a, b, -, -, rfl⟩
    · exact .pure (.integer _)
    · exact .pure (.integer _)
  · -- the bit is the result of the comparison, and the next instruction reads it
    have hbit : Gives arity? arity (emit (.compare op on x' y')) d₁ fun bit code =>
        bit = .result .i1 d₁.code.toList.length ∧
          code = d₁.code.toList ++ [.compare op on x' y'] :=
      .emit (.compare hx' hy') ⟨by simp [Instr.ty], rfl⟩
    refine .bind hbit ?_
    rintro bit d₂ - ⟨rfl, hcode⟩
    exact .number (s := .integer) (.widen hcode) rfl

theorem gives_power (hx : x.HasType arity d.code.toList s.ty)
    (hy : y.HasType arity d.code.toList t.ty) :
    Gives arity? arity (power x y) d fun o code => o.HasType arity code .double := by
  refine .bind (gives_promote hx) fun x' d₁ hd₁ hx' => ?_
  refine .bind (gives_promote (hy.mono hd₁.code)) fun y' d₂ hd₂ hy' => ?_
  have hx'' := hx'.mono hd₂.code
  split
  · rename_i k hk
    unfold Operand.foldPower? at hk
    split at hk
    · simp only [Option.ite_none_right_eq_some, Option.some.injEq] at hk
      obtain ⟨-, rfl⟩ := hk
      exact .pure (.float _)
    · cases hk
  · intro hd
    -- the power function may be called once the draft says that it is
    have hmarked : CodeTyped (Callable arity? true) arity d₂.code.toList := by
      refine hd.imp fun f n hcall => ?_
      cases f with
      | named name => exact hcall
      | expression k => exact hcall
      | power => exact ⟨rfl, hcall.2⟩
    have hcall : Gives arity? arity (emit (.call .power [x', y'])) { d₂ with usesPower := true }
        fun o code => o.HasType arity code .double := by
      refine .number (s := .float) (.call ⟨rfl, rfl⟩ ?_) rfl
      intro z hz
      rcases List.mem_pair.1 hz with rfl | rfl
      · exact hx''
      · exact hy'
    obtain ⟨hgrows, hd₃, hpost⟩ := hcall hmarked
    exact ⟨⟨hgrows.scope, hgrows.code⟩, hd₃, hpost⟩

theorem gives_binary {op : Operator} {compute : Operand → Operand → Lowering Operand}
    (h : binary? op = some compute) (hx : x.HasType arity d.code.toList s.ty)
    (hy : y.HasType arity d.code.toList t.ty) :
    Gives arity? arity (compute x y) d fun o code => o.HasType arity code (op.scalar s t).ty := by
  cases op <;> simp only [binary?, Option.some.injEq, reduceCtorEq] at h <;> subst h
  case pow => exact gives_power hx hy
  case add | sub | mul | div => exact gives_arith _ hx hy
  case less | greater | lessEqual | greaterEqual | equal => exact gives_compare _ hx hy

/-! ## Expressions -/

namespace ScopeTyped

variable {code code' : List Instr} {scope : Scope Operand} {env : List (String × Scalar)}

theorem mono (h : ScopeTyped arity code scope env) (hpre : code <+: code') :
    ScopeTyped arity code' scope env :=
  fun id o ho => (h id o ho).mono hpre

theorem grows {d' : Draft} (h : ScopeTyped arity d.code.toList d.scope env) (hd : d.Grows d') :
    ScopeTyped arity d'.code.toList d'.scope env :=
  hd.scope ▸ h.mono hd.code

theorem push (h : ScopeTyped arity code scope env) (id : String) (hx : x.HasType arity code s.ty) :
    ScopeTyped arity code (scope.push.set id x) ((id, s) :: env) := by
  intro id' o ho
  rw [Scope.get?_set] at ho
  by_cases hid : id' = id
  · simp only [hid, ↓reduceIte, Option.some.injEq] at ho
    subst ho hid
    simpa using hx
  · rw [if_neg hid, Scope.get?_push] at ho
    have hne : (id' == id) = false := by simpa using hid
    simpa [List.lookup_cons, hne] using h id' o ho

end ScopeTyped

theorem gives_lookup {env : List (String × Scalar)} (id : String) (pos : Position)
    (h : ScopeTyped arity d.code.toList d.scope env) :
    Gives arity? arity (lookup id pos) d fun o code =>
      o.HasType arity code ((env.lookup id).getD .float).ty := by
  have hget : Gives arity? arity (get : Lowering Draft) d fun a _ => a = d :=
    fun hd => ⟨.refl d, hd, rfl⟩
  refine hget.bind ?_
  rintro _ d' hgrows rfl
  split
  · rename_i o ho
    exact .pure ((h id o ho).mono hgrows.code)
  · exact .throw rfl

/-- An operator that the grammar has between operands can be computed. -/
theorem isSome_binary? {op : Operator} (h : op.precedence?.isSome = true) :
    ∃ compute, binary? op = some compute := by
  cases op with
  | assign => simp [Operator.precedence?] at h
  | other s => simp [Operator.precedence?] at h
  | _ => exact ⟨_, rfl⟩

mutual

theorem gives_expression :
    ∀ e : Expr, e.isSource = true → ∀ {d : Draft} {env : List (String × Scalar)},
      ScopeTyped arity d.code.toList d.scope env →
      Gives arity? arity (expression arity? e) d fun o code =>
        o.HasType arity code (e.scalar env).ty
  | .integer v _, _, d, env, _ => by
    simp only [expression, Expr.scalar]
    exact .pure (.integer v)
  | .float v _, _, d, env, _ => by
    simp only [expression, Expr.scalar]
    exact .pure (.float v)
  | .name id pos, _, d, env, h => by
    simp only [expression, Expr.scalar]
    exact gives_lookup id pos h
  | .bind id init body _, he, d, env, h => by
    simp only [Expr.isSource, Bool.and_eq_true] at he
    simp only [expression, Expr.scalar]
    refine .bind (gives_expression init he.1.2 h) fun v d₁ hd₁ hv => .within ?_
    exact gives_expression body he.2 ((h.grows hd₁).push id hv)
  | .unary op x pos, he, d, env, h => by
    simp only [Expr.isSource, Bool.and_eq_true] at he
    simp only [expression, Expr.scalar]
    refine .bind (gives_expression x he.2 h) fun v d₁ _ hv => ?_
    cases op with
    | add => exact .pure hv
    | sub => exact gives_negate hv
    | _ => cases he.1
  | .binary op x y pos, he, d, env, h => by
    simp only [Expr.isSource, Bool.and_eq_true] at he
    simp only [expression, Expr.scalar]
    obtain ⟨compute, hop⟩ := isSome_binary? he.1.1
    refine .bind (gives_expression x he.1.2 h) fun v d₁ hd₁ hv => ?_
    refine .bind (gives_expression y he.2 (h.grows hd₁)) fun w d₂ hd₂ hw => ?_
    rw [hop]
    exact gives_binary hop (hv.mono hd₂.code) hw
  | .call callee es pos, he, d, env, h => by
    simp only [Expr.isSource, Bool.and_eq_true] at he
    simp only [expression, Expr.scalar]
    split
    · exact .throw rfl
    · rename_i n hn
      split
      · rename_i hlen
        refine .bind (gives_arguments es he.2 h) fun vs d₁ _ hvs => ?_
        refine .number (s := .float) (.call ?_ hvs.2) rfl
        show arity? callee = some vs.length
        rw [hn, hvs.1, hlen]
      · exact .throw rfl
  | .missing, he, _, _, _ => by simp [Expr.isSource] at he

theorem gives_arguments :
    ∀ es : List Expr, areSource es = true → ∀ {d : Draft} {env : List (String × Scalar)},
      ScopeTyped arity d.code.toList d.scope env →
      Gives arity? arity (arguments arity? es) d fun vs code =>
        vs.length = es.length ∧ ∀ v ∈ vs, v.HasType arity code .double
  | [], _, d, env, _ => by
    simp only [arguments]
    exact .pure ⟨rfl, by simp⟩
  | e :: es, he, d, env, h => by
    simp only [areSource, Bool.and_eq_true] at he
    simp only [arguments]
    refine .bind (gives_expression e he.1 h) fun v d₁ hd₁ hv => ?_
    refine .bind (gives_promote hv) fun v' d₂ hd₂ hv' => ?_
    refine .bind (gives_arguments es he.2 ((h.grows hd₁).grows hd₂)) fun vs d₃ hd₃ hvs => ?_
    refine .pure ⟨by simp [hvs.1], fun w hw => ?_⟩
    rcases List.mem_cons.1 hw with rfl | hw
    · exact hv'.mono hd₃.code
    · exact hvs.2 w hw

end

end Lowering

end ScalarLang
