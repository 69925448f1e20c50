import Mathlib.Data.List.Induction
import ScalarLang.Proofs.Steps
import ScalarLang.Proofs.Typing
/-!
# Every module of a program is typed

A body is typed with respect to the functions that its registry knows (`typed_lowerBody`), a step keeps
what the module offers to be called (`Step.offers`), and so the functions that a run has written stay
typed while others come. `typed_run` says this of all runs.
-/
namespace ScalarLang

open IR

/-! ## Bodies -/

namespace Generator

variable {g g' : Generator} {i : Item} {registry : Registry} {params : List String} {body : Expr}
  {promoted : Bool}

theorem scopeTyped_params (params : List String) :
    Lowering.ScopeTyped params.length [] ((params.mapIdx fun i name => (name, Operand.param i)).foldl
      (fun s (id, v) => s.set id v) Scope.empty.push) [] := by
  intro id o ho
  rcases Lowering.get?_foldl_set ho with ⟨i, hi⟩ | hs
  · rw [List.getElem?_mapIdx] at hi
    obtain ⟨name, hname, hpair⟩ := Option.map_eq_some_iff.1 hi
    cases hpair
    exact .param (List.getElem?_eq_some_iff.1 hname).1
  · exact absurd hs (by simp [Scope.get?, Scope.push, Scope.empty, List.findSome?_cons])

/-- The kind of what a body returns: a double if the function has a name. -/
def returnKind (body : Expr) (promoted : Bool) : Scalar :=
  if promoted then .float else body.scalar []

theorem gives_bodyValue (hb : body.isSource = true) :
    Lowering.Gives registry.arity? params.length (bodyValue registry params body promoted)
      ⟨.empty, #[], false⟩ fun o code =>
        o.HasType params.length code (returnKind body promoted).ty := by
  refine .within (.bind (Lowering.gives_expression body hb (scopeTyped_params params)) ?_)
  intro v d _ hv
  cases promoted with
  | true => exact Lowering.gives_promote hv
  | false => exact .pure hv

/-- The block of a body is typed, if the functions of the registry can be called. -/
theorem typed_lowerBody {block : Block} (hs : g.scope = .empty) (hb : body.isSource = true)
    (h : (g.lowerBody registry params body promoted).block = .ok block) :
    CodeTyped (Lowering.Callable registry.arity?
        (g.lowerBody registry params body promoted).usesPower) params.length block.code ∧
      block.value.HasType params.length block.code (returnKind body promoted).ty := by
  have hgives : Lowering.Gives registry.arity? params.length
    (bodyValue registry params body promoted) _ _ := gives_bodyValue hb
  specialize hgives .nil
  unfold lowerBody at *
  rw [hs] at *
  cases hv : bodyValue registry params body promoted ⟨.empty, #[], false⟩ with
  | error e d =>
    rw [hv] at h
    cases h
  | ok v d =>
    rw [hv] at h hgives
    cases h
    exact hgives.2

end Generator

/-! ## Functions that can be called -/

namespace IR.Module

variable {m : IR.Module} {f : Function} {s : IR.Symbol} {n : Nat}

/-- The function `s` is in the module, takes `n` doubles and gives one. -/
def Offers (m : IR.Module) (s : IR.Symbol) (n : Nat) : Prop :=
  ∃ f, m.find? s = some f ∧ f.arity = n ∧ f.returns = .double

/-- A function that takes the place of another offers the same, if it has the same shape. -/
theorem Offers.put (h : m.Offers s n)
    (hf : ∀ f₀, m.find? f.symbol = some f₀ → f.arity = f₀.arity ∧ f.returns = f₀.returns) :
    (m.put f).Offers s n := by
  obtain ⟨f₀, hfind, harity, hreturns⟩ := h
  by_cases hs : f.symbol = s
  · obtain ⟨ha, hr⟩ := hf f₀ (hs ▸ hfind)
    refine ⟨f, ?_, ha.trans harity, hr.trans hreturns⟩
    rw [find?_put, if_pos hs]
  · refine ⟨f₀, ?_, harity, hreturns⟩
    rw [find?_put, if_neg hs, hfind]

end IR.Module

namespace Generator

variable {g g' : Generator} {i : Item} {r : Except LoweringError IR.Symbol} {s : IR.Symbol} {n : Nat}

theorem offers_withPower {m : IR.Module} (hm : ∀ f, m.find? .power = some f → f = .power)
    (usesPower : Bool) (h : m.Offers s n) : (withPower m usesPower).Offers s n := by
  cases usesPower with
  | false => exact h
  | true =>
    refine h.put fun f₀ hf₀ => ?_
    rw [hm f₀ hf₀]
    exact ⟨rfl, rfl⟩

/-- A function with a body is in the module whether or not one without is put there. -/
theorem mem_of_mem_put {m : IR.Module} {f h : Function} {b : Block} (hf : f.body? = none)
    (hh : h ∈ (m.put f).functions) (hb : h.body? = some b) : h ∈ m.functions := by
  rcases IR.Module.mem_put hh with rfl | hmem
  · rw [hf] at hb
    cases hb
  · exact hmem

theorem mem_of_mem_withPower {m : IR.Module} {usesPower : Bool} {f : Function} {b : Block}
    (h : f ∈ (withPower m usesPower).functions) (hb : f.body? = some b) : f ∈ m.functions := by
  cases usesPower with
  | false => exact h
  | true => exact mem_of_mem_put rfl h hb

/-- A function that a prototype declares or defines has the shape of the one that is there. -/
theorem Consistent.same_shape {p : Prototype} {body? : Option Block} {f₀ : Function}
    (hg : g.Consistent) (hp : g.prototypeFault? p = none)
    (hf₀ : g.module.find? (functionOf p body?).symbol = some f₀) :
    (functionOf p body?).arity = f₀.arity ∧ (functionOf p body?).returns = f₀.returns := by
  have hsig := hg.named p.name
  change g.module.find? (.named p.name) = some f₀ at hf₀
  rw [hf₀] at hsig
  exact ⟨(arity_of_prototypeFault? hp hsig.symm).symm, (hg.returns _ _ hf₀).symm⟩

/-- What can be called before an item can be called after it. -/
theorem Step.offers (h : Step g i r g') (hg : g.Consistent) (ho : g.module.Offers s n) :
    g'.module.Offers s n := by
  have hput {f : Function} (usesPower : Bool) (hf : f.symbol ≠ .power)
      (hshape : ∀ f₀, g.module.find? f.symbol = some f₀ →
        f.arity = f₀.arity ∧ f.returns = f₀.returns) :
      (withPower (g.module.put f) usesPower).Offers s n := by
    refine offers_withPower (fun h hh => ?_) usesPower (ho.put hshape)
    rw [IR.Module.find?_put, if_neg hf] at hh
    exact hg.power h hh
  cases h with
  | undeclared _ => exact ho
  | refused _ _ => exact ho
  | known _ _ => exact ho
  | declared hp _ => exact ho.put fun _ => hg.same_shape hp
  | defined hp _ => exact hput _ (by simp [functionOf]) fun _ => hg.same_shape hp.fault
  | undone hp _ _ => exact hput _ (by simp [functionOf]) fun _ => hg.same_shape hp.fault
  | dropped _ _ _ => exact offers_withPower hg.power _ ho
  | evaluated _ =>
    -- the number of the new function is not in use
    exact hput _ (by simp) fun f₀ hf₀ => absurd (hg.numbered _ f₀ hf₀) (Nat.lt_irrefl _)
  | unevaluated _ => exact offers_withPower hg.power _ ho

theorem arity?_insert (registry : Registry) (name name' : String) (s : Signature) :
    (registry.insert name s).arity? name' =
      if name' = name then some s.arity else registry.arity? name' := by
  unfold Registry.arity?
  rw [Registry.get?_insert]
  split <;> rfl

/-- What a body may call is in the module, once the module has the power function if it is called. -/
theorem Consistent.offers {arity? : String → Option Nat} {usesPower : Bool} (hg : g.Consistent)
    (harity : ∀ name, arity? name = g.registry.arity? name)
    (hpower : usesPower = true → g.module.find? .power = some .power)
    (h : Lowering.Callable arity? usesPower s n) : g.module.Offers s n := by
  cases s with
  | named name =>
    have hname : g.registry.arity? name = some n := (harity name).symm.trans h
    rw [Registry.arity?, ← hg.named name, Option.map_map] at hname
    obtain ⟨f, hf, hn⟩ := Option.map_eq_some_iff.1 hname
    exact ⟨f, hf, hn, hg.returns name f hf⟩
  | power =>
    obtain ⟨huses, rfl⟩ := h
    exact ⟨.power, hpower huses, rfl, rfl⟩
  | expression k => exact h.elim

/-! ## Runs -/

/-- The generator after some items, whether or not they succeed. -/
def run (items : List Item) : Generator := items.foldl (fun g i => (g.item i).generator) .initial

theorem run_append (items : List Item) (i : Item) :
    run (items ++ [i]) = ((run items).item i).generator := by
  simp [run]

/-- A function with a block that is typed in a module, after the expressions `es` have been evaluated.
It returns a double if it has a name, and else a number of the kind of its expression. -/
structure WellTyped (m : IR.Module) (es : List Expr) (f : Function) (b : Block) : Prop where
  label : b.label = some entry
  code : CodeTyped m.Offers f.arity b.code
  value : b.value.HasType f.arity b.code f.returns
  returns : match f.symbol with
    | .named _ => f.returns = .double
    | .expression n => f.params = [] ∧ ∃ e, es[n]? = some e ∧ f.returns = (e.scalar []).ty
    | .power => False

theorem WellTyped.mono {m m' : IR.Module} {es es' : List Expr} {f : Function} {b : Block}
    (h : WellTyped m es f b) (hm : ∀ s n, m.Offers s n → m'.Offers s n) (hes : es <+: es') :
    WellTyped m' es' f b := by
  refine ⟨h.label, h.code.imp hm, h.value, ?_⟩
  have hreturns := h.returns
  split at hreturns
  · exact hreturns
  · obtain ⟨hparams, e, he, hty⟩ := hreturns
    obtain ⟨more, rfl⟩ := hes
    have hlt := (List.getElem?_eq_some_iff.1 he).1
    exact ⟨hparams, e, by rw [List.getElem?_append_left hlt, he], hty⟩
  · exact hreturns

/-- All functions but those of the library are typed. -/
structure Typed (es : List Expr) (g : Generator) : Prop where
  count : g.evaluated = es.length
  functions : ∀ f ∈ g.module.functions, f ∉ IR.Module.library.functions →
    ∀ b, f.body? = some b → WellTyped g.module es f b

theorem typed_initial : initial.Typed [] where
  count := rfl
  functions := fun _ hf hnot => absurd hf hnot

/-- The block of a definition is typed in the module that it is put into. -/
theorem wellTyped_definition {p : Prototype} {body : Expr} {block : Block}
    (es : List Expr) (hg : g.Consistent) (hs : g.scope = .empty) (hb : body.isSource = true)
    (hp : g.Admits p) (hblock : (g.definitionBody p body).block = .ok block) :
    WellTyped (withPower (g.module.put (functionOf p (some block)))
      (g.definitionBody p body).usesPower) es (functionOf p (some block)) block := by
  obtain ⟨hcode, hvalue⟩ := typed_lowerBody hs hb hblock
  refine ⟨label_lowerBody hblock, hcode.imp fun _ _ hcall => ?_, hvalue, rfl⟩
  have hstep : Step g (.define p body p.pos) _ _ := .defined hp hblock
  refine (hstep.consistent hg).offers ?_ ?_ hcall
  · intro name
    simp only [arity?_insert]
  · intro huses
    dsimp only
    rw [show (g.definitionBody p body).usesPower = true from huses]
    exact find?_power_withPower _

/-- The block of an expression is typed in the module that it is put into. -/
theorem wellTyped_expression {body : Expr} {block : Block} {es : List Expr}
    (hg : g.Consistent) (hs : g.scope = .empty) (hb : body.isSource = true)
    (hes : g.evaluated = es.length) (hblock : (g.expressionBody body).block = .ok block) :
    WellTyped (withPower (g.module.put ⟨.expression g.evaluated, [], block.value.ty, some block⟩)
      (g.expressionBody body).usesPower) (es ++ [body])
      ⟨.expression g.evaluated, [], block.value.ty, some block⟩ block := by
  obtain ⟨hcode, hvalue⟩ := typed_lowerBody hs hb hblock
  have hty := hvalue.ty_eq
  refine ⟨label_lowerBody hblock, hcode.imp fun _ _ hcall => ?_, ?_, rfl, body, ?_, hty⟩
  · have hstep : Step g (.evaluate body body.pos) _ _ := .evaluated hblock
    refine (hstep.consistent hg).offers (fun _ => rfl) ?_ hcall
    intro huses
    dsimp only
    rw [show (g.expressionBody body).usesPower = true from huses]
    exact find?_power_withPower _
  · rw [hty]
    exact hvalue
  · simp [hes]

/-- A step keeps the functions typed that are there, and the ones that it adds are typed too. -/
theorem Step.typed {es : List Expr} (h : Step g i r g') (hi : Reading.SourceItem i)
    (hs : g.scope = .empty) (hg : g.Consistent) (ht : g.Typed es) :
    g'.Typed (es ++ (evaluated? i).toList) := by
  have hold : ∀ f ∈ g.module.functions, f ∉ IR.Module.library.functions →
      ∀ b, f.body? = some b → WellTyped g'.module (es ++ (evaluated? i).toList) f b :=
    fun f hf hnot b hb =>
      (ht.functions f hf hnot b hb).mono (fun _ _ => h.offers hg) (List.prefix_append _ _)
  refine ⟨by rw [h.evaluated_eq, ht.count, List.length_append], fun f hf hnot b hb => ?_⟩
  cases h with
  | undeclared _ => exact hold f hf hnot b hb
  | refused _ _ => exact hold f hf hnot b hb
  | known _ _ => exact hold f hf hnot b hb
  | declared _ _ => exact hold f (mem_of_mem_put rfl hf hb) hnot b hb
  | defined hp hblock =>
    rcases IR.Module.mem_put (mem_of_mem_withPower hf hb) with rfl | hf
    · cases hb
      exact wellTyped_definition _ hg hs hi.2 hp hblock
    · exact hold f hf hnot b hb
  | undone _ _ _ =>
    exact hold f (mem_of_mem_put rfl (mem_of_mem_withPower hf hb) hb) hnot b hb
  | dropped _ _ _ => exact hold f (mem_of_mem_withPower hf hb) hnot b hb
  | evaluated hblock =>
    rcases IR.Module.mem_put (mem_of_mem_withPower hf hb) with rfl | hf
    · cases hb
      exact wellTyped_expression hg hs hi ht.count hblock
    · exact hold f hf hnot b hb
  | unevaluated _ => exact hold f (mem_of_mem_withPower hf hb) hnot b hb

theorem reachable_run {items : List Item} (h : ∀ i ∈ items, i.IsParsed) : (run items).Reachable := by
  induction items using List.reverseRecOn with
  | nil => exact .initial
  | append_singleton items i ih =>
    rw [run_append]
    exact .item (ih fun j hj => h j (by simp [hj])) (h i (by simp))

theorem typed_run_evaluated {items : List Item} (h : ∀ i ∈ items, i.IsParsed) :
    (run items).Typed (items.filterMap evaluated?) := by
  induction items using List.reverseRecOn with
  | nil => exact typed_initial
  | append_singleton items i ih =>
    have hitems : ∀ j ∈ items, j.IsParsed := fun j hj => h j (by simp [hj])
    have hg := reachable_run hitems
    have hi := (h i (by simp)).sourceItem
    rw [run_append, List.filterMap_append]
    have hstep := (step_item (run items) hi).typed hi hg.scope hg.consistent (ih hitems)
    cases hev : evaluated? i <;> simpa [hev] using hstep

/-- In the module of a run no two functions have one symbol, and every function with a body that is not
of the library is typed: operands are constants, parameters and results of instructions before; they
are what their instruction works on; calls are of functions of the module, with as many doubles as
these take; and what is returned is of the type that the function has. -/
theorem typed_run {items : List Item} (h : ∀ i ∈ items, i.IsParsed) :
    ((run items).module.functions.map Function.symbol).Nodup ∧
    ∀ f ∈ (run items).module.functions, f ∉ IR.Module.library.functions →
      ∀ b, f.body? = some b → WellTyped (run items).module (items.filterMap evaluated?) f b :=
  ⟨(reachable_run h).consistent.nodup, (typed_run_evaluated h).functions⟩

/-- The text `f(2) < 1`, which compares what a function gives with an integer. -/
def comparison : Item :=
  .evaluate (.binary .less (.call "f" [.integer 2 ⟨1, 3, 2⟩] ⟨1, 1, 0⟩) (.integer 1 ⟨1, 8, 7⟩)
    ⟨1, 6, 5⟩) ⟨1, 1, 0⟩

theorem isParsed_comparison : comparison.IsParsed :=
  ⟨"f(2) < 1".toUTF8.toList, none, _, .start, by with_unfolding_all rfl⟩

/-- The function of the comparison: both sides are doubles, and the answer is an integer. -/
def comparisonFunction : Function :=
  ⟨.expression 1, [], .i64, some ⟨some entry,
    [.call (.named "f") [.float (.ofInt64 2)],
      .compare .less .float (.result .double 0) (.float (.ofInt64 1)), .widen (.result .i1 1)],
    .result .i64 2⟩⟩

theorem typed_run_comparison :
    (∀ i ∈ [unbound, recursive, comparison], i.IsParsed) ∧
    comparisonFunction ∈ (run [unbound, recursive, comparison]).module.functions ∧
    ∃ b, comparisonFunction.body? = some b ∧ WellTyped (run [unbound, recursive, comparison]).module
      ([unbound, recursive, comparison].filterMap evaluated?) comparisonFunction b := by
  have hparsed : ∀ i ∈ [unbound, recursive, comparison], i.IsParsed := by
    simp only [List.mem_cons, List.not_mem_nil, or_false]
    rintro i (rfl | rfl | rfl)
    · exact isParsed_unbound
    · exact isParsed_recursive
    · exact isParsed_comparison
  have hmem : comparisonFunction ∈ (run [unbound, recursive, comparison]).module.functions :=
    List.mem_of_getElem? (i := 3) (by with_unfolding_all rfl)
  exact ⟨hparsed, hmem, _, rfl, (typed_run hparsed).2 _ hmem (by decide) _ rfl⟩

end Generator

end ScalarLang
