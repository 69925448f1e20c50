import ScalarLang.Proofs.FailedItems
import ScalarLang.Proofs.TypedModules
/-!
# A function that has a body is final

`final_of_body`: whatever items come after such a function, it stands at its place in the module, with
the same name, parameters, type and code, and under its name in the registry. Each step puts at most one
function besides the power function into the module, and never in the place of one with a body: a
definition is not admitted there, and the numbers of expressions are not used twice.
-/
namespace ScalarLang

open IR

namespace IR.Module

variable {m : IR.Module} {f h : Function} {n : Nat}

/-- A function keeps its place while one with another symbol is put into the module. -/
theorem getElem?_put (hf : m.functions[n]? = some f) (hne : f.symbol ≠ h.symbol) :
    (m.put h).functions[n]? = some f := by
  cases hfind : m.find? h.symbol with
  | none =>
    rw [functions_put_of_none hfind]
    exact List.getElem?_append_left (List.getElem?_eq_some_iff.1 hf).1 ▸ hf
  | some h₀ =>
    rw [functions_put_of_some hfind, List.getElem?_map, hf, Option.map_some, if_neg hne]

end IR.Module

namespace Generator

variable {g g' : Generator} {i : Item} {r : Except LoweringError IR.Symbol} {f : Function} {n : Nat}

/-- The generator after more items, whether or not they succeed. -/
def after (g : Generator) (items : List Item) : Generator :=
  items.foldl (fun g i => (g.item i).generator) g

theorem Reachable.after (hg : g.Reachable) {items : List Item} (hitems : ∀ i ∈ items, i.IsParsed) :
    (g.after items).Reachable := by
  induction items generalizing g with
  | nil => exact hg
  | cons i items ih =>
    obtain ⟨hi, hitems⟩ := List.forall_mem_cons.1 hitems
    exact ih (hg.item hi) hitems

/-! ## One step -/

/-- The registry knows of every function with a name, and that it has a body if it has one. -/
theorem Consistent.get?_of_mem {name : String} (hg : g.Consistent) (hf : f ∈ g.module.functions)
    (hsymbol : f.symbol = .named name) : g.registry.get? name = some (signature f) := by
  rw [← hg.named name, ← hsymbol, IR.Module.find?_of_mem hg.nodup hf]
  rfl

/-- A definition is not admitted in the place of a function with a body. -/
theorem Admits.symbol_ne {p : Prototype} (hp : g.Admits p) (hg : g.Consistent)
    (hf : f ∈ g.module.functions) (hb : f.body?.isSome = true) : f.symbol ≠ .named p.name := by
  intro hsymbol
  have hdefined := hp.undefined _ (hg.get?_of_mem hf hsymbol)
  simp [Generator.signature, hb] at hdefined

theorem Consistent.symbol_ne_power (hg : g.Consistent) (hf : f ∈ g.module.functions)
    (hb : f.body?.isSome = true) : f.symbol ≠ .power := by
  intro hsymbol
  have hfind := IR.Module.find?_of_mem hg.nodup hf
  rw [hsymbol] at hfind
  rw [hg.power f hfind] at hb
  cases hb

/-- The next number is not in use. -/
theorem Consistent.symbol_ne_expression (hg : g.Consistent) (hf : f ∈ g.module.functions) :
    f.symbol ≠ .expression g.evaluated := by
  intro hsymbol
  have hfind := IR.Module.find?_of_mem hg.nodup hf
  rw [hsymbol] at hfind
  exact Nat.lt_irrefl _ (hg.numbered _ f hfind)

/-- A step leaves every function that has a body at its place and as it is. -/
theorem Step.getElem?_functions (h : Step g i r g') (hg : g.Consistent)
    (hf : g.module.functions[n]? = some f) (hb : f.body?.isSome = true) :
    g'.module.functions[n]? = some f := by
  have hmem := List.mem_of_getElem? hf
  have hpower {m : IR.Module} (hm : m.functions[n]? = some f) (usesPower : Bool) :
      (withPower m usesPower).functions[n]? = some f := by
    cases usesPower with
    | false => exact hm
    | true => exact IR.Module.getElem?_put hm (hg.symbol_ne_power hmem hb)
  cases h with
  | undeclared _ => exact hf
  | refused _ _ => exact hf
  | known _ _ => exact hf
  | declared _ hnew =>
    refine IR.Module.getElem?_put hf fun hsymbol => ?_
    rw [hg.get?_of_mem hmem hsymbol] at hnew
    cases hnew
  | defined hp _ => exact hpower (IR.Module.getElem?_put hf (hp.symbol_ne hg hmem hb)) _
  | undone hp _ _ => exact hpower (IR.Module.getElem?_put hf (hp.symbol_ne hg hmem hb)) _
  | dropped _ _ _ => exact hpower hf _
  | evaluated _ => exact hpower (IR.Module.getElem?_put hf (hg.symbol_ne_expression hmem)) _
  | unevaluated _ => exact hpower hf _

/-! ## Every run -/

theorem getElem?_functions_after (hg : g.Reachable) {items : List Item}
    (hitems : ∀ i ∈ items, i.IsParsed) (hf : g.module.functions[n]? = some f)
    (hb : f.body?.isSome = true) : (g.after items).module.functions[n]? = some f := by
  induction items generalizing g with
  | nil => exact hf
  | cons i items ih =>
    obtain ⟨hi, hitems⟩ := List.forall_mem_cons.1 hitems
    exact ih (hg.item hi) hitems ((step_item g hi.sourceItem).getElem?_functions hg.consistent hf hb)

/-- What is registered under a name is the function of the module that has it. -/
theorem Consistent.function?_eq_some_iff {name : String} (hg : g.Consistent) :
    g.function? name = some f ↔ f ∈ g.module.functions ∧ f.symbol = .named name := by
  constructor
  · intro hf
    exact IR.Module.mem_of_find? (Option.ite_none_right_eq_some.1 hf).2
  · rintro ⟨hf, hsymbol⟩
    rw [function?, hg.get?_of_mem hf hsymbol, ← hsymbol, IR.Module.find?_of_mem hg.nodup hf]
    rfl

/-- Whatever items come after a function with a body, the function stays where it is in the module, with
all that belongs to it, and so it does in the registry if it is there. -/
theorem final_of_body (hg : g.Reachable) (hf : g.module.functions[n]? = some f)
    (hb : f.body?.isSome = true) {items : List Item} (hitems : ∀ i ∈ items, i.IsParsed) :
    (g.after items).module.functions[n]? = some f ∧
    ∀ name, g.function? name = some f → (g.after items).function? name = some f := by
  have hkept := getElem?_functions_after hg hitems hf hb
  refine ⟨hkept, fun name hname => ?_⟩
  have hsymbol := (hg.consistent.function?_eq_some_iff.1 hname).2
  exact (hg.after hitems).consistent.function?_eq_some_iff.2 ⟨List.mem_of_getElem? hkept, hsymbol⟩

/-- The function `f` is declared again, defined again, which is refused, and called. -/
theorem final_of_body_redefined :
    (run [unbound, recursive]).Reachable ∧
    (∀ i ∈ [declaration, unboundPower, comparison], i.IsParsed) ∧
    ((run [unbound, recursive]).item unboundPower).result =
      .error ⟨.alreadyDefined "f", ⟨1, 5, 4⟩⟩ ∧
    ∃ f, (run [unbound, recursive]).module.functions[2]? = some f ∧ f.body?.isSome = true ∧
      (run [unbound, recursive]).function? "f" = some f ∧
      ((run [unbound, recursive]).after [declaration, unboundPower, comparison]).module.functions[2]? =
        some f ∧
      ((run [unbound, recursive]).after [declaration, unboundPower, comparison]).function? "f" =
        some f := by
  have hg : (run [unbound, recursive]).Reachable :=
    .item (.item .initial isParsed_unbound) isParsed_recursive
  have hitems : ∀ i ∈ [declaration, unboundPower, comparison], i.IsParsed := by
    simp only [List.mem_cons, List.not_mem_nil, or_false]
    rintro i (rfl | rfl | rfl)
    · exact isParsed_declaration
    · exact isParsed_unboundPower
    · exact isParsed_comparison
  have hplace : ∃ f, (run [unbound, recursive]).module.functions[2]? = some f ∧
      f.body?.isSome = true ∧ (run [unbound, recursive]).function? "f" = some f :=
    ⟨_, by with_unfolding_all rfl, by with_unfolding_all rfl, by with_unfolding_all rfl⟩
  obtain ⟨f, hf, hb, hname⟩ := hplace
  obtain ⟨hkept, hregistered⟩ := final_of_body hg hf hb hitems
  exact ⟨hg, hitems, by with_unfolding_all rfl, f, hf, hb, hname, hkept, hregistered "f" hname⟩

end Generator

end ScalarLang
