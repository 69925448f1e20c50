import Mathlib.Order.Monotone.Basic
import ScalarLang.Proofs.FinalFunctions
import ScalarLang.Proofs.Validity
/-!
# Failed items have no influence on later ones

`accepted_run` compares a run with the one that has only the items which succeed in it. A failed item may
use up a number, add the power function and give new names to the parameters of a declaration; what
decides later outcomes is the registry and the code of the functions with names (`Shadows`), and these it
leaves alone.
-/
namespace ScalarLang

open IR

/-! ## Functions that match -/

namespace IR

/-- A symbol when the expressions have other numbers. -/
def Symbol.renumbered (ρ : Nat → Nat) : Symbol → Symbol
  | expression n => .expression (ρ n)
  | s => s

/-- Functions of one shape with the same code, which never calls an expression. The names of parameters
count only where there is code. -/
structure Function.Matches (f h : Function) : Prop where
  arity : f.arity = h.arity
  returns : f.returns = h.returns
  body : f.body? = h.body?
  params : f.body?.isSome = true → f.params = h.params

theorem Function.Matches.of_params {f h : Function} (hp : f.params = h.params)
    (hr : f.returns = h.returns) (hb : f.body? = h.body?) : f.Matches h :=
  ⟨congrArg List.length hp, hr, hb, fun _ => hp⟩

end IR

/-- What is reported of the same faults is the same error. -/
theorem Reports.error_iff {α β : Type} {r : Except LoweringError α} {r' : Except LoweringError β}
    {errors : List LoweringError} (hr : Reports r errors) (hr' : Reports r' errors) (e : LoweringError) :
    r = .error e ↔ r' = .error e := by
  unfold Reports at hr hr'
  cases r with
  | ok a =>
    cases r' with
    | ok b => simp
    | error e' => simp [hr] at hr'
  | error e₁ =>
    cases r' with
    | ok b => simp [hr'] at hr
    | error e₂ =>
      cases hr.symm.trans hr'
      simp

/-! ## Runs -/

namespace Generator

variable {g g₁ h h₁ : Generator} {i : Item} {p : Prototype} {body : Expr} {e : LoweringError}
  {s t : IR.Symbol} {items : List Item}

/-- The function that an item yields, as it is then. An item that fails yields none. -/
def yield? (g : Generator) (i : Item) : Option Function :=
  match (g.item i).result with
  | .ok s => (g.item i).generator.module.find? s
  | .error _ => none

/-- What items yield in turn. -/
def yields (g : Generator) : List Item → List (Option Function)
  | [] => []
  | i :: items => g.yield? i :: yields (g.item i).generator items

/-- The items that succeed in turn. -/
def accepted (g : Generator) : List Item → List Item
  | [] => []
  | i :: items =>
    match (g.item i).result with
    | .ok _ => i :: accepted (g.item i).generator items
    | .error _ => accepted (g.item i).generator items

theorem accepted_sublist (g : Generator) (items : List Item) : (g.accepted items).Sublist items := by
  induction items generalizing g with
  | nil => exact .slnil
  | cons i items ih =>
    unfold accepted
    split
    · exact (ih _).cons_cons i
    · exact (ih _).cons i

theorem accepted_append (g : Generator) (items more : List Item) :
    g.accepted (items ++ more) = g.accepted items ++ (g.after items).accepted more := by
  induction items generalizing g with
  | nil => rfl
  | cons i items ih =>
    simp only [List.cons_append, accepted, after, List.foldl_cons]
    split
    · exact congrArg _ (ih _)
    · exact ih _

/-! ## What later outcomes depend on -/

theorem definitionBody_congr (hr : g.registry = h.registry) (hs : g.scope = h.scope) (p : Prototype)
    (body : Expr) : g.definitionBody p body = h.definitionBody p body := by
  simp only [definitionBody, lowerBody, hr, hs]

theorem expressionBody_congr (hr : g.registry = h.registry) (hs : g.scope = h.scope) (body : Expr) :
    g.expressionBody body = h.expressionBody body := by
  simp only [expressionBody, lowerBody, hr, hs]

/-- The generator `h` has had the items that succeeded for `g`: the registries are the same, and the
functions with names match. -/
structure Shadows (g h : Generator) : Prop where
  registry : g.registry = h.registry
  named : ∀ name, Option.Rel Function.Matches (g.module.find? (.named name))
    (h.module.find? (.named name))

theorem Shadows.refl (g : Generator) : Shadows g g := by
  refine ⟨rfl, fun name => ?_⟩
  cases g.module.find? (.named name) with
  | none => exact .none
  | some f => exact .some (.of_params rfl rfl rfl)

/-- An item that fails for one of two generators fails for the other, with the same error. -/
theorem Shadows.error_iff (hgh : Shadows g h) (hg : g.Reachable) (hh : h.Reachable)
    (hi : i.IsParsed) (e : LoweringError) :
    (g.item i).result = .error e ↔ (h.item i).result = .error e := by
  have hknown : g.known = h.known := by
    rw [hg.consistent.known_eq, hh.consistent.known_eq, hgh.registry]
  have hreports' := reports_item hh hi
  rw [← hknown] at hreports'
  exact (reports_item hg hi).error_iff hreports' e

/-- The same function is put into two modules, which may or may not get the power function then. -/
theorem Shadows.put_named {f f' : Function} {r : Registry} {n n' : Nat} (hgh : Shadows g h)
    (hf : f.Matches f') (hsymbol : f.symbol = .named p.name) (hsymbol' : f'.symbol = .named p.name)
    (usesPower usesPower' : Bool) :
    Shadows ⟨withPower (g.module.put f) usesPower, r, g.scope, n⟩
      ⟨withPower (h.module.put f') usesPower', r, h.scope, n'⟩ := by
  refine ⟨rfl, fun name => ?_⟩
  simp only [find?_withPower _ _ (s := .named name) (by simp), IR.Module.find?_put, hsymbol, hsymbol']
  split
  · exact .some hf
  · exact hgh.named name

/-! ## One step -/

/-- An item that fails changes nothing that counts. -/
theorem Shadows.skip (hgh : Shadows g h) (hg : g.Consistent) (hstep : Step g i (.error e) g₁) :
    Shadows g₁ h := by
  refine ⟨hstep.registry.1.trans hgh.registry, fun name => ?_⟩
  cases hstep with
  | undeclared _ => exact hgh.named name
  | refused _ _ => exact hgh.named name
  | @undone p body pos _ hp hknown hblock =>
    -- the declaration gets other names for its parameters, as many as it had
    simp only [find?_withPower _ _ (s := .named name) (by simp), IR.Module.find?_put]
    split
    · rename_i hname
      cases hname
      obtain ⟨sig, hsig⟩ := Option.isSome_iff_exists.1 hknown
      have hfunction := (hg.named p.name).trans hsig
      obtain ⟨f, hf, hf'⟩ := Option.map_eq_some_iff.1 hfunction
      rw [hp.signature hsig] at hf'
      have hrel := hgh.named p.name
      rw [hf] at hrel
      generalize h.module.find? (.named p.name) = o at hrel ⊢
      cases hrel with
      | some hmatches =>
        have harity := congrArg Signature.arity hf'
        have hbody : f.body? = none := by simpa [signature] using congrArg Signature.defined hf'
        refine .some ⟨harity.symm.trans hmatches.arity, ?_, hbody.symm.trans hmatches.body, ?_⟩
        · exact (hg.returns p.name f hf).symm.trans hmatches.returns
        · simp [functionOf]
    · exact hgh.named name
  | dropped _ _ _ => simpa only [find?_withPower _ _ (s := .named name) (by simp)] using hgh.named name
  | unevaluated _ => simpa only [find?_withPower _ _ (s := .named name) (by simp)] using hgh.named name

/-- The function that a successful step yields is in the module. -/
theorem Step.find?_isSome (hstep : Step g i (.ok s) g₁) (hg : g.Consistent) :
    (g₁.module.find? s).isSome = true := by
  cases hstep with
  | @known p _ _ hknown =>
    rw [← hg.named p.name] at hknown
    simpa using hknown
  | declared _ _ => simp [IR.Module.find?_put, functionOf]
  | defined _ _ => simp [find?_withPower, IR.Module.find?_put, functionOf]
  | evaluated _ => simp [find?_withPower, IR.Module.find?_put]

/-- What two steps of one item yield: functions that match, under one name or with the next numbers. -/
structure Yields (g h g₁ h₁ : Generator) (s t : IR.Symbol) : Prop where
  functions : Option.Rel Function.Matches (g₁.module.find? s) (h₁.module.find? t)
  symbols : (∃ name, s = .named name ∧ t = .named name) ∨
    (s = .expression g.evaluated ∧ t = .expression h.evaluated ∧ h₁.evaluated = h.evaluated + 1)

theorem Yields.matches {f : Function} (hyields : Yields g h g₁ h₁ s t)
    (hf : g₁.module.find? s = some f) : ∃ f', h₁.module.find? t = some f' ∧ f.Matches f' := by
  have hrel := hyields.functions
  rw [hf] at hrel
  generalize h₁.module.find? t = o at hrel ⊢
  cases hrel with
  | some hmatches => exact ⟨_, rfl, hmatches⟩

theorem Shadows.step (hgh : Shadows g h) (hs : g.scope = h.scope) (hstep : Step g i (.ok s) g₁)
    (hstep' : Step h i (.ok t) h₁) : Shadows g₁ h₁ ∧ Yields g h g₁ h₁ s t := by
  have hnamed {g₁ h₁ : Generator} {name : String} (hnext : Shadows g₁ h₁) :
      Shadows g₁ h₁ ∧ Yields g h g₁ h₁ (.named name) (.named name) :=
    ⟨hnext, hnext.named name, .inl ⟨name, rfl, rfl⟩⟩
  cases hstep with
  | known _ hknown =>
    cases hstep' with
    | known _ _ => exact hnamed hgh
    | declared _ hnew =>
      rw [hgh.registry, hnew] at hknown
      cases hknown
  | @declared p _ _ hnew =>
    cases hstep' with
    | known _ hknown =>
      rw [← hgh.registry, hnew] at hknown
      cases hknown
    | declared _ _ =>
      rw [hgh.registry]
      exact hnamed (hgh.put_named (f := functionOf p none) (.of_params rfl rfl rfl) rfl rfl false false)
  | @defined p body _ block _ hblock =>
    cases hstep' with
    | defined _ hblock' =>
      rw [definitionBody_congr hgh.registry hs] at hblock
      cases hblock.symm.trans hblock'
      rw [hgh.registry]
      exact hnamed (hgh.put_named (f := functionOf p (some block)) (.of_params rfl rfl rfl) rfl rfl _ _)
  | evaluated hblock =>
    cases hstep' with
    | evaluated hblock' =>
      rw [expressionBody_congr hgh.registry hs] at hblock
      cases hblock.symm.trans hblock'
      refine ⟨⟨hgh.registry, fun name => ?_⟩, ?_, .inr ⟨rfl, rfl, rfl⟩⟩
      · simpa [find?_withPower, IR.Module.find?_put] using hgh.named name
      · simp only [find?_withPower _ _ (s := .expression _) (by simp), IR.Module.find?_put, ↓reduceIte]
        exact .some (.of_params rfl rfl rfl)

/-- An item fails for both of two generators, and the first may then go on alone, or it yields functions
that match. -/
theorem Shadows.item (hgh : Shadows g h) (hg : g.Reachable) (hh : h.Reachable) (hi : i.IsParsed) :
    (∃ e, (g.item i).result = .error e ∧ Shadows (g.item i).generator h) ∨
    ∃ s t, (g.item i).result = .ok s ∧ (h.item i).result = .ok t ∧
      Shadows (g.item i).generator (h.item i).generator ∧
      Yields g h (g.item i).generator (h.item i).generator s t := by
  have hstep := step_item g hi.sourceItem
  have hstep' := step_item h hi.sourceItem
  cases hr : (g.item i).result with
  | error e =>
    rw [hr] at hstep
    exact .inl ⟨e, rfl, hgh.skip hg.consistent hstep⟩
  | ok s =>
    rw [hr] at hstep
    cases hr' : (h.item i).result with
    | error e =>
      rw [(hgh.error_iff hg hh hi e).2 hr'] at hr
      cases hr
    | ok t =>
      rw [hr'] at hstep'
      exact .inr ⟨s, t, rfl, rfl, hgh.step (hg.scope.trans hh.scope.symm) hstep hstep'⟩

/-! ## Every run -/

/-- The shadow stays one at all corresponding points. -/
theorem Shadows.after (hgh : Shadows g h) (hg : g.Reachable) (hh : h.Reachable)
    (hitems : ∀ i ∈ items, i.IsParsed) : Shadows (g.after items) (h.after (g.accepted items)) := by
  induction items generalizing g h with
  | nil => exact hgh
  | cons i items ih =>
    obtain ⟨hi, hitems⟩ := List.forall_mem_cons.1 hitems
    obtain ⟨e, hr, hnext⟩ | ⟨s, t, hr, -, hnext, -⟩ := hgh.item hg hh hi
    · simp only [accepted, hr]
      exact ih hnext (hg.item hi) hh hitems
    · simp only [accepted, hr]
      exact ih hnext (hg.item hi) (hh.item hi) hitems

/-- The functions that a run yields are those of its accepted items alone, with other numbers. The
numbers in use are kept while a failed item skips one: `ρ` sends the next number of `h` to that of `g`,
and so on. -/
theorem Shadows.yields (hgh : Shadows g h) (hg : g.Reachable) (hh : h.Reachable)
    (hitems : ∀ i ∈ items, i.IsParsed) {ρ : Nat → Nat} (hρ : StrictMono ρ)
    (hnext : ∀ j, ρ (h.evaluated + j) = g.evaluated + j) :
    ∃ ρ' : Nat → Nat, StrictMono ρ' ∧ (∀ j < h.evaluated, ρ' j = ρ j) ∧
      List.Forall₂ (fun f o => ∃ f', o = some f' ∧ f.symbol = f'.symbol.renumbered ρ' ∧ f.Matches f')
        ((g.yields items).filterMap id) (h.yields (g.accepted items)) := by
  induction items generalizing g h ρ with
  | nil => exact ⟨ρ, hρ, fun _ _ => rfl, .nil⟩
  | cons i items ih =>
    obtain ⟨hi, hitems⟩ := List.forall_mem_cons.1 hitems
    have hstep := step_item g hi.sourceItem
    have hevaluated := hstep.evaluated_eq
    obtain ⟨e, hr, hskip⟩ | ⟨s, t, hr, hr', hboth, hyields⟩ := hgh.item hg hh hi
    · -- the numbers from here on move up if the item has used one
      let moved (j : Nat) : Nat := if j < h.evaluated then ρ j else ρ j + (evaluated? i).toList.length
      have hmoved : StrictMono moved := by
        intro a b hab
        have hρab := hρ hab
        simp only [moved]
        split <;> split <;> omega
      have hnext' (j : Nat) : moved (h.evaluated + j) = (g.item i).generator.evaluated + j := by
        have hj : ¬ h.evaluated + j < h.evaluated := by omega
        simp only [moved, if_neg hj, hnext, hevaluated]
        omega
      obtain ⟨ρ', hρ', hbelow, hfunctions⟩ := ih hskip (hg.item hi) hh hitems hmoved hnext'
      refine ⟨ρ', hρ', fun j hj => (hbelow j hj).trans (if_pos hj), ?_⟩
      simpa only [accepted, Generator.yields, yield?, hr, List.filterMap_cons, id_eq] using hfunctions
    · have hstep' := step_item h hi.sourceItem
      have hevaluated' := hstep'.evaluated_eq
      have hnext' (j : Nat) :
          ρ ((h.item i).generator.evaluated + j) = (g.item i).generator.evaluated + j := by
        rw [hevaluated', hevaluated, Nat.add_assoc, hnext, Nat.add_assoc]
      obtain ⟨ρ', hρ', hbelow, hfunctions⟩ := ih hboth (hg.item hi) (hh.item hi) hitems hρ hnext'
      have hle : h.evaluated ≤ (h.item i).generator.evaluated := by omega
      refine ⟨ρ', hρ', fun j hj => hbelow j (by omega), ?_⟩
      rw [hr] at hstep
      obtain ⟨f, hf⟩ := Option.isSome_iff_exists.1 (hstep.find?_isSome hg.consistent)
      obtain ⟨f', hf', hmatches⟩ := hyields.matches hf
      simp only [accepted, Generator.yields, yield?, hr, hr', hf, hf', List.filterMap_cons, id_eq]
      refine .cons ⟨f', rfl, ?_, hmatches⟩ hfunctions
      rw [(IR.Module.mem_of_find? hf).2, (IR.Module.mem_of_find? hf').2]
      obtain ⟨name, rfl, rfl⟩ | ⟨rfl, rfl, hused⟩ := hyields.symbols
      · rfl
      · have hlast := hbelow h.evaluated (by omega)
        rw [Symbol.renumbered, hlast]
        exact congrArg Symbol.expression (hnext 0).symm

/-- If the items that fail are left out of a run, every other item succeeds and yields the same function,
but for the numbers of expressions. At all points of the run and of what is left of it there, an item
fails with an error exactly if it fails with that error at the other. -/
theorem accepted_run (hitems : ∀ i ∈ items, i.IsParsed) :
    (∃ ρ : Nat → Nat, StrictMono ρ ∧
      List.Forall₂ (fun f o => ∃ f', o = some f' ∧ f.symbol = f'.symbol.renumbered ρ ∧ f.Matches f')
        ((initial.yields items).filterMap id) (initial.yields (initial.accepted items))) ∧
    ∀ point, point <+: items → initial.accepted point <+: initial.accepted items ∧
      ∀ m, m.IsParsed → ∀ e, ((run point).item m).result = .error e ↔
        ((run (initial.accepted point)).item m).result = .error e := by
  constructor
  · obtain ⟨ρ, hρ, -, hfunctions⟩ :=
      (Shadows.refl initial).yields .initial .initial hitems strictMono_id fun _ => rfl
    exact ⟨ρ, hρ, hfunctions⟩
  · rintro point ⟨rest, rfl⟩
    constructor
    · rw [accepted_append]
      exact List.prefix_append _ _
    · intro m hm e
      have hpoint : ∀ i ∈ point, i.IsParsed := fun i hi => hitems i (List.mem_append_left rest hi)
      have haccepted : ∀ i ∈ initial.accepted point, i.IsParsed :=
        fun i hi => hpoint i ((accepted_sublist _ _).subset hi)
      have hshadows := (Shadows.refl initial).after .initial .initial hpoint
      exact hshadows.error_iff (Reachable.initial.after hpoint) (Reachable.initial.after haccepted) hm e

/-- Three of these six fail, and each leaves something behind; the third of them fails in the same way
where the other two have been left out. -/
theorem accepted_run_six :
    (∀ i ∈ [declaration, unboundPower, unbound, unboundRenaming, comparison, recursive], i.IsParsed) ∧
    initial.accepted [declaration, unboundPower, unbound, unboundRenaming, comparison, recursive] =
      [declaration, comparison, recursive] ∧
    (∃ ρ : Nat → Nat, StrictMono ρ ∧
      List.Forall₂ (fun f o => ∃ f', o = some f' ∧ f.symbol = f'.symbol.renumbered ρ ∧ f.Matches f')
        ((initial.yields
          [declaration, unboundPower, unbound, unboundRenaming, comparison, recursive]).filterMap id)
        (initial.yields [declaration, comparison, recursive])) ∧
    ((run [declaration, unboundPower, unbound]).item unboundRenaming).result =
      .error ⟨.undefinedName "c", ⟨1, 10, 9⟩⟩ ∧
    ((run [declaration]).item unboundRenaming).result = .error ⟨.undefinedName "c", ⟨1, 10, 9⟩⟩ := by
  have hitems : ∀ i ∈ [declaration, unboundPower, unbound, unboundRenaming, comparison, recursive],
      i.IsParsed := by
    simp only [List.mem_cons, List.not_mem_nil, or_false]
    rintro i (rfl | rfl | rfl | rfl | rfl | rfl)
    · exact isParsed_declaration
    · exact isParsed_unboundPower
    · exact isParsed_unbound
    · exact isParsed_unboundRenaming
    · exact isParsed_comparison
    · exact isParsed_recursive
  have haccepted : initial.accepted
      [declaration, unboundPower, unbound, unboundRenaming, comparison, recursive] =
        [declaration, comparison, recursive] := by with_unfolding_all rfl
  have hpoint : initial.accepted [declaration, unboundPower, unbound] = [declaration] := by
    with_unfolding_all rfl
  have hfails : ((run [declaration, unboundPower, unbound]).item unboundRenaming).result =
      .error ⟨.undefinedName "c", ⟨1, 10, 9⟩⟩ := by with_unfolding_all rfl
  obtain ⟨hfunctions, hpoints⟩ := accepted_run hitems
  rw [haccepted] at hfunctions
  have hsame := (hpoints [declaration, unboundPower, unbound] ⟨_, rfl⟩).2 unboundRenaming
    isParsed_unboundRenaming ⟨.undefinedName "c", ⟨1, 10, 9⟩⟩
  rw [hpoint] at hsame
  exact ⟨hitems, haccepted, hfunctions, hfails, hsame.1 hfails⟩

end Generator

end ScalarLang
