import ScalarLang.Proofs.Steps
/-!
# What an item that fails leaves behind

`failed_item`: the registry is as it was, and so are the functions of the module, up to a power function
at the end; but where a function was declared, and a definition of it fails in its body, the declaration
has the names of the definition for its parameters from then on.
-/
namespace ScalarLang

open IR

namespace Generator

variable {g g' : Generator} {i : Item} {e : LoweringError}

/-- A function as the definition `i` leaves it if the body fails. -/
def renamed (g : Generator) (i : Item) (f : Function) : Function :=
  match i with
  | .define p _ _ =>
    if f.symbol = .named p.name ∧ f.body? = none ∧ g.prototypeFault? p = none then
      { f with params := p.params }
    else f
  | _ => f

/-- The item is a definition of a function that is declared with other names for its parameters. -/
def Renames (g : Generator) (i : Item) : Prop :=
  ∃ p body pos, i = .define p body pos ∧ g.prototypeFault? p = none ∧
    ∃ f ∈ g.module.functions, f.symbol = .named p.name ∧ f.body? = none ∧ f.params ≠ p.params

theorem renamed_eq_self_iff : (∀ f ∈ g.module.functions, g.renamed i f = f) ↔ ¬ g.Renames i := by
  constructor
  · rintro h ⟨p, body, pos, rfl, hfault, f, hf, hsymbol, hbody, hparams⟩
    have hself := h f hf
    simp only [renamed, hsymbol, hbody, hfault, and_self, ↓reduceIte] at hself
    exact hparams (congrArg Function.params hself).symm
  · intro h f hf
    unfold renamed
    split
    · rename_i p body pos
      split
      · rename_i hcond
        by_contra hne
        refine h ⟨p, body, pos, rfl, hcond.2.2, f, hf, hcond.1, hcond.2.1, fun hparams => hne ?_⟩
        rw [← hparams]
      · rfl
    · rfl

/-- A definition that is not admitted renames nothing: its function has a body already, or its
prototype is at fault. -/
theorem not_renames_of_not_admits {p : Prototype} {body : Expr} {pos : Position} (hg : g.Consistent)
    (hp : ¬ g.Admits p) : ¬ g.Renames (.define p body pos) := by
  rintro ⟨_, _, _, ⟨⟩, hfault, f, hf, hsymbol, hbody, -⟩
  refine hp ⟨hfault, fun s hs => ?_⟩
  have hfind := IR.Module.find?_of_mem hg.nodup hf
  rw [← hg.named p.name, ← hsymbol, hfind] at hs
  cases hs
  simp [signature, hbody]

theorem not_renames_of_new {p : Prototype} {body : Expr} {pos : Position} (hg : g.Consistent)
    (hnew : g.registry.get? p.name = none) : ¬ g.Renames (.define p body pos) := by
  rintro ⟨_, _, _, ⟨⟩, -, f, hf, hsymbol, -⟩
  rw [← hg.named p.name, ← hsymbol, IR.Module.find?_of_mem hg.nodup hf] at hnew
  cases hnew

/-- The power function stands at the end if it is new. -/
theorem Consistent.functions_withPower (hg : g.Consistent) (usesPower : Bool) :
    ∃ extra, (extra = [] ∨ extra = [Function.power]) ∧
      (withPower g.module usesPower).functions = g.module.functions ++ extra := by
  cases usesPower with
  | false => exact ⟨[], .inl rfl, by simp [withPower]⟩
  | true =>
    cases hfind : g.module.find? .power with
    | none =>
      exact ⟨[.power], .inr rfl, IR.Module.functions_put_of_none (f := .power) hfind⟩
    | some f =>
      refine ⟨[], .inl rfl, ?_⟩
      rw [hg.power f hfind] at hfind
      rw [List.append_nil]
      exact IR.Module.functions_put_self (f := .power) hg.nodup hfind

/-- A declaration that is put in the place of another gives new names to the parameters. -/
theorem Consistent.functions_put_declaration {p : Prototype} {body : Expr} {pos : Position}
    (hg : g.Consistent) (hp : g.Admits p) (hknown : (g.registry.get? p.name).isSome = true) :
    (g.module.put (functionOf p none)).functions =
      g.module.functions.map (g.renamed (.define p body pos)) := by
  obtain ⟨s, hs⟩ := Option.isSome_iff_exists.1 hknown
  have hsig := hp.signature hs
  have hfunction := hg.named p.name
  rw [hs] at hfunction
  obtain ⟨f₀, hf₀, hsig₀⟩ := Option.map_eq_some_iff.1 hfunction
  have hbody : f₀.body? = none := by
    have hdefined := congrArg Signature.defined (hsig₀.trans hsig)
    simpa [signature] using hdefined
  rw [IR.Module.functions_put_of_some (f := functionOf p none) hf₀]
  refine List.map_congr_left fun f hf => ?_
  by_cases hsymbol : f.symbol = .named p.name
  · have hfind := IR.Module.find?_of_mem hg.nodup hf
    rw [hsymbol, hf₀] at hfind
    cases hfind
    have hreturns := hg.returns p.name f₀ hf₀
    refine (if_pos hsymbol).trans ?_
    simp only [renamed, hsymbol, hbody, hp.fault, and_self, ↓reduceIte]
    simp [functionOf, hreturns, ← hsymbol]
  · refine (if_neg hsymbol).trans ?_
    simp [renamed, hsymbol]

/-- A step that fails renames what its item renames, and adds a power function at most. -/
theorem Step.functions (h : Step g i (.error e) g') (hg : g.Consistent) :
    ∃ extra, (extra = [] ∨ extra = [Function.power]) ∧
      g'.module.functions = g.module.functions.map (g.renamed i) ++ extra := by
  have hself (hi : ¬ g.Renames i) : g.module.functions.map (g.renamed i) = g.module.functions :=
    (List.map_congr_left (renamed_eq_self_iff.2 hi)).trans (List.map_id _)
  cases h with
  | undeclared _ => exact ⟨[], .inl rfl, by rw [hself (by rintro ⟨_, _, _, ⟨⟩, _⟩), List.append_nil]⟩
  | refused hp _ =>
    exact ⟨[], .inl rfl, by rw [hself (not_renames_of_not_admits hg hp), List.append_nil]⟩
  | dropped _ hnew _ =>
    rw [hself (not_renames_of_new hg hnew)]
    exact hg.functions_withPower _
  | unevaluated _ =>
    rw [hself (by rintro ⟨_, _, _, ⟨⟩, _⟩)]
    exact hg.functions_withPower _
  | undone hp hknown _ =>
    rw [← hg.functions_put_declaration hp hknown]
    exact (hg.put_declaration hp hknown).functions_withPower _

theorem Step.registry (h : Step g i (.error e) g') :
    g'.registry = g.registry ∧ g'.scope = g.scope := by
  cases h <;> exact ⟨rfl, rfl⟩

/-- After an item that fails all is as it was, but for the number of an expression and for a power
function at the end, exactly if the item is not a definition of a function that is declared with other
names for its parameters; these names are all that changes then. -/
theorem failed_item (hg : g.Reachable) (hi : i.IsParsed) (h : (g.item i).result = .error e) :
    (g.item i).generator.registry = g.registry ∧ (g.item i).generator.scope = g.scope ∧
    (g.item i).generator.evaluated = g.evaluated + (evaluated? i).toList.length ∧
    ∃ extra, (extra = [] ∨ extra = [Function.power]) ∧
      (g.item i).generator.module.functions = g.module.functions.map (g.renamed i) ++ extra ∧
      ((g.item i).generator.module.functions = g.module.functions ++ extra ↔ ¬ g.Renames i) := by
  have hstep := step_item g hi.sourceItem
  rw [h] at hstep
  obtain ⟨hregistry, hscope⟩ := hstep.registry
  obtain ⟨extra, hextra, hfunctions⟩ := hstep.functions hg.consistent
  refine ⟨hregistry, hscope, hstep.evaluated_eq, extra, hextra, hfunctions, ?_⟩
  rw [hfunctions, List.append_left_inj, ← renamed_eq_self_iff]
  nth_rewrite 2 [← List.map_id g.module.functions]
  exact List.map_inj_left

/-- The text `extern f(a)`. -/
def declaration : Item := .external ⟨"f", ["a"], ⟨1, 8, 7⟩⟩ ⟨1, 1, 0⟩

/-- The text `def f(a) a ^ a + c` calls the power function before it fails. -/
def unboundPower : Item :=
  .define ⟨"f", ["a"], ⟨1, 5, 4⟩⟩
    (.binary .add (.binary .pow (.name "a" ⟨1, 10, 9⟩) (.name "a" ⟨1, 14, 13⟩) ⟨1, 12, 11⟩)
      (.name "c" ⟨1, 18, 17⟩) ⟨1, 16, 15⟩)
    ⟨1, 1, 0⟩

/-- The text `def f(b) c` has another name for the parameter. -/
def unboundRenaming : Item :=
  .define ⟨"f", ["b"], ⟨1, 5, 4⟩⟩ (.name "c" ⟨1, 10, 9⟩) ⟨1, 1, 0⟩

theorem isParsed_declaration : declaration.IsParsed :=
  ⟨"extern f(a)".toUTF8.toList, none, _, .start, by with_unfolding_all rfl⟩

theorem isParsed_unboundPower : unboundPower.IsParsed :=
  ⟨"def f(a) a ^ a + c".toUTF8.toList, none, _, .start, by with_unfolding_all rfl⟩

theorem isParsed_unboundRenaming : unboundRenaming.IsParsed :=
  ⟨"def f(b) c".toUTF8.toList, none, _, .start, by with_unfolding_all rfl⟩

theorem failed_item_unboundPower :
    (initial.item declaration).generator.Reachable ∧ unboundPower.IsParsed ∧
    ((initial.item declaration).generator.item unboundPower).result =
      .error ⟨.undefinedName "c", ⟨1, 18, 17⟩⟩ ∧
    ∃ extra, (extra = [] ∨ extra = [Function.power]) ∧
      (((initial.item declaration).generator.item unboundPower).generator.module.functions =
          (initial.item declaration).generator.module.functions ++ extra ↔
        ¬ (initial.item declaration).generator.Renames unboundPower) := by
  have hg : (initial.item declaration).generator.Reachable := .item .initial isParsed_declaration
  have hfails : ((initial.item declaration).generator.item unboundPower).result =
      .error ⟨.undefinedName "c", ⟨1, 18, 17⟩⟩ := by with_unfolding_all rfl
  obtain ⟨-, -, -, extra, hextra, -, hiff⟩ := failed_item hg isParsed_unboundPower hfails
  exact ⟨hg, isParsed_unboundPower, hfails, extra, hextra, hiff⟩

/-- A declaration does not survive a definition that fails: its parameter is called `a` before and `b`
after. -/
theorem unboundRenaming_leaves_trace :
    (initial.item declaration).generator.Reachable ∧ unboundRenaming.IsParsed ∧
    ((initial.item declaration).generator.item unboundRenaming).result =
      .error ⟨.undefinedName "c", ⟨1, 10, 9⟩⟩ ∧
    (initial.item declaration).generator.module.functions =
      [.printNumber, .printCharacter, ⟨.named "f", ["a"], .double, none⟩] ∧
    ((initial.item declaration).generator.item unboundRenaming).generator.module.functions =
      [.printNumber, .printCharacter, ⟨.named "f", ["b"], .double, none⟩] :=
  ⟨.item .initial isParsed_declaration, isParsed_unboundRenaming, by with_unfolding_all rfl,
    by with_unfolding_all rfl, by with_unfolding_all rfl⟩

end Generator

end ScalarLang
