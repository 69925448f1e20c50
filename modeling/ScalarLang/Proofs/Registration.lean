import Mathlib.Data.List.Nodup
import ScalarLang.Proofs.FinalFunctions
import ScalarLang.Proofs.Validity
/-!
# The books of a generator

Every function of a module is of the library, the power function, one that a program names, or one that
an expression was put into (`Written`), and the names of these four never meet. What an item adds stands
at the end of the module, under a symbol that no function has, unless the item defines a function that
was declared before (`Step.functions_eq`). `orderly_of_reachable`: after any items, whether or not they
failed, no two functions have one name, and the registry knows exactly the functions that programs can
call.
-/
namespace ScalarLang

open IR

/-- The names of all functions of a module. -/
def IR.Module.names (m : IR.Module) : List String :=
  printerName :: m.functions.map fun f => f.symbol.name

namespace Generator

variable {g g' : Generator} {i : Item} {r : Except LoweringError IR.Symbol} {f h : Function}

/-! ## Functions that are written -/

/-- The functions that a generator puts into its module. -/
inductive Written : Function → Prop
  | library {f : Function} (hf : f ∈ IR.Module.library.functions) : Written f
  | power : Written .power
  | named {p : Prototype} {known : Known} {body? : Option Block} (hp : p.isSource = true)
      (hvalid : p.IsValid known) (hlabel : ∀ b, body? = some b → b.label = some entry) :
      Written (functionOf p body?)
  | expression {n : Nat} {ty : Ty} {b : Block} (hlabel : b.label = some entry) :
      Written ⟨.expression n, [], ty, some b⟩

theorem isValid_of_prototypeFault? {p : Prototype} (hp : g.prototypeFault? p = none) :
    p.IsValid g.registry.get? := by
  have hhead := Prototype.head?_errors g p
  exact Prototype.errors_eq_nil_iff.1 (by simpa [hp] using hhead)

theorem mem_withPower {m : IR.Module} {usesPower : Bool}
    (hf : f ∈ (withPower m usesPower).functions) : f = .power ∨ f ∈ m.functions := by
  cases usesPower with
  | false => exact .inr hf
  | true => exact IR.Module.mem_put hf

theorem Step.written (hstep : Step g i r g') (hi : Reading.SourceItem i)
    (hg : ∀ f ∈ g.module.functions, Written f) : ∀ f ∈ g'.module.functions, Written f := by
  have hpower {m : IR.Module} {usesPower : Bool} (hm : ∀ f ∈ m.functions, Written f) :
      ∀ f ∈ (withPower m usesPower).functions, Written f := by
    intro f hf
    rcases mem_withPower hf with rfl | hf
    · exact .power
    · exact hm f hf
  have hput {f : Function} (hf : Written f) : ∀ h ∈ (g.module.put f).functions, Written h := by
    intro h hh
    rcases IR.Module.mem_put hh with rfl | hh
    · exact hf
    · exact hg h hh
  cases hstep with
  | undeclared _ => exact hg
  | refused _ _ => exact hg
  | known _ _ => exact hg
  | declared hp _ => exact hput (.named hi (isValid_of_prototypeFault? hp) nofun)
  | defined hp hblock =>
    refine hpower (hput (.named hi.1 (isValid_of_prototypeFault? hp.fault) ?_))
    rintro b ⟨⟩
    exact label_lowerBody hblock
  | undone hp _ _ => exact hpower (hput (.named hi.1 (isValid_of_prototypeFault? hp.fault) nofun))
  | dropped _ _ _ => exact hpower hg
  | evaluated hblock => exact hpower (hput (.expression (label_lowerBody hblock)))
  | unevaluated _ => exact hpower hg

theorem Reachable.written (hg : g.Reachable) : ∀ f ∈ g.module.functions, Written f := by
  induction hg with
  | initial => exact fun f hf => .library hf
  | item _ hi ih => exact (step_item _ hi.sourceItem).written hi.sourceItem ih

/-! ## Names of functions -/

theorem toString_inj {m n : Nat} : toString m = toString n ↔ m = n := by
  refine ⟨fun h => ?_, congrArg _⟩
  have hdigits : Nat.toDigits 10 m = Nat.toDigits 10 n := by
    rw [← String.ofList_inj, ← Nat.repr_eq_ofList_toDigits, ← Nat.repr_eq_ofList_toDigits]
    exact h
  rw [← Nat.ofDigitChars_ten_toDigits (n := m), hdigits, Nat.ofDigitChars_ten_toDigits]

theorem isReserved_eq_false_iff {name : String} : isReserved name = false ↔
    name ≠ IR.Module.printerName ∧ ¬ IR.expressionMark.isPrefixOf name = true := by
  simp [isReserved]

theorem isPrefixOf_name_expression (n : Nat) :
    IR.expressionMark.isPrefixOf (IR.Symbol.expression n).name = true := by
  simp [String.isPrefixOf, String.startsWith_string_iff, IR.Symbol.name]

theorem isReserved_name_power : isReserved IR.Symbol.power.name = false := by
  with_unfolding_all rfl

/-- A name that a program gives to a function is a word, and it is not reserved. -/
def IsProper (s : IR.Symbol) : Prop :=
  ∀ name, s = .named name → isName name = true ∧ isReserved name = false

theorem Written.isProper (hf : Written f) : IsProper f.symbol := by
  intro name hs
  cases hf with
  | library hf =>
    simp only [IR.Module.library, List.mem_cons, List.not_mem_nil, or_false] at hf
    rcases hf with rfl | rfl <;> cases hs <;> decide
  | power => cases hs
  | named hp hvalid _ =>
    cases hs
    simp only [Prototype.isSource, Bool.and_eq_true] at hp
    exact ⟨hp.1, isReserved_eq_false_iff.2 ⟨hvalid.notPrinter, hvalid.notExpression⟩⟩
  | expression _ => cases hs

/-- The reserved names are those of expressions, for no function of a module is called as the printer. -/
theorem IsProper.isReserved_iff {s : IR.Symbol} (hs : IsProper s) :
    isReserved s.name = true ↔ ∃ n, s = .expression n := by
  cases s with
  | named name => simp [IR.Symbol.name, (hs name rfl).2]
  | expression n => simp [isReserved, isPrefixOf_name_expression]
  | power => simp [isReserved_name_power]

theorem IsProper.isName_iff {s : IR.Symbol} (hs : IsProper s) (hfree : isReserved s.name = false) :
    isName s.name = true ↔ ∃ name, s = .named name := by
  cases s with
  | named name => simp [IR.Symbol.name, (hs name rfl).1]
  | expression n => simp [isReserved, isPrefixOf_name_expression] at hfree
  | power => simpa using (by decide : isName IR.Symbol.power.name = false)

/-- The name tells which function is meant. -/
theorem IsProper.eq_of_name {s t : IR.Symbol} (hs : IsProper s) (ht : IsProper t)
    (hname : s.name = t.name) : s = t := by
  have hpower {s : IR.Symbol} (hfree : ¬ ∃ n, s = .expression n) (hword : ¬ ∃ name, s = .named name) :
      s = .power := by
    cases s with
    | named name => exact absurd ⟨name, rfl⟩ hword
    | expression n => exact absurd ⟨n, rfl⟩ hfree
    | power => rfl
  by_cases hreserved : isReserved s.name = true
  · obtain ⟨n, rfl⟩ := hs.isReserved_iff.1 hreserved
    obtain ⟨k, rfl⟩ := ht.isReserved_iff.1 (hname ▸ hreserved)
    rw [toString_inj.1 ((String.append_right_inj _).1 hname)]
  · have hreserved' : ¬ isReserved t.name = true := hname ▸ hreserved
    have hs' := hs.isName_iff (by simpa using hreserved)
    have ht' := ht.isName_iff (by simpa using hreserved')
    by_cases hword : isName s.name = true
    · obtain ⟨name, rfl⟩ := hs'.1 hword
      obtain ⟨name', rfl⟩ := ht'.1 (hname ▸ hword)
      exact congrArg _ hname
    · have hword' : ¬ isName t.name = true := hname ▸ hword
      rw [hpower (hs.isReserved_iff.not.1 hreserved) (hs'.not.1 hword),
        hpower (ht.isReserved_iff.not.1 hreserved') (ht'.not.1 hword')]

theorem Reachable.nodup_names (hg : g.Reachable) : g.module.names.Nodup := by
  have hproper : ∀ s ∈ g.module.functions.map Function.symbol, IsProper s := by
    intro s hs
    obtain ⟨f, hf, rfl⟩ := List.mem_map.1 hs
    exact (hg.written f hf).isProper
  have hnames : g.module.functions.map (fun f => f.symbol.name) =
      (g.module.functions.map Function.symbol).map IR.Symbol.name := by simp
  rw [IR.Module.names, hnames, List.nodup_cons]
  constructor
  · intro hprinter
    obtain ⟨s, hs, hname⟩ := List.mem_map.1 hprinter
    have hreserved : isReserved s.name = true := by simp [isReserved, hname]
    obtain ⟨n, rfl⟩ := (hproper s hs).isReserved_iff.1 hreserved
    have hmark := isPrefixOf_name_expression n
    rw [hname] at hmark
    exact absurd hmark (by with_unfolding_all decide)
  · refine List.Nodup.map_on (fun s hs t ht hname => ?_) hg.consistent.nodup
    exact (hproper s hs).eq_of_name (hproper t ht) hname

/-! ## Places of functions -/

theorem Consistent.functions_put_named {p : Prototype} {body? : Option Block} (hg : g.Consistent)
    (hnew : g.registry.get? p.name = none) :
    (g.module.put (functionOf p body?)).functions = g.module.functions ++ [functionOf p body?] := by
  apply IR.Module.functions_put_of_none
  have hnamed := hg.named p.name
  rwa [hnew, Option.map_eq_none_iff] at hnamed

/-- The function of the next expression stands at the end, and the power function after it if that is
new. -/
theorem Consistent.functions_put_expression (hg : g.Consistent)
    (hf : f.symbol = .expression g.evaluated) (usesPower : Bool) :
    ∃ power, (power = [] ∨ power = [Function.power]) ∧
      (withPower (g.module.put f) usesPower).functions = g.module.functions ++ f :: power := by
  have hnew : g.module.find? f.symbol = none := by
    rw [hf]
    refine List.find?_eq_none.2 fun h hh => ?_
    simpa using hg.symbol_ne_expression hh
  obtain ⟨power, hpower, happ⟩ := (hg.put_expression hf).functions_withPower usesPower
  refine ⟨power, hpower, ?_⟩
  rw [happ, IR.Module.functions_put_of_none hnew, List.append_assoc]
  rfl

/-- What a step adds stands at the end of the module, its own function before the power function, and no
function there has the symbol of its own one. Only the definition of a function that is declared already
goes to a place that is taken, which is the place of the declaration. -/
theorem Step.functions_eq (hstep : Step g i r g') (hg : g.Consistent) :
    ∃ power, (power = [] ∨ power = [Function.power]) ∧
      ((∃ own : Option Function, g'.module.functions = g.module.functions ++ own.toList ++ power ∧
          ∀ f ∈ own, r = .ok f.symbol ∧ ∀ h ∈ g.module.functions, h.symbol ≠ f.symbol) ∨
        ∃ p body pos body?, i = .define p body pos ∧
          g.registry.get? p.name = some ⟨p.params.length, false⟩ ∧
          g'.module.functions = (g.module.functions.map fun h =>
            if h.symbol = .named p.name then functionOf p body? else h) ++ power) := by
  have hnamed {name : String} (hnew : g.registry.get? name = none) :
      ∀ h ∈ g.module.functions, h.symbol ≠ .named name := by
    intro h hh hsymbol
    rw [hg.get?_of_mem hh hsymbol] at hnew
    cases hnew
  have hplace {p : Prototype} {body? : Option Block} (hknown : (g.registry.get? p.name).isSome = true) :
      (g.module.put (functionOf p body?)).functions = g.module.functions.map fun h =>
        if h.symbol = .named p.name then functionOf p body? else h := by
    rw [← hg.named p.name, Option.isSome_map] at hknown
    obtain ⟨h, hh⟩ := Option.isSome_iff_exists.1 hknown
    exact IR.Module.functions_put_of_some hh
  cases hstep with
  | undeclared _ | refused _ _ | known _ _ => exact ⟨[], .inl rfl, .inl ⟨none, by simp, nofun⟩⟩
  | @declared p pos hp hnew =>
    refine ⟨[], .inl rfl, .inl ⟨some (functionOf p none), ?_, ?_⟩⟩
    · simpa using hg.functions_put_named hnew
    · rintro f ⟨⟩
      exact ⟨rfl, hnamed hnew⟩
  | @defined p body pos block hp hblock =>
    have hput := hg.put_named (f := functionOf p (some block)) rfl rfl
      (fun n => Registry.get?_insert g.registry p.name n ⟨p.params.length, true⟩)
    obtain ⟨power, hpower, happ⟩ := hput.functions_withPower (g.definitionBody p body).usesPower
    refine ⟨power, hpower, ?_⟩
    cases hknown : g.registry.get? p.name with
    | none =>
      refine .inl ⟨some (functionOf p (some block)), ?_, ?_⟩
      · rw [happ, hg.functions_put_named hknown]
        rfl
      · rintro f ⟨⟩
        exact ⟨rfl, hnamed hknown⟩
    | some s =>
      refine .inr ⟨p, body, pos, some block, rfl, ?_, ?_⟩
      · rw [hknown, hp.signature hknown]
      · rw [happ, hplace (by simp [hknown])]
  | @undone p body pos e hp hknown hblock =>
    obtain ⟨power, hpower, happ⟩ :=
      (hg.put_declaration hp hknown).functions_withPower (g.definitionBody p body).usesPower
    obtain ⟨s, hs⟩ := Option.isSome_iff_exists.1 hknown
    refine ⟨power, hpower, .inr ⟨p, body, pos, none, rfl, ?_, ?_⟩⟩
    · rw [hs, hp.signature hs]
    · rw [happ, hplace hknown]
  | @dropped p body pos e hp hnew hblock =>
    obtain ⟨power, hpower, happ⟩ := hg.functions_withPower (g.definitionBody p body).usesPower
    exact ⟨power, hpower, .inl ⟨none, by simpa using happ, nofun⟩⟩
  | @evaluated body pos block hblock =>
    obtain ⟨power, hpower, happ⟩ := hg.functions_put_expression
      (f := ⟨.expression g.evaluated, [], block.value.ty, some block⟩) rfl (g.expressionBody body).usesPower
    refine ⟨power, hpower, .inl ⟨some ⟨.expression g.evaluated, [], block.value.ty, some block⟩, ?_, ?_⟩⟩
    · simpa using happ
    · rintro f ⟨⟩
      exact ⟨rfl, fun h hh => hg.symbol_ne_expression hh⟩
  | @unevaluated body pos e hblock =>
    obtain ⟨power, hpower, happ⟩ := hg.functions_withPower (g.expressionBody body).usesPower
    exact ⟨power, hpower, .inl ⟨none, by simpa using happ, nofun⟩⟩

/-- A declaration of a name that is not known adds its function at the end. -/
theorem Reachable.functions_declare (hg : g.Reachable) {p : Prototype} (hp : g.prototypeFault? p = none)
    (hnew : g.registry.get? p.name = none) :
    (g.declare p).generator.module.functions = g.module.functions ++ [functionOf p none] := by
  unfold declare
  rw [hp]
  simp only [hnew, Option.isSome_none, Bool.false_eq_true, ↓reduceIte]
  exact hg.consistent.functions_put_named hnew

/-- An expression adds its function at the end, and the power function after it if that is new. -/
theorem Reachable.functions_evaluate (hg : g.Reachable) {body : Expr} {block : Block}
    (hblock : (g.expressionBody body).block = .ok block) :
    ∃ power, (power = [] ∨ power = [Function.power]) ∧
      (g.evaluate body).generator.module.functions =
        g.module.functions ++ ⟨.expression g.evaluated, [], block.value.ty, some block⟩ :: power := by
  unfold evaluate
  unfold expressionBody at hblock
  simp only [hblock]
  exact hg.consistent.functions_put_expression rfl _

/-! ## The books -/

/-- The scope, the module, the registry and the counter of a generator agree. There is no open block to
speak of: a block is written in a draft, and no draft outlives its item. -/
structure Orderly (g : Generator) : Prop where
  /-- The outermost frame is the only one, and it is empty. -/
  scope : g.scope = .empty
  names : g.module.names.Nodup
  /-- The functions that are registered are those of the module that programs can name. -/
  registered : ∀ name f, g.function? name = some f ↔
    f ∈ g.module.functions ∧ f.symbol.name = name ∧ name ≠ IR.Module.printerName ∧
      name ≠ IR.Symbol.power.name ∧ ¬ IR.expressionMark.isPrefixOf name = true
  /-- The registry tells the number of their parameters, and whether they have a body. -/
  signatures : ∀ name, g.registry.get? name = (g.function? name).map signature
  power : g.module.names.count IR.Symbol.power.name ≤ 1 ∧
    ∀ f ∈ g.module.functions, f.symbol.name = IR.Symbol.power.name → f.body? = none
  numbered : ∀ f ∈ g.module.functions, IR.expressionMark.isPrefixOf f.symbol.name = true →
    ∃ n < g.evaluated, f.symbol.name = IR.expressionMark ++ toString n

theorem Reachable.function?_eq_some_iff (hg : g.Reachable) (name : String) (f : Function) :
    g.function? name = some f ↔
      f ∈ g.module.functions ∧ f.symbol.name = name ∧ name ≠ IR.Module.printerName ∧
        name ≠ IR.Symbol.power.name ∧ ¬ IR.expressionMark.isPrefixOf name = true := by
  have hknown := hg.consistent.named name
  constructor
  · intro hf
    unfold function? at hf
    split at hf
    · obtain ⟨hmem, hsymbol⟩ := IR.Module.mem_of_find? hf
      obtain ⟨hword, hfree⟩ := (hg.written f hmem).isProper name hsymbol
      obtain ⟨hprinter, hexpression⟩ := isReserved_eq_false_iff.1 hfree
      refine ⟨hmem, by rw [hsymbol]; rfl, hprinter, ?_, hexpression⟩
      rintro rfl
      exact absurd hword (by decide)
    · cases hf
  · rintro ⟨hmem, hname, -, hpower, hexpression⟩
    have hsymbol : f.symbol = .named name := by
      cases hs : f.symbol with
      | named name' =>
        rw [hs] at hname
        exact congrArg _ hname
      | expression n =>
        rw [hs] at hname
        exact absurd (hname ▸ isPrefixOf_name_expression n) hexpression
      | power =>
        rw [hs] at hname
        exact absurd hname.symm hpower
    have hfind := IR.Module.find?_of_mem hg.consistent.nodup hmem
    rw [hsymbol] at hfind
    rw [function?, ← hknown, hfind]
    rfl

theorem orderly_of_reachable (hg : g.Reachable) : g.Orderly where
  scope := hg.scope
  names := hg.nodup_names
  registered := hg.function?_eq_some_iff
  signatures := fun name => congrFun hg.consistent.known_eq.symm name
  power := by
    refine ⟨List.nodup_iff_count_le_one.1 hg.nodup_names _, fun f hf hname => ?_⟩
    have hsymbol := (hg.written f hf).isProper.eq_of_name (t := .power) nofun hname
    have hfind := IR.Module.find?_of_mem hg.consistent.nodup hf
    rw [hsymbol] at hfind
    rw [hg.consistent.power f hfind]
    rfl
  numbered := by
    intro f hf hmark
    have hreserved : isReserved f.symbol.name = true := by simp [isReserved, hmark]
    obtain ⟨n, hn⟩ := (hg.written f hf).isProper.isReserved_iff.1 hreserved
    have hfind := IR.Module.find?_of_mem hg.consistent.nodup hf
    rw [hn] at hfind
    exact ⟨n, hg.consistent.numbered n f hfind, by rw [hn]; rfl⟩

/-- A declaration, a definition that fails after it has called the power function, an expression that
fails, and one that does not. -/
theorem orderly_of_reachable_comparison :
    (∀ i ∈ [declaration, unboundPower, unbound, comparison], i.IsParsed) ∧
    (run [declaration, unboundPower, unbound, comparison]).module.names =
      ["printf", "printd", "putchard", "f", "llvm.pow.f64", "__anon_expr1"] ∧
    (run [declaration, unboundPower, unbound, comparison]).evaluated = 2 ∧
    (run [declaration, unboundPower, unbound, comparison]).Orderly := by
  have hparsed : ∀ i ∈ [declaration, unboundPower, unbound, comparison], i.IsParsed := by
    simp only [List.mem_cons, List.not_mem_nil, or_false]
    rintro i (rfl | rfl | rfl | rfl)
    · exact isParsed_declaration
    · exact isParsed_unboundPower
    · exact isParsed_unbound
    · exact isParsed_comparison
  exact ⟨hparsed, by with_unfolding_all rfl, by with_unfolding_all rfl,
    orderly_of_reachable (reachable_run hparsed)⟩

end Generator

end ScalarLang
