import ScalarLang.Proofs.Generation
/-!
# What an item does to a generator

`Step` lists the ways an item can go, each with the module and the registry that it leaves, and
`step_item` says that there are no others. The registry knows exactly the functions of the module that
have names (`Consistent`), and every step keeps it so.
-/
namespace ScalarLang

open IR

/-! ## Modules -/

namespace IR.Module

variable {m : IR.Module} {f h : Function} {s : IR.Symbol}

theorem mem_of_find? (hs : m.find? s = some f) : f ∈ m.functions ∧ f.symbol = s :=
  ⟨List.mem_of_find?_eq_some hs, by simpa using List.find?_some hs⟩

theorem symbol_ne_of_find? (hs : m.find? s = none) (hf : f ∈ m.functions) : f.symbol ≠ s := by
  simpa using List.find?_eq_none.1 hs f hf

theorem mem_put (hh : h ∈ (m.put f).functions) : h = f ∨ h ∈ m.functions := by
  unfold put at hh
  split at hh
  · obtain ⟨h₀, hmem, rfl⟩ := List.mem_map.1 hh
    by_cases hsym : h₀.symbol = f.symbol
    · exact .inl (if_pos hsym)
    · rw [if_neg hsym]
      exact .inr hmem
  · rcases List.mem_append.1 hh with hmem | hmem
    · exact .inr hmem
    · exact .inl (List.mem_singleton.1 hmem)

/-- A function with a new symbol is put at the end. -/
theorem functions_put_of_none (hnew : m.find? f.symbol = none) :
    (m.put f).functions = m.functions ++ [f] := by
  unfold put
  rw [if_neg (by simp [hnew])]

/-- A function with a symbol that is there takes the place of the one that has it. -/
theorem functions_put_of_some (hold : m.find? f.symbol = some h) :
    (m.put f).functions = m.functions.map fun g => if g.symbol = f.symbol then f else g := by
  unfold put
  rw [if_pos (by simp [hold])]

theorem symbols_put (m : IR.Module) (f : Function) :
    (m.put f).functions.map Function.symbol =
      m.functions.map Function.symbol ++ if (m.find? f.symbol).isSome then [] else [f.symbol] := by
  cases hfind : m.find? f.symbol with
  | none => simp [functions_put_of_none hfind]
  | some h =>
    rw [functions_put_of_some hfind, List.map_map]
    simp only [Option.isSome_some, ↓reduceIte, List.append_nil]
    refine List.map_congr_left fun g _ => ?_
    by_cases hsym : g.symbol = f.symbol <;> simp [hsym]

theorem nodup_symbols_put (hm : (m.functions.map Function.symbol).Nodup) (f : Function) :
    ((m.put f).functions.map Function.symbol).Nodup := by
  rw [symbols_put]
  cases hfind : m.find? f.symbol with
  | some h => simpa using hm
  | none =>
    simp only [Option.isSome_none, Bool.false_eq_true, ↓reduceIte, List.nodup_append]
    refine ⟨hm, by simp, ?_⟩
    rintro a ha b hb rfl
    obtain ⟨g, hg, rfl⟩ := List.mem_map.1 ha
    exact symbol_ne_of_find? hfind hg (List.mem_singleton.1 hb)

/-- In a module without two functions of one symbol, each function is found under its own. -/
theorem find?_of_mem (hm : (m.functions.map Function.symbol).Nodup) (hf : f ∈ m.functions) :
    m.find? f.symbol = some f := by
  unfold find?
  induction hfs : m.functions generalizing m with
  | nil => simp [hfs] at hf
  | cons g gs ih =>
    rw [hfs] at hm hf
    obtain ⟨hnot, hgs⟩ := List.nodup_cons.1 hm
    rcases List.mem_cons.1 hf with rfl | hmem
    · simp
    · have hne : g.symbol ≠ f.symbol := fun heq => hnot (heq ▸ List.mem_map_of_mem hmem)
      rw [List.find?_cons_of_neg (by simpa using hne)]
      exact ih (m := ⟨gs⟩) hgs hmem rfl

/-- Putting a function where it is already changes nothing. -/
theorem functions_put_self (hm : (m.functions.map Function.symbol).Nodup)
    (hf : m.find? f.symbol = some f) : (m.put f).functions = m.functions := by
  rw [functions_put_of_some hf]
  refine (List.map_congr_left fun g hg => ?_).trans (List.map_id _)
  by_cases hsym : g.symbol = f.symbol
  · have hfind := find?_of_mem hm hg
    rw [hsym, hf] at hfind
    cases hfind
    exact if_pos rfl
  · exact if_neg hsym

end IR.Module

/-! ## Registries -/

namespace Registry

theorem get?_insert (r : Registry) (name name' : String) (s : Signature) :
    (r.insert name s).get? name' = if name' = name then some s else r.get? name' := by
  by_cases hn : name' = name
  · simp [get?, insert, hn]
  · have hne : (name' == name) = false := by simpa using hn
    simp only [get?, insert, List.lookup_cons, hne, if_neg hn]
    induction r.entries with
    | nil => rfl
    | cons entry entries ih =>
      obtain ⟨key, s'⟩ := entry
      by_cases hkey : key = name
      · have hne' : (name' == key) = false := by simpa [hkey] using hn
        rw [List.filter_cons_of_neg (by simpa using hkey), List.lookup_cons, hne', ih]
      · rw [List.filter_cons_of_pos (by simpa using hkey)]
        simp only [List.lookup_cons, ih]

end Registry

/-! ## Names -/

/-- No word is read as an integer. -/
theorem int64?_of_isName {name : String} (h : isName name = true) : Numeral.int64? name = none := by
  have hinteger : Numeral.integer? name.toList = none := by
    unfold isName at h
    split at h
    · cases h
    · rename_i c cs hcs
      simp only [Bool.and_eq_true] at h
      have hstart := h.1.1
      have hsign : Numeral.splitSign (c :: cs) = (false, c :: cs) := by
        unfold Numeral.splitSign
        split
        · rename_i heq
          cases heq
          cases hstart
        · rename_i heq
          cases heq
          cases hstart
        · rfl
      have hdigit : Numeral.isDigit c = false := by
        simp only [Lexeme.isWordStart, Numeral.isDigit, Char.le_def, Bool.or_eq_true,
          Bool.and_eq_true, decide_eq_true_eq, Bool.and_eq_false_iff, decide_eq_false_iff_not,
          UInt32.le_iff_toNat_le] at hstart ⊢
        rcases hstart with (rfl | hlow) | hup
        · decide
        · right
          have := hlow.1
          simp at this ⊢
          omega
        · right
          have := hup.1
          simp at this ⊢
          omega
      simp [hcs, Numeral.integer?, hsign, Numeral.natural?, hdigit]
  simp [Numeral.int64?, hinteger]

namespace Generator

theorem isStruck_of_isName {name : String} (h : isName name = true) : isStruck name = true := by
  have hne : name ≠ "" := by
    rintro rfl
    cases h
  simp [isStruck, IR.Symbol.label, IR.Symbol.name, int64?_of_isName h, hne]

/-! ## Steps -/

variable {g g' : Generator} {i : Item} {p : Prototype} {body : Expr}

/-- A prototype that a body may be given to. -/
structure Admits (g : Generator) (p : Prototype) : Prop where
  fault : g.prototypeFault? p = none
  undefined : ∀ s, g.registry.get? p.name = some s → s.defined = false

theorem arity_of_prototypeFault? {s : Signature} (h : g.prototypeFault? p = none)
    (hs : g.registry.get? p.name = some s) : s.arity = p.params.length := by
  unfold prototypeFault? at h
  split at h
  · cases h
  · split at h
    · cases h
    · simp only [hs] at h
      split at h
      · assumption
      · cases h

theorem Admits.signature {s : Signature} (h : g.Admits p) (hs : g.registry.get? p.name = some s) :
    s = ⟨p.params.length, false⟩ := by
  have harity := arity_of_prototypeFault? h.fault hs
  have hdefined := h.undefined s hs
  cases s
  simp_all

theorem isInternal_of_prototypeFault? {fault : LoweringFault} (h : g.prototypeFault? p = some fault)
    (pos : Position) : (⟨fault, pos⟩ : LoweringError).isInternal = false := by
  unfold prototypeFault? at h
  split at h
  · cases h
    rfl
  · split at h
    · cases h
      rfl
    · split at h
      · split at h <;> cases h
        rfl
      · cases h

/-- The body of a definition, which may call the function that it defines. -/
def definitionBody (g : Generator) (p : Prototype) (body : Expr) : Lowered :=
  g.lowerBody (g.registry.insert p.name ⟨p.params.length, false⟩) p.params body true

/-- The body of a function that an expression is evaluated in. -/
def expressionBody (g : Generator) (body : Expr) : Lowered := g.lowerBody g.registry [] body false

/-- The expression that an item is there to evaluate. -/
def evaluated? : Item → Option Expr
  | .evaluate body _ => some body
  | _ => none

/-- The ways that an item can go. -/
inductive Step (g : Generator) : Item → Except LoweringError IR.Symbol → Generator → Prop
  | undeclared {p : Prototype} {pos : Position} {e : LoweringError} (he : e.isInternal = false) :
      Step g (.external p pos) (.error e) g
  /-- The definition is refused before its body is read. -/
  | refused {p : Prototype} {body : Expr} {pos : Position} {e : LoweringError} (hp : ¬ g.Admits p)
      (he : e.isInternal = false) : Step g (.define p body pos) (.error e) g
  | known {p : Prototype} {pos : Position} (hp : g.prototypeFault? p = none)
      (hknown : (g.registry.get? p.name).isSome = true) :
      Step g (.external p pos) (.ok (.named p.name)) g
  | declared {p : Prototype} {pos : Position} (hp : g.prototypeFault? p = none)
      (hnew : g.registry.get? p.name = none) :
      Step g (.external p pos) (.ok (.named p.name))
        { g with
          module := g.module.put (functionOf p none)
          registry := g.registry.insert p.name ⟨p.params.length, false⟩ }
  | defined {p : Prototype} {body : Expr} {pos : Position} {block : Block} (hp : g.Admits p)
      (hblock : (g.definitionBody p body).block = .ok block) :
      Step g (.define p body pos) (.ok (.named p.name))
        { g with
          module := withPower (g.module.put (functionOf p (some block)))
            (g.definitionBody p body).usesPower
          registry := g.registry.insert p.name ⟨p.params.length, true⟩ }
  /-- The body fails, and the function is declared as it is here. -/
  | undone {p : Prototype} {body : Expr} {pos : Position} {e : LoweringError} (hp : g.Admits p)
      (hknown : (g.registry.get? p.name).isSome = true)
      (hblock : (g.definitionBody p body).block = .error e) :
      Step g (.define p body pos) (.error e)
        { g with
          module := withPower (g.module.put (functionOf p none))
            (g.definitionBody p body).usesPower }
  /-- The body fails, and the function is not known. -/
  | dropped {p : Prototype} {body : Expr} {pos : Position} {e : LoweringError} (hp : g.Admits p)
      (hnew : g.registry.get? p.name = none)
      (hblock : (g.definitionBody p body).block = .error e) :
      Step g (.define p body pos) (.error e)
        { g with module := withPower g.module (g.definitionBody p body).usesPower }
  | evaluated {body : Expr} {pos : Position} {block : Block}
      (hblock : (g.expressionBody body).block = .ok block) :
      Step g (.evaluate body pos) (.ok (.expression g.evaluated))
        { g with
          module := withPower
            (g.module.put ⟨.expression g.evaluated, [], block.value.ty, some block⟩)
            (g.expressionBody body).usesPower
          evaluated := g.evaluated + 1 }
  /-- The expression fails and uses up a number. -/
  | unevaluated {body : Expr} {pos : Position} {e : LoweringError}
      (hblock : (g.expressionBody body).block = .error e) :
      Step g (.evaluate body pos) (.error e)
        { g with
          module := withPower g.module (g.expressionBody body).usesPower
          evaluated := g.evaluated + 1 }

theorem step_declare (g : Generator) (p : Prototype) (pos : Position) :
    Step g (.external p pos) (g.declare p).result (g.declare p).generator := by
  unfold declare
  split
  · rename_i fault hfault
    exact .undeclared (isInternal_of_prototypeFault? hfault p.pos)
  · rename_i hfault
    split
    · exact .known hfault ‹_›
    · rename_i hnew
      exact .declared hfault (by simpa using hnew)

theorem step_define (hp : p.isSource = true) (g : Generator) (body : Expr) (pos : Position) :
    Step g (.define p body pos) (g.define p body).result (g.define p body).generator := by
  have hstruck : isStruck p.name = true := by
    simp only [Prototype.isSource, Bool.and_eq_true] at hp
    exact isStruck_of_isName hp.1
  have hscope := scope_lowerBody g (g.registry.insert p.name ⟨p.params.length, false⟩) p.params
    body true
  unfold define
  dsimp only
  split
  · rename_i hdefined
    refine .refused (fun hp => ?_) rfl
    obtain ⟨s, hs, hdef⟩ := (Option.any_eq_true _ _).1 hdefined
    rw [hp.undefined s hs] at hdef
    cases hdef
  · rename_i hopen
    split
    · rename_i fault hfault
      refine .refused (fun hp => ?_) (isInternal_of_prototypeFault? hfault p.pos)
      rw [hp.fault] at hfault
      cases hfault
    · rename_i hfault
      have hadmits : g.Admits p := ⟨hfault, fun s hs => by simpa [hs] using hopen⟩
      rw [hscope]
      split
      · rename_i block hblock
        exact .defined hadmits hblock
      · rename_i e hblock
        cases hknown : g.registry.get? p.name with
        | none =>
          simp only [Option.isSome_none, Bool.false_eq_true, hstruck, Bool.or_true, ↓reduceIte]
          exact .dropped hadmits hknown hblock
        | some s =>
          simp only [Option.isSome_some, Bool.true_or, ↓reduceIte]
          exact .undone hadmits (by simp [hknown]) hblock

theorem step_evaluate (g : Generator) (body : Expr) (pos : Position) :
    Step g (.evaluate body pos) (g.evaluate body).result (g.evaluate body).generator := by
  have hscope := scope_lowerBody g g.registry [] body false
  unfold evaluate
  dsimp only
  rw [hscope]
  split
  · exact .evaluated ‹_›
  · exact .unevaluated ‹_›

/-- An item from a text goes in one of the ways. -/
theorem step_item (g : Generator) (hi : Reading.SourceItem i) :
    Step g i (g.item i).result (g.item i).generator := by
  cases i with
  | external p pos => exact step_declare g p pos
  | define p body pos =>
    simp only [item, Prototype.isAnonymous_of_isSource hi.1, Bool.false_eq_true, ↓reduceIte]
    exact step_define hi.1 g body pos
  | evaluate body pos => exact step_evaluate g body pos

/-- Every expression uses up a number, whether or not it fails. -/
theorem Step.evaluated_eq {r : Except LoweringError IR.Symbol} (h : Step g i r g') :
    g'.evaluated = g.evaluated + (evaluated? i).toList.length := by
  cases h <;> rfl

/-! ## What a generator keeps -/

theorem find?_power_withPower (m : IR.Module) :
    (withPower m true).find? .power = some .power := by
  simp [withPower, IR.Module.find?_put, Function.power]

/-- What a registry says of a function. -/
def signature (f : Function) : Signature := ⟨f.arity, f.body?.isSome⟩

/-- No two functions have one symbol, and the functions with names are those in the registry. -/
structure Consistent (g : Generator) : Prop where
  nodup : (g.module.functions.map Function.symbol).Nodup
  named : ∀ name, (g.module.find? (.named name)).map signature = g.registry.get? name
  returns : ∀ name f, g.module.find? (.named name) = some f → f.returns = .double
  numbered : ∀ n f, g.module.find? (.expression n) = some f → n < g.evaluated
  power : ∀ f, g.module.find? .power = some f → f = .power

theorem consistent_initial : initial.Consistent where
  nodup := by decide
  named := by
    intro name
    by_cases hprintd : name = "printd"
    · subst hprintd
      rfl
    · by_cases hputchard : name = "putchard"
      · subst hputchard
        rfl
      · have h₁ : (name == "printd") = false := by simpa using hprintd
        have h₂ : (name == "putchard") = false := by simpa using hputchard
        simp [initial, IR.Module.library, IR.Module.find?, Registry.get?, List.lookup_cons, h₁, h₂,
          Function.printNumber, Function.printCharacter, Ne.symm hprintd, Ne.symm hputchard]
  returns := by
    intro name f hf
    obtain ⟨hmem, -⟩ := IR.Module.mem_of_find? hf
    simp only [initial, IR.Module.library, List.mem_cons, List.not_mem_nil, or_false] at hmem
    rcases hmem with rfl | rfl <;> rfl
  numbered := by
    intro n f hf
    cases hf
  power := by
    intro f hf
    cases hf

namespace Consistent

/-- A function with a name is put into the module, and the registry is told of it. -/
theorem put_named {f : Function} {name : String} {r : Registry} (hg : g.Consistent)
    (hf : f.symbol = .named name) (hreturns : f.returns = .double)
    (hr : ∀ n, r.get? n = if n = name then some (signature f) else g.registry.get? n) :
    Consistent { g with module := g.module.put f, registry := r } where
  nodup := IR.Module.nodup_symbols_put hg.nodup f
  named := by
    intro n
    simp only [IR.Module.find?_put, hf, IR.Symbol.named.injEq, hr]
    by_cases hn : n = name
    · simp [hn]
    · simpa [hn, Ne.symm hn] using hg.named n
  returns := by
    intro n h hh
    simp only [IR.Module.find?_put] at hh
    split at hh
    · cases hh
      exact hreturns
    · exact hg.returns n h hh
  numbered := by
    intro n h hh
    simp only [IR.Module.find?_put, hf, reduceCtorEq, ↓reduceIte] at hh
    exact hg.numbered n h hh
  power := by
    intro h hh
    simp only [IR.Module.find?_put, hf, reduceCtorEq, ↓reduceIte] at hh
    exact hg.power h hh

/-- A declaration takes the place of another one, of which the registry says the same. -/
theorem put_declaration (hg : g.Consistent) (hp : g.Admits p)
    (hknown : (g.registry.get? p.name).isSome = true) :
    Consistent { g with module := g.module.put (functionOf p none) } := by
  refine hg.put_named (f := functionOf p none) (r := g.registry) rfl rfl fun n => ?_
  obtain ⟨s, hs⟩ := Option.isSome_iff_exists.1 hknown
  by_cases hn : n = p.name
  · rw [if_pos hn, hn, hs, hp.signature hs]
    rfl
  · rw [if_neg hn]

theorem put_expression {f : Function} (hg : g.Consistent)
    (hf : f.symbol = .expression g.evaluated) :
    Consistent { g with module := g.module.put f, evaluated := g.evaluated + 1 } where
  nodup := IR.Module.nodup_symbols_put hg.nodup f
  named := by
    intro n
    simp only [IR.Module.find?_put, hf, reduceCtorEq, ↓reduceIte]
    exact hg.named n
  returns := by
    intro n h hh
    simp only [IR.Module.find?_put, hf, reduceCtorEq, ↓reduceIte] at hh
    exact hg.returns n h hh
  numbered := by
    intro n h hh
    simp only [IR.Module.find?_put, hf, IR.Symbol.expression.injEq] at hh
    show n < g.evaluated + 1
    split at hh
    · omega
    · have := hg.numbered n h hh
      omega
  power := by
    intro h hh
    simp only [IR.Module.find?_put, hf, reduceCtorEq, ↓reduceIte] at hh
    exact hg.power h hh

theorem put_power (hg : g.Consistent) (usesPower : Bool) :
    Consistent { g with module := withPower g.module usesPower } := by
  cases usesPower with
  | false => exact hg
  | true =>
    have hnamed : ∀ s, s ≠ .power →
        (withPower g.module true).find? s = g.module.find? s :=
      fun s => find?_withPower g.module true
    refine ⟨IR.Module.nodup_symbols_put hg.nodup .power, ?_, ?_, ?_, ?_⟩
    · intro name
      rw [hnamed _ (by simp)]
      exact hg.named name
    · intro name f hf
      rw [hnamed _ (by simp)] at hf
      exact hg.returns name f hf
    · intro n f hf
      rw [hnamed _ (by simp)] at hf
      exact hg.numbered n f hf
    · intro f hf
      exact Option.some.inj (hf.symm.trans (find?_power_withPower g.module))

theorem skip_number (hg : g.Consistent) : Consistent { g with evaluated := g.evaluated + 1 } where
  nodup := hg.nodup
  named := hg.named
  returns := hg.returns
  numbered := fun n f hf => Nat.lt_succ_of_lt (hg.numbered n f hf)
  power := hg.power

end Consistent

theorem Step.consistent {r : Except LoweringError IR.Symbol} (h : Step g i r g')
    (hg : g.Consistent) : g'.Consistent := by
  cases h with
  | undeclared he => exact hg
  | refused hp he => exact hg
  | known hp hknown => exact hg
  | @declared p pos hp hnew =>
    exact hg.put_named (f := functionOf p none) rfl rfl fun n => Registry.get?_insert ..
  | @defined p body pos block hp hblock =>
    exact (hg.put_named (f := functionOf p (some block)) rfl rfl
      fun n => Registry.get?_insert ..).put_power _
  | undone hp hknown hblock => exact (hg.put_declaration hp hknown).put_power _
  | dropped hp hnew hblock => exact hg.put_power _
  | @evaluated body pos block hblock =>
    exact (hg.put_expression (f := ⟨.expression g.evaluated, [], block.value.ty, some block⟩)
      rfl).put_power _
  | unevaluated hblock => exact hg.skip_number.put_power _

theorem Reachable.consistent (h : g.Reachable) : g.Consistent := by
  induction h with
  | initial => exact consistent_initial
  | item _ hi ih => exact (step_item _ hi.sourceItem).consistent ih

end Generator

end ScalarLang
