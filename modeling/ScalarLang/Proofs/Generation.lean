import ScalarLang.Lowering.Generator
import ScalarLang.Proofs.Parsed
import ScalarLang.Proofs.Simulation
/-!
# Generated functions do what their items mean

`run_item`: whatever items a generator has had from source texts before, the block of the next one
returns what its body evaluates to, halts where that halts, and makes the same calls in the same order.
-/
namespace ScalarLang

open IR

/-! ## Modules -/

namespace IR.Module

/-- Putting a function changes what is found under its own symbol and nothing else. -/
theorem find?_put (m : IR.Module) (f : Function) (s : IR.Symbol) :
    (m.put f).find? s = if f.symbol = s then some f else m.find? s := by
  unfold put
  split
  · rename_i hsome
    have hsame : ((fun g : Function => decide (g.symbol = s)) ∘
        fun g => if g.symbol = f.symbol then f else g) = fun g => decide (g.symbol = s) := by
      funext g
      by_cases hg : g.symbol = f.symbol <;> simp [hg]
    simp only [find?, List.find?_map, hsame]
    cases hfind : m.functions.find? (fun g => decide (g.symbol = s)) with
    | none =>
      have hne : f.symbol ≠ s := by
        rintro rfl
        simp [find?, hfind] at hsome
      simp [hne]
    | some g =>
      have hg : g.symbol = s := by simpa using List.find?_some hfind
      by_cases hs : f.symbol = s
      · simp [hs, hg]
      · simp [hs, hg, Ne.symm hs]
  · rename_i hnone
    by_cases hs : f.symbol = s
    · have hnot : m.find? s = none := by simpa [hs] using hnone
      simp only [find?] at hnot
      simp [find?, List.find?_append, hnot, hs]
    · simp [find?, List.find?_append, hs]

end IR.Module

/-! ## Parameters -/

namespace Generator

/-- Names are found different from each other if none stands for the second time. -/
theorem nodup_of_firstRepeated? {names seen : List String} (h : firstRepeated? seen names = none) :
    names.Nodup ∧ ∀ name ∈ names, name ∉ seen := by
  induction names generalizing seen with
  | nil => simp
  | cons name names ih =>
    simp only [firstRepeated?] at h
    split at h
    · cases h
    · obtain ⟨hnodup, hseen⟩ := ih h
      simp only [List.mem_cons, not_or] at hseen
      refine ⟨List.nodup_cons.2 ⟨fun hmem => (hseen name hmem).1 rfl, hnodup⟩, ?_⟩
      intro n hn
      rcases List.mem_cons.1 hn with rfl | hn
      · assumption
      · exact (hseen n hn).2

end Generator

namespace Lowering

theorem get?_foldl_set {α : Type} {names : List (String × α)} {s : Scope α} {id : String} {v : α}
    (h : (names.foldl (fun s (id, v) => s.set id v) s).get? id = some v) :
    (∃ i : Nat, names[i]? = some (id, v)) ∨ s.get? id = some v := by
  induction names generalizing s with
  | nil => exact .inr h
  | cons n names ih =>
    rcases ih h with ⟨i, hi⟩ | hs
    · exact .inl ⟨i + 1, hi⟩
    · rw [Scope.get?_set] at hs
      by_cases hid : id = n.1
      · rw [if_pos hid] at hs
        cases hs
        exact .inl ⟨0, by simp [hid]⟩
      · rw [if_neg hid] at hs
        exact .inr hs

theorem lookup_zip {β : Type} {names : List String} {values : List β} (hn : names.Nodup) {i : Nat}
    {name : String} {v : β} (hname : names[i]? = some name) (hv : values[i]? = some v) :
    (names.zip values).lookup name = some v := by
  induction names generalizing values i with
  | nil => simp at hname
  | cons n names ih =>
    cases values with
    | nil => simp at hv
    | cons w values =>
      obtain ⟨hnot, hn⟩ := List.nodup_cons.1 hn
      cases i with
      | zero =>
        simp only [List.getElem?_cons_zero, Option.some.injEq] at hname hv
        simp [hname, hv]
      | succ i =>
        simp only [List.getElem?_cons_succ] at hname hv
        have hne : (name == n) = false := by
          simp only [beq_eq_false_iff_ne, ne_eq]
          rintro rfl
          exact hnot (List.mem_of_getElem? hname)
        simpa [List.lookup_cons, hne] using ih hn hname hv

/-- Parameters in scope stand for the arguments. -/
theorem agrees_params {params : List String} {args : List Binary64} (hn : params.Nodup)
    (hlen : args.length = params.length) :
    Agrees args [] ((params.mapIdx fun i name => (name, Operand.param i)).foldl
      (fun s (id, v) => s.set id v) (Scope.empty.push)) (params.zip (args.map .float)) := by
  intro id o ho
  rcases get?_foldl_set ho with ⟨i, hi⟩ | hs
  · rw [List.getElem?_mapIdx] at hi
    obtain ⟨name, hname, hpair⟩ := Option.map_eq_some_iff.1 hi
    cases hpair
    have hlt := (List.getElem?_eq_some_iff.1 hname).1
    have hx : args[i]? = some args[i] := List.getElem?_eq_getElem (by omega)
    refine ⟨.float args[i], lookup_zip hn hname (by simp [hx]), ?_, by rintro x ⟨⟩⟩
    simp [Operand.word?, hx, Word.ofValue]
  · exact absurd hs (by simp [Scope.get?, Scope.push, Scope.empty, List.findSome?_cons])

end Lowering

/-! ## Bodies -/

namespace Generator

theorem extends_bodyValue (registry : Registry) (params : List String) (body : Expr)
    (promoted : Bool) : Lowering.Extends (bodyValue registry params body promoted) := by
  refine Lowering.extends_within ((Lowering.extends_expression _ body).bind fun v => ?_)
  split
  · exact Lowering.extends_promote v
  · exact .pure v

/-- Lowering a body leaves the scope of the generator as it was. -/
theorem scope_lowerBody (g : Generator) (registry : Registry) (params : List String) (body : Expr)
    (promoted : Bool) : (g.lowerBody registry params body promoted).scope = g.scope := by
  have h := (extends_bodyValue registry params body promoted ⟨g.scope, #[], false⟩).scope
  unfold lowerBody
  unfold Lowering.draft at h
  split <;> simp_all

theorem label_lowerBody {g : Generator} {registry : Registry} {params : List String} {body : Expr}
    {promoted : Bool} {block : Block}
    (h : (g.lowerBody registry params body promoted).block = .ok block) :
    block.label = some entry := by
  unfold lowerBody at h
  split at h <;> cases h
  rfl

/-- What a call of a body gives: a function with a name turns the value into a double. -/
def meaning (callees : Callees) (args : List Binary64) (params : List String) (body : Expr)
    (promoted : Bool) : Run Value := do
  let v ← body.eval callees (params.zip (args.map .float))
  pure (if promoted then .float v.toFloat else v)

theorem lowers_bodyValue {registry : Registry} {params : List String} {body : Expr} {promoted : Bool}
    (hb : body.isSource = true) (hn : params.Nodup) (callees : Callees) {args : List Binary64}
    (hlen : args.length = params.length) :
    Lowering.Lowers callees args ⟨.empty, #[], false⟩ [] (bodyValue registry params body promoted)
      (meaning callees args params body promoted) fun o v rs => Lowering.Holds args rs o v := by
  refine .within (.bind (Lowering.extends_expression _ body) ?_
    (Lowering.lowers_expression _ body hb (Lowering.agrees_params hn hlen)) ?_)
  · intro v
    split
    · exact Lowering.extends_promote v
    · exact .pure v
  · intro o d' v rs' _ _ ho
    cases promoted with
    | true => exact Lowering.lowers_promote ho
    | false => exact .pure ho

/-- The block of a body does what the body means. -/
theorem run_lowerBody {g : Generator} {registry : Registry} {params : List String} {body : Expr}
    {promoted : Bool} {block : Block} (hs : g.scope = .empty) (hb : body.isSource = true)
    (hn : params.Nodup) (h : (g.lowerBody registry params body promoted).block = .ok block)
    (callees : Callees) {args : List Binary64} (hlen : args.length = params.length) :
    block.run callees args = Word.ofValue <$> meaning callees args params body promoted := by
  unfold lowerBody at h
  rw [hs] at h
  split at h
  · rename_i o d hd
    cases h
    have hdoes := lowers_bodyValue hb hn callees hlen o d hd rfl
    funext made
    have hmade := hdoes made
    simp only [Draft.written, List.size_toArray, List.length_nil, List.drop_zero] at hmade
    show EStateM.bind (runCode callees args d.code.toList []) (o.read args) made =
      EStateM.map Word.ofValue (meaning callees args params body promoted) made
    unfold EStateM.bind EStateM.map
    cases hm : meaning callees args params body promoted made with
    | error halt made' =>
      simp only [hm] at hmade
      simp only [hmade]
    | ok v made' =>
      simp only [hm] at hmade
      obtain ⟨rs, hrun, -, -, ho⟩ := hmade
      simp only [hrun, Operand.read, ho.word]
      rfl
  · cases h

/-! ## Generators at work -/

theorem scope_declare (g : Generator) (p : Prototype) : (g.declare p).generator.scope = g.scope := by
  unfold declare
  split
  · rfl
  · split <;> rfl

theorem scope_define (g : Generator) (p : Prototype) (body : Expr) :
    (g.define p body).generator.scope = g.scope := by
  unfold define
  dsimp only
  split
  · rfl
  · split
    · rfl
    · split <;> exact scope_lowerBody ..

theorem scope_evaluate (g : Generator) (body : Expr) :
    (g.evaluate body).generator.scope = g.scope := by
  unfold evaluate
  dsimp only
  split <;> exact scope_lowerBody ..

theorem scope_item (g : Generator) (i : Item) : (g.item i).generator.scope = g.scope := by
  cases i with
  | external p pos => exact scope_declare g p
  | define p body pos =>
    simp only [item]
    split
    · exact scope_evaluate g body
    · exact scope_define g p body
  | evaluate body pos => exact scope_evaluate g body

/-- The generators that come from items of source texts, whether or not these succeed. -/
inductive Reachable : Generator → Prop
  | initial : Reachable .initial
  | item {g : Generator} {i : Item} (hg : Reachable g) (hi : i.IsParsed) :
      Reachable (g.item i).generator

/-- Between items no name is in scope. -/
theorem Reachable.scope {g : Generator} (h : g.Reachable) : g.scope = .empty := by
  induction h with
  | initial => rfl
  | item _ _ ih => rw [scope_item, ih]

theorem find?_withPower (m : IR.Module) (usesPower : Bool) {s : IR.Symbol} (h : s ≠ .power) :
    (withPower m usesPower).find? s = m.find? s := by
  unfold withPower
  split
  · rw [IR.Module.find?_put, if_neg]
    exact Ne.symm h
  · rfl

/-- A definition that succeeds puts the block of its body into the module. -/
theorem define_eq_ok {g : Generator} {p : Prototype} {body : Expr} {s : IR.Symbol}
    (h : (g.define p body).result = .ok s) :
    p.params.Nodup ∧ ∃ registry block, (g.lowerBody registry p.params body true).block = .ok block ∧
      (g.define p body).generator.module.find? s = some (functionOf p (some block)) := by
  unfold define at *
  dsimp only at *
  split at h
  · cases h
  · rename_i hnew
    rw [if_neg hnew]
    split at h
    · cases h
    · rename_i hfault
      have hnodup : p.params.Nodup := by
        unfold prototypeFault? at hfault
        split at hfault
        · cases hfault
        · split at hfault
          · cases hfault
          · rename_i hrep
            exact (nodup_of_firstRepeated? hrep).1
      split at h
      · rename_i block hblock
        cases h
        refine ⟨hnodup, _, block, hblock, ?_⟩
        rw [find?_withPower _ _ (by simp), IR.Module.find?_put]
        exact if_pos rfl
      · cases h

theorem evaluate_eq_ok {g : Generator} {body : Expr} {s : IR.Symbol}
    (h : (g.evaluate body).result = .ok s) :
    ∃ block, (g.lowerBody g.registry [] body false).block = .ok block ∧
      (g.evaluate body).generator.module.find? s = some ⟨s, [], block.value.ty, some block⟩ := by
  unfold evaluate at *
  dsimp only at *
  split at h
  · rename_i block hblock
    cases h
    refine ⟨block, hblock, ?_⟩
    rw [find?_withPower _ _ (by simp), IR.Module.find?_put]
    exact if_pos rfl
  · cases h

/-- The function that an item adds runs as the item means: it returns the same number, as a double if
it has a name, or halts for the same cause, after the same calls. -/
theorem run_item {g : Generator} {i : Item} {s : IR.Symbol} (hg : g.Reachable) (hi : i.IsParsed)
    (hd : i.kind = .define) (hs : (g.item i).result = .ok s) :
    ∃ f block, (g.item i).generator.module.find? s = some f ∧ f.params = i.params ∧
      f.body? = some block ∧ block.label = some entry ∧
      ∀ (callees : Callees) (args : List Binary64), args.length = i.params.length →
        block.run callees args = Word.ofValue <$> i.eval callees args := by
  have hsource := hi.sourceItem
  cases i with
  | external p pos => cases hd
  | define p body pos =>
    have hname : p.isAnonymous = false := Prototype.isAnonymous_of_isSource hsource.1
    simp only [item, hname, Bool.false_eq_true, ↓reduceIte] at hs ⊢
    obtain ⟨hnodup, registry, block, hblock, hfind⟩ := define_eq_ok hs
    refine ⟨_, block, hfind, rfl, rfl, label_lowerBody hblock, fun callees args hlen => ?_⟩
    exact run_lowerBody hg.scope hsource.2 hnodup hblock callees hlen
  | evaluate body pos =>
    obtain ⟨block, hblock, hfind⟩ := evaluate_eq_ok hs
    refine ⟨_, block, hfind, rfl, rfl, label_lowerBody hblock, fun callees args hlen => ?_⟩
    rw [run_lowerBody hg.scope hsource .nil hblock callees hlen]
    simp [meaning, Item.eval]

/-- The text `y; def f(x) x / f(1)` has an expression without a value first. -/
def unbound : Item := .evaluate (.name "y" ⟨1, 1, 0⟩) ⟨1, 1, 0⟩

/-- The definition in that text calls itself. -/
def recursive : Item :=
  .define ⟨"f", ["x"], ⟨1, 8, 7⟩⟩
    (.binary .div (.name "x" ⟨1, 13, 12⟩) (.call "f" [.integer 1 ⟨1, 19, 18⟩] ⟨1, 17, 16⟩) ⟨1, 15, 14⟩)
    ⟨1, 4, 3⟩

theorem isParsed_unbound : unbound.IsParsed :=
  ⟨"y; def f(x) x / f(1)".toUTF8.toList, none, _, .start, by with_unfolding_all rfl⟩

theorem isParsed_recursive : recursive.IsParsed :=
  ⟨"y; def f(x) x / f(1)".toUTF8.toList, none, _, .item .start, by with_unfolding_all rfl⟩

theorem run_item_recursive :
    (initial.item unbound).generator.Reachable ∧ recursive.IsParsed ∧
    ((initial.item unbound).generator.item recursive).result = .ok (.named "f") ∧
    ∃ f block, ((initial.item unbound).generator.item recursive).generator.module.find? (.named "f") =
        some f ∧ f.params = ["x"] ∧ f.body? = some block ∧ block.label = some entry ∧
      ∀ (callees : Callees) (args : List Binary64), args.length = 1 →
        block.run callees args = Word.ofValue <$> recursive.eval callees args :=
  have hg : (initial.item unbound).generator.Reachable := .item .initial isParsed_unbound
  ⟨hg, isParsed_recursive, by with_unfolding_all rfl,
    run_item hg isParsed_recursive rfl (by with_unfolding_all rfl)⟩

end Generator

end ScalarLang
