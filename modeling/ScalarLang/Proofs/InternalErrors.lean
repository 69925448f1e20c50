import ScalarLang.Proofs.Interruption
/-!
# No program makes the compiler fail for a fault of its own

The parser builds complete trees from any tokens (`Parse.isComplete_of_item`), and a complete item is
refused for what its program got wrong, whatever state the generator is in. `isInternal_eq_false` says so
of single items, of sources and of sessions; and since only such faults or a failing reader end a
compilation that keeps going, every result of a source that can be read is accounted for.
-/
namespace ScalarLang

variable {ε : Type}

/-! ## Complete items -/

/-- An item that a parser finds in a stream, whatever tokens and errors the stream has. -/
def Item.IsRead (i : Item) : Prop :=
  ∃ (ε : Type) (s : TokenStream ε) (c : Cursor ε), Parse.Visits (.ofStream s) c ∧
    (Parse.item c).result = .ok (some i)

namespace Reading

/-- A complete expression, related to itself. -/
def CompleteExpr (x y : Expr) : Prop := x = y ∧ x.isComplete = true

theorem looks_self (r : Except ε Token × Cursor ε) : Looks Eq Eq Eq r r := by
  obtain ⟨e | t, c⟩ := r
  · exact .error rfl rfl
  · exact .token rfl rfl fun _ => rfl

theorem areComplete_of_forall₂ {xs ys : List Expr} (h : List.Forall₂ CompleteExpr xs ys) :
    xs = ys ∧ areComplete xs = true := by
  induction h with
  | nil => exact ⟨rfl, rfl⟩
  | cons hx _ ih => exact ⟨by rw [hx.1, ih.1], by simp [areComplete, hx.2, ih.2]⟩

/-- Tokens build complete trees, whatever their texts are. -/
theorem lockstep_complete :
    Lockstep (Eq : Cursor ε → Cursor ε → Prop) Eq CompleteExpr (Eq : Failure ε → Failure ε → Prop) where
  same := by rintro t u rfl; exact ⟨rfl, rfl⟩
  look := by rintro c d rfl; exact looks_self _
  grammar := by rintro t u fault rfl; rfl
  integer := by rintro t u v rfl - -; exact ⟨rfl, rfl⟩
  float := by rintro t u v rfl - -; exact ⟨rfl, rfl⟩
  name := by rintro t u rfl -; exact ⟨rfl, rfl⟩
  call := by
    rintro t u xs ys rfl - hx
    obtain ⟨rfl, hxs⟩ := areComplete_of_forall₂ hx
    exact ⟨rfl, hxs⟩
  unary := by
    rintro t u op x y rfl hop ⟨rfl, hx⟩
    exact ⟨rfl, by simp [Expr.isComplete, hop, hx]⟩
  binary := by
    rintro t u op p x x' y y' rfl hp ⟨rfl, hx⟩ ⟨rfl, hy⟩
    exact ⟨rfl, by simp [Expr.isComplete, hp, hx, hy]⟩
  zero := by rintro t u rfl; exact ⟨rfl, rfl⟩
  bind := by
    rintro t u x x' y y' rfl - ⟨rfl, hx⟩ ⟨rfl, hy⟩
    exact ⟨rfl, by simp [Expr.isComplete, hx, hy]⟩

end Reading

theorem Parse.isComplete_of_item {c : Cursor ε} {i : Item} (h : (Parse.item c).result = .ok (some i)) :
    i.isComplete = true := by
  obtain ⟨j, -, hij⟩ :=
    ((Reading.lockstep_complete.aligned fun hr => by rw [hr]).alike_item (rfl : c = c)).result h
  cases hij with
  | some hij =>
    cases hij with
    | external _ _ => rfl
    | define _ _ hx => exact hx.2
    | evaluate _ hx => exact hx.2

/-! ## Compilations -/

namespace Compilation

variable {g : Generator} {rs : List (Except (Failure ScanError) Item)}

theorem isInternal_of_diagnose {f : Failure ScanError} {e : CompileError} (h : f.diagnose = .ok e) :
    e.isInternal = false := by
  unfold Failure.diagnose at h
  split at h <;> cases h <;> rfl

/-- No error of complete items is internal. -/
theorem isInternal_ofResults (keepGoing : Bool) (hrs : ∀ i, .ok i ∈ rs → i.isComplete = true) :
    ∀ e ∈ (ofResults keepGoing g rs).errors, e.isInternal = false := by
  induction rs generalizing g with
  | nil => simp [ofResults, stop]
  | cons r rs ih =>
    have hrs' : ∀ i, .ok i ∈ rs → i.isComplete = true := fun i hi => hrs i (List.mem_cons_of_mem r hi)
    rw [ofResults.eq_def]
    cases r with
    | error f =>
      cases hd : f.diagnose with
      | error i => simp [hd, stop]
      | ok e =>
        simp only [hd, List.forall_mem_cons]
        refine ⟨isInternal_of_diagnose hd, ?_⟩
        split
        · exact ih hrs'
        · simp [stop]
    | ok i =>
      cases hr : (g.item i).result with
      | ok symbol =>
        simp only [hr]
        exact ih hrs'
      | error e =>
        simp only [hr, List.forall_mem_cons]
        refine ⟨g.isInternal_item (hrs i (List.mem_cons_self ..)) hr, ?_⟩
        split
        · exact ih hrs'
        · simp [stop]

/-- Nothing of the results `rs` is left out: each gives an error or a function, and every item among them
has gone through the generator. -/
structure Exhausts (g : Generator) (rs : List (Except (Failure ScanError) Item)) (c : Compilation) :
    Prop where
  interruption : c.interruption? = none
  count : c.errors.length + c.symbols.length = rs.length
  generator : c.generator =
    (rs.filterMap Except.toOption).foldl (fun g i => (g.item i).generator) g

theorem exhausts_ofResults (hrs : ∀ i, .ok i ∈ rs → i.isComplete = true)
    (hfailures : ∀ f, .error f ∈ rs → ∃ e, f.diagnose = .ok e) :
    Exhausts g rs (ofResults true g rs) := by
  induction rs generalizing g with
  | nil => exact ⟨rfl, rfl, rfl⟩
  | cons r rs ih =>
    have hrs' : ∀ i, .ok i ∈ rs → i.isComplete = true := fun i hi => hrs i (List.mem_cons_of_mem r hi)
    have hfailures' : ∀ f, .error f ∈ rs → ∃ e, f.diagnose = .ok e :=
      fun f hf => hfailures f (List.mem_cons_of_mem r hf)
    rw [ofResults.eq_def]
    cases r with
    | error f =>
      obtain ⟨e, hd⟩ := hfailures f (List.mem_cons_self ..)
      have hc := ih (g := g) hrs' hfailures'
      simp only [hd, ↓reduceIte]
      refine ⟨hc.interruption, ?_, hc.generator⟩
      have := hc.count
      simp only [List.length_cons]
      omega
    | ok i =>
      have hc := ih (g := (g.item i).generator) hrs' hfailures'
      have hcount := hc.count
      cases hr : (g.item i).result with
      | ok symbol =>
        simp only [hr]
        refine ⟨hc.interruption, ?_, hc.generator⟩
        simp only [List.length_cons]
        omega
      | error e =>
        have hfault := g.isInternal_item (hrs i (List.mem_cons_self ..)) hr
        simp only [hr, hfault, Bool.not_false, Bool.and_true, ↓reduceIte]
        refine ⟨hc.interruption, ?_, hc.generator⟩
        simp only [List.length_cons]
        omega

theorem isComplete_of_mem_results {s : TokenStream ε} {i : Item}
    (h : .ok i ∈ Parse.results (.ofStream s)) : i.isComplete = true := by
  obtain ⟨c, -, hr⟩ := Parse.visits_of_mem_results .start h
  exact Parse.isComplete_of_item hr

theorem isInternal_ofStream (keepGoing : Bool) (g : Generator) (s : TokenStream ScanError) :
    ∀ e ∈ (ofStream keepGoing g s).errors, e.isInternal = false :=
  isInternal_ofResults keepGoing fun _ => isComplete_of_mem_results

/-- Where a stream has only lexical errors, what is wrong with its items is wrong with the program. -/
theorem diagnose_of_mem_results {s : TokenStream ScanError}
    (hs : ∀ e, .error e ∈ s.answers → ∃ l, e = .lexical l) {f : Failure ScanError}
    (h : .error f ∈ Parse.results (.ofStream s)) : ∃ e, f.diagnose = .ok e := by
  rcases Parse.failure_of_mem_results h with ⟨fault, rfl⟩ | ⟨e, rfl, he⟩
  · exact ⟨_, rfl⟩
  · obtain ⟨l, rfl⟩ := hs e he
    exact ⟨_, rfl⟩

/-- A text that can be read to its end is compiled to its end. -/
theorem exhausts_ofBytes (g : Generator) (bytes : List UInt8) :
    Exhausts g (Parse.results (.ofStream (.ofBytes bytes none)))
      (ofStream true g (.ofBytes bytes none)) :=
  exhausts_ofResults (fun _ => isComplete_of_mem_results) fun _ =>
    diagnose_of_mem_results fun _ => TokenStream.lexical_of_mem_ofBytes

/-- The compiler is never at fault: not for an item that the parser finds in any stream, in no state of
the generator, and so neither for a source nor in a session. A compilation that keeps going comes to
the end of every source that can be read. -/
theorem isInternal_eq_false :
    (∀ (g : Generator) (i : Item), i.IsRead →
      ∀ e, (g.item i).result = .error e → e.kind ≠ .wrongNodeKind) ∧
    (∀ keepGoing name bytes failure, ∀ e ∈ (ofSource keepGoing name bytes failure).errors,
      e.isInternal = false) ∧
    (∀ (s : Session) (fragment : List UInt8), ∀ e ∈ (s.eval fragment).1.errors,
      e.isInternal = false) ∧
    (∀ name bytes, Exhausts .initial (Parse.results (.ofStream (.ofBytes bytes none)))
      (ofSource true name bytes none)) ∧
    ∀ (s : Session) (fragment : List UInt8), Exhausts s.generator
      (Parse.results (.ofStream (.ofBytes fragment none))) (s.eval fragment).1 := by
  refine ⟨?_, ?_, ?_, ?_, ?_⟩
  · rintro g i ⟨ε, s, c, -, hr⟩ e he
    have hfault := g.isInternal_item (Parse.isComplete_of_item hr) he
    simpa [LoweringError.isInternal] using hfault
  · exact fun keepGoing name bytes failure =>
      isInternal_ofStream keepGoing .initial (.ofBytes bytes failure)
  · exact fun s fragment => isInternal_ofStream true s.generator (.ofBytes fragment none)
  · intro name bytes
    have hc := exhausts_ofBytes .initial bytes
    exact ⟨hc.interruption, hc.count, hc.generator⟩
  · exact fun s fragment => exhausts_ofBytes s.generator fragment

/-- The tokens of `def () y`, with a name of no letters, which no text gives. -/
def nameless : TokenStream Unit :=
  ⟨[.ok ⟨.keyword, "def", .unknown⟩, .ok ⟨.identifier, "", .unknown⟩, .ok ⟨.bracket, "(", .unknown⟩,
    .ok ⟨.bracket, ")", .unknown⟩, .ok ⟨.identifier, "y", .unknown⟩], .unknown⟩

/-- An item that no text spells. -/
def namelessItem : Item := .define ⟨"", [], .unknown⟩ (.name "y" .unknown) .unknown

/-- The item of those tokens fails for the name in its body; and in `y; 1` the compilation goes on after
the name without a value. -/
theorem isInternal_eq_false_nameless :
    namelessItem.IsRead ∧
    (∃ e, (Generator.initial.item namelessItem).result = .error e ∧ e.kind ≠ .wrongNodeKind) ∧
    (ofSource true "t" "y; 1".toUTF8.toList none).errors =
      [.lowering ⟨.undefinedName "y", ⟨1, 1, 0⟩⟩] ∧
    (ofSource true "t" "y; 1".toUTF8.toList none).symbols = [.expression 1] ∧
    Exhausts .initial (Parse.results (.ofStream (.ofBytes "y; 1".toUTF8.toList none)))
      (ofSource true "t" "y; 1".toUTF8.toList none) := by
  have hread : namelessItem.IsRead := ⟨Unit, nameless, _, .start, by with_unfolding_all rfl⟩
  have hfails : (Generator.initial.item namelessItem).result = .error ⟨.undefinedName "y", .unknown⟩ := by
    with_unfolding_all rfl
  obtain ⟨hitem, -, -, hsource, -⟩ := isInternal_eq_false
  exact ⟨hread, ⟨_, hfails, hitem .initial _ hread _ hfails⟩, by with_unfolding_all rfl,
    by with_unfolding_all rfl, hsource "t" _⟩

end Compilation

end ScalarLang
