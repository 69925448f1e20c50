import ScalarLang.Proofs.InternalErrors
/-!
# Stopping at the first error and keeping going agree

Both go through the same results of the parser and the same states of the generator up to the first
result that fails, in the parser or in the generator (`isFront_ofResults`). A source that can be read to
its end only has errors of the program, so neither is broken off.
-/
namespace ScalarLang

namespace Compilation

/-- The compilation `c` is what `d` had come to at its first error. -/
structure IsFront (c d : Compilation) : Prop where
  errors : c.errors = d.errors.take 1
  symbols : c.symbols <+: d.symbols
  eq_of_nil : d.errors = [] → c = d

theorem IsFront.refl {c : Compilation} (h : c.errors = []) : IsFront c c :=
  ⟨by rw [h]; rfl, List.prefix_rfl, fun _ => rfl⟩

theorem isFront_ofResults (g : Generator) (rs : List (Except (Failure ScanError) Item)) :
    IsFront (ofResults false g rs) (ofResults true g rs) := by
  induction rs generalizing g with
  | nil => exact .refl rfl
  | cons r rs ih =>
    rw [ofResults.eq_def false, ofResults.eq_def true]
    cases r with
    | error f =>
      cases hd : f.diagnose with
      | error i =>
        simp only [hd]
        exact .refl rfl
      | ok e =>
        simp only [hd]
        exact ⟨rfl, List.nil_prefix, by simp⟩
    | ok i =>
      cases hr : (g.item i).result with
      | ok symbol =>
        have hrest := ih (g.item i).generator
        simp only [hr]
        refine ⟨hrest.errors, (List.prefix_cons_inj symbol).2 hrest.symbols, fun hnil => ?_⟩
        rw [hrest.eq_of_nil hnil]
      | error e =>
        simp only [hr]
        exact ⟨rfl, List.nil_prefix, by simp⟩

theorem interruption_ofResults (keepGoing : Bool) (g : Generator)
    {rs : List (Except (Failure ScanError) Item)}
    (hfailures : ∀ f, .error f ∈ rs → ∃ e, f.diagnose = .ok e) :
    (ofResults keepGoing g rs).interruption? = none := by
  induction rs generalizing g with
  | nil => rfl
  | cons r rs ih =>
    have hrest (g : Generator) := ih g fun f hf => hfailures f (List.mem_cons_of_mem r hf)
    rw [ofResults.eq_def]
    cases r with
    | error f =>
      obtain ⟨e, hd⟩ := hfailures f (List.mem_cons_self ..)
      simp only [hd]
      split
      · exact hrest g
      · rfl
    | ok i =>
      cases hr : (g.item i).result with
      | ok symbol =>
        simp only [hr]
        exact hrest _
      | error e =>
        simp only [hr]
        split
        · exact hrest _
        · rfl

/-- For a source that can be read to its end, the errors of a compilation that stops at the first one are
the first of those of a compilation that keeps going, or none if there are none; the functions it has
by then are the first of the other's. Neither is broken off. Without errors the two are the same, with
one module. -/
theorem first_error_ofSource (name : String) (bytes : List UInt8) :
    (ofSource false name bytes none).errors = (ofSource true name bytes none).errors.take 1 ∧
    (ofSource false name bytes none).symbols <+: (ofSource true name bytes none).symbols ∧
    (∀ keepGoing, (ofSource keepGoing name bytes none).interruption? = none) ∧
    ((ofSource true name bytes none).errors = [] →
      ofSource false name bytes none = ofSource true name bytes none) := by
  have hfront := isFront_ofResults .initial (Parse.results (.ofStream (.ofBytes bytes none)))
  refine ⟨hfront.errors, hfront.symbols, fun keepGoing => ?_, fun hnil => ?_⟩
  · exact interruption_ofResults keepGoing .initial fun _ =>
      diagnose_of_mem_results fun _ => TokenStream.lexical_of_mem_ofBytes
  · have hsame : ofStream false .initial (.ofBytes bytes none) =
        ofStream true .initial (.ofBytes bytes none) := hfront.eq_of_nil hnil
    simp only [ofSource, hsame]

/-- The text `y; z` has two errors, of which one is told if the compilation stops; `def f(x) x` has none. -/
theorem first_error_ofSource_names :
    (ofSource true "t" "y; z".toUTF8.toList none).errors =
      [.lowering ⟨.undefinedName "y", ⟨1, 1, 0⟩⟩, .lowering ⟨.undefinedName "z", ⟨1, 4, 3⟩⟩] ∧
    (ofSource false "t" "y; z".toUTF8.toList none).errors = [.lowering ⟨.undefinedName "y", ⟨1, 1, 0⟩⟩] ∧
    (ofSource true "t" "def f(x) x".toUTF8.toList none).errors = [] ∧
    ofSource false "t" "def f(x) x".toUTF8.toList none =
      ofSource true "t" "def f(x) x".toUTF8.toList none := by
  have hboth : (ofSource true "t" "y; z".toUTF8.toList none).errors =
      [.lowering ⟨.undefinedName "y", ⟨1, 1, 0⟩⟩, .lowering ⟨.undefinedName "z", ⟨1, 4, 3⟩⟩] := by
    with_unfolding_all rfl
  have hnone : (ofSource true "t" "def f(x) x".toUTF8.toList none).errors = [] := by
    with_unfolding_all rfl
  refine ⟨hboth, ?_, hnone, (first_error_ofSource "t" _).2.2.2 hnone⟩
  rw [(first_error_ofSource "t" _).1, hboth]
  rfl

end Compilation

end ScalarLang
