import ScalarLang.Compilation
import ScalarLang.Proofs.LastBoundary
import ScalarLang.Proofs.Validity
/-!
# Sources that cannot be read to their end

The failure is the last answer of the stream, and the parser meets it like any other error: it is lost
after a name, and while the parser looks for the next item. `interruption_ofSource` says what a
compilation reports, and exactly where the failure is told if what was read does not end in a name.
-/
namespace ScalarLang

/-! ## What a compilation accounts for -/

namespace Compilation

/-- The compilation `c` of the results `rs`, of which only those with `cause` end it: one of them does if
it is ended, and if it is not, errors are reported, and all of them if it keeps going. -/
structure Accounts (cause : Interruption) (keepGoing : Bool)
    (rs : List (Except (Failure ScanError) Item)) (c : Compilation) : Prop where
  interruption : c.interruption? = none ∨ c.interruption? = some cause
  told : c.interruption? = some cause → ∃ f, .error f ∈ rs ∧ f.diagnose = .error cause
  failed : c.interruption? = none → (∃ f, .error f ∈ rs) → c.errors ≠ []
  reported : c.interruption? = none → keepGoing = true →
    ∀ f, .error f ∈ rs → ∃ e, f.diagnose = .ok e ∧ e ∈ c.errors

theorem accounts_ofResults {cause : Interruption} (keepGoing : Bool) {g : Generator}
    {rs : List (Except (Failure ScanError) Item)} (hg : g.Reachable)
    (hitems : ∀ i, .ok i ∈ rs → i.IsParsed)
    (hcause : ∀ f, .error f ∈ rs → ∀ i, f.diagnose = .error i → i = cause) :
    Accounts cause keepGoing rs (ofResults keepGoing g rs) := by
  induction rs generalizing g with
  | nil => exact ⟨.inl rfl, by simp [ofResults, stop], by simp, by simp⟩
  | cons r rs ih =>
    have hitems' : ∀ i, .ok i ∈ rs → i.IsParsed := fun i hi => hitems i (List.mem_cons_of_mem r hi)
    have hcause' : ∀ f, .error f ∈ rs → ∀ i, f.diagnose = .error i → i = cause :=
      fun f hf => hcause f (List.mem_cons_of_mem r hf)
    have hlater : (∃ f, .error f ∈ rs ∧ f.diagnose = .error cause) →
        ∃ f, .error f ∈ r :: rs ∧ f.diagnose = .error cause := by
      rintro ⟨f, hf, hd⟩
      exact ⟨f, List.mem_cons_of_mem r hf, hd⟩
    rw [ofResults.eq_def]
    cases r with
    | error f =>
      cases hd : f.diagnose with
      | error i =>
        have hi := hcause f (List.mem_cons_self ..) i hd
        subst hi
        simp only [hd]
        exact ⟨.inr rfl, fun _ => ⟨f, List.mem_cons_self .., hd⟩, by simp, by simp⟩
      | ok e =>
        simp only [hd]
        cases keepGoing with
        | false => exact ⟨.inl rfl, by simp [stop], by simp, by simp⟩
        | true =>
          have hc := ih hg hitems' hcause'
          refine ⟨hc.interruption, fun hsome => hlater (hc.told hsome), by simp, fun hnone _ f' hf' => ?_⟩
          rcases List.mem_cons.1 hf' with heq | hf'
          · cases heq
            exact ⟨e, hd, List.mem_cons_self ..⟩
          · obtain ⟨e', he', hmem⟩ := hc.reported hnone rfl f' hf'
            exact ⟨e', he', List.mem_cons_of_mem e hmem⟩
    | ok i =>
      have hi := hitems i (List.mem_cons_self ..)
      have hc := ih (hg.item hi) hitems' hcause'
      have hold {f : Failure ScanError} (hf : .error f ∈ (.ok i :: rs)) : .error f ∈ rs := by
        simpa using hf
      cases hr : (g.item i).result with
      | ok symbol =>
        simp only [hr]
        refine ⟨hc.interruption, fun hsome => hlater (hc.told hsome), ?_, ?_⟩
        · rintro hnone ⟨f, hf⟩
          exact hc.failed hnone ⟨f, hold hf⟩
        · exact fun hnone hk f hf => hc.reported hnone hk f (hold hf)
      | error e =>
        -- an item from a text fails for a fault of the program, and compilation can go on
        have hfault := g.isInternal_item hi.isComplete hr
        simp only [hr, hfault, Bool.not_false, Bool.and_true]
        cases keepGoing with
        | false => exact ⟨.inl rfl, by simp [stop], by simp, by simp⟩
        | true =>
          refine ⟨hc.interruption, fun hsome => hlater (hc.told hsome), by simp, fun hnone _ f hf => ?_⟩
          obtain ⟨e', he', hmem⟩ := hc.reported hnone rfl f (hold hf)
          exact ⟨e', he', List.mem_cons_of_mem _ hmem⟩

end Compilation

/-! ## Errors at the end of a stream -/

namespace Reading

variable {ε : Type}

/-- An item that starts with a boundary needs the token after it. -/
theorem item_boundary_error {b : Token} (hb : b.isBoundary = true) (he : b.isEnd = false) (e : ε)
    (p : Position) : ∃ c, item ⟨none, [.ok b, .error e], p⟩ = .error (.stream e) c := by
  have hl : look (⟨none, [.ok b, .error e], p⟩ : Cursor ε) = .ok b ⟨some b, [.error e], p⟩ := rfl
  have hnext : look (⟨none, [.error e], p⟩ : Cursor ε) = .error (.stream e) ⟨none, [], p⟩ := rfl
  have hproto : prototype (⟨none, [.error e], p⟩ : Cursor ε) = .error (.stream e) ⟨none, [], p⟩ := by
    rw [prototype_eq]
    exact bind_of_error rfl
  rw [item_of_look hl he]
  by_cases hs : b.kind = .semicolon
  · rw [if_pos hs]
    exact ⟨_, item_of_look_error hnext⟩
  · have hfrom : itemFrom b (⟨none, [.error e], p⟩ : Cursor ε) =
        .error (.stream e) ⟨none, [], p⟩ := by
      rw [itemFrom_eq]
      by_cases hd : b.isKeyword .define = true
      · rw [if_pos hd]
        exact bind_of_error hproto
      · have hx : b.isKeyword .external = true := by
          simpa [Token.isBoundary, he, hs, hd] using hb
        rw [if_neg hd, if_pos hx]
        exact bind_of_error hproto
    rw [if_neg hs, map_itemFrom]
    simp only [Cursor.skip, hfrom]
    exact ⟨_, rfl⟩

theorem mem_results_boundary {A : List (Except ε Token)} (hA : ∀ t, .ok t ∈ A → t.isEnd = false)
    (hlast : ∀ a, A.getLast? = some a → ∃ t : Token, a = .ok t ∧ t.isBoundary = true) (e : ε)
    (p : Position) : .error (.stream e) ∈ Parse.results (.ofStream ⟨A ++ [.error e], p⟩) := by
  rcases List.eq_nil_or_concat' A with rfl | ⟨front, a, rfl⟩
  · have hl : look (⟨none, [.error e], p⟩ : Cursor ε) = .error (.stream e) ⟨none, [], p⟩ := rfl
    rw [results_eq]
    simp [Cursor.ofStream, item_of_look_error hl]
  · obtain ⟨b, rfl, hb⟩ := hlast a (by simp)
    have he := hA b (by simp)
    obtain ⟨before, hresults⟩ := results_before_boundary (A := front) (fun t ht => hA t (by simp [ht])) hb he
    obtain ⟨c, hitem⟩ := item_boundary_error hb he e p
    rw [List.append_assoc]
    show _ ∈ Parse.results ⟨none, front ++ .ok b :: [.error e], p⟩
    rw [hresults, results_eq ⟨none, _, p⟩, hitem]
    simp

end Reading

/-! ## Sources -/

/-- The failure comes after all that could be read. -/
theorem TokenStream.ofBytes_failure (bytes : List UInt8) (cause : String) :
    ofBytes bytes (some cause) = ⟨(ofBytes bytes none).answers ++
      [.error (.unreadable (ofBytes bytes none).ending cause)], (ofBytes bytes none).ending⟩ := by
  simp [ofBytes]

theorem TokenStream.lexical_of_mem_ofBytes {bytes : List UInt8} {e : ScanError}
    (h : .error e ∈ (ofBytes bytes none).answers) : ∃ l, e = .lexical l := by
  simp only [ofBytes, List.append_nil, List.mem_map] at h
  obtain ⟨a, -, ha⟩ := h
  cases a with
  | ok t => cases ha
  | error l =>
    cases ha
    exact ⟨l, rfl⟩

/-- What is wrong with a text is no fault of its lowering. -/
theorem Failure.ne_lowering_of_diagnose {f : Failure ScanError} {e : CompileError}
    (h : f.diagnose = .ok e) (l : LoweringError) : e ≠ .lowering l := by
  unfold diagnose at h
  split at h <;> cases h <;> simp

/-- Only the failure to read is diagnosed as such. -/
theorem Failure.eq_of_diagnose {f : Failure ScanError} {pos : Position} {cause : String}
    (h : f.diagnose = .error (.unreadable pos cause)) : f = .stream (.unreadable pos cause) := by
  unfold diagnose at h
  split at h <;> cases h
  rfl

namespace Compilation

variable {bytes : List UInt8}

/-- Nothing but the failure to read ends a compilation. -/
theorem accounts_ofSource (keepGoing : Bool) (name : String) (bytes : List UInt8) (cause : String) :
    Accounts (.unreadable (TokenStream.ofBytes bytes none).ending cause) keepGoing
      (Parse.results (.ofStream (.ofBytes bytes (some cause))))
      (ofSource keepGoing name bytes (some cause)) := by
  have hacc : Accounts (.unreadable (TokenStream.ofBytes bytes none).ending cause) keepGoing
      (Parse.results (.ofStream (.ofBytes bytes (some cause))))
      (ofStream keepGoing .initial (.ofBytes bytes (some cause))) := by
    apply accounts_ofResults keepGoing .initial
    · intro i hi
      obtain ⟨c, hc, hr⟩ := Parse.visits_of_mem_results .start hi
      exact ⟨bytes, some cause, c, hc, hr⟩
    · intro f hf i hd
      rcases Parse.failure_of_mem_results hf with ⟨g, rfl⟩ | ⟨e, rfl, he⟩
      · cases hd
      · rw [TokenStream.ofBytes_failure] at he
        rcases List.mem_append.1 he with he | he
        · obtain ⟨l, rfl⟩ := TokenStream.lexical_of_mem_ofBytes he
          cases hd
        · cases List.mem_singleton.1 he
          cases hd
          rfl
  exact ⟨hacc.interruption, hacc.told, hacc.failed, hacc.reported⟩

/-- A text that breaks off, and not after a name, is no program. -/
theorem exists_error_of_not_endsInName (cause : String)
    (h : ¬ EndsInName (TokenStream.ofBytes bytes none).answers) :
    ∃ f, .error f ∈ Parse.results (.ofStream (.ofBytes bytes (some cause))) := by
  by_contra hnone
  obtain ⟨items, hitems⟩ := Reading.mapM_id_of_forall_ok fun f hf => hnone ⟨f, hf⟩
  refine h (Reading.endsInName_of_program (.start rfl (by simp [Cursor.ofStream])) hitems
    List.nil_prefix (e := .unreadable (TokenStream.ofBytes bytes none).ending cause) ?_ ?_)
  · rw [TokenStream.ofBytes_failure]
    exact List.prefix_rfl
  · exact fun t ht => Reading.isEnd_of_mem_ofBytes ht

/-- A source that cannot be read to its end. If the compilation is ended, it is by the failure. If it is
not ended, and what was read does not end in a name or in a name and a parenthesis, then there are
errors, and for a compilation that keeps going one of them is an error of the text: the failure was
met while the parser looked for the next item. Where what was read ends at a boundary of items, a
compilation that keeps going is ended by the failure. Wherever it does not end in a name, such a
compilation is ended by the failure exactly if what was read from the last boundary on is wrong, if at
all, because it ends too early. -/
theorem interruption_ofSource (keepGoing : Bool) (name : String) (bytes : List UInt8)
    (cause : String) :
    ((ofSource keepGoing name bytes (some cause)).interruption? = none ∨
      (ofSource keepGoing name bytes (some cause)).interruption? =
        some (.unreadable (TokenStream.ofBytes bytes none).ending cause)) ∧
    (¬ EndsInName (TokenStream.ofBytes bytes none).answers →
      (ofSource keepGoing name bytes (some cause)).interruption? = none →
      (ofSource keepGoing name bytes (some cause)).errors ≠ [] ∧
      (keepGoing = true → ∃ e ∈ (ofSource keepGoing name bytes (some cause)).errors,
        ∀ l, e ≠ .lowering l)) ∧
    (keepGoing = true →
      (∀ a, (TokenStream.ofBytes bytes none).answers.getLast? = some a →
        ∃ t : Token, a = .ok t ∧ t.isBoundary = true) →
      (ofSource keepGoing name bytes (some cause)).interruption? =
        some (.unreadable (TokenStream.ofBytes bytes none).ending cause)) ∧
    (keepGoing = true → ¬ EndsInName (TokenStream.ofBytes bytes none).answers →
      ((ofSource keepGoing name bytes (some cause)).interruption? =
          some (.unreadable (TokenStream.ofBytes bytes none).ending cause) ↔
        ∀ f, .error f ∈ Parse.results (.ofStream
            ⟨fromLastBoundary (TokenStream.ofBytes bytes none).answers,
              (TokenStream.ofBytes bytes none).ending⟩) → f.isEnd = true)) := by
  have hacc := accounts_ofSource keepGoing name bytes cause
  have htold (hkeep : keepGoing = true) :
      (ofSource keepGoing name bytes (some cause)).interruption? =
          some (.unreadable (TokenStream.ofBytes bytes none).ending cause) ↔
        .error (.stream (.unreadable (TokenStream.ofBytes bytes none).ending cause)) ∈
          Parse.results (.ofStream (.ofBytes bytes (some cause))) := by
    constructor
    · intro hsome
      obtain ⟨f, hf, hd⟩ := hacc.told hsome
      rwa [Failure.eq_of_diagnose hd] at hf
    · intro hmem
      refine hacc.interruption.resolve_left fun hnone => ?_
      obtain ⟨e, he, -⟩ := hacc.reported hnone hkeep _ hmem
      cases he
  refine ⟨hacc.interruption, fun hname hnone => ?_, fun hkeep hlast => ?_, fun hkeep hname => ?_⟩
  · have hfails := exists_error_of_not_endsInName cause hname
    refine ⟨hacc.failed hnone hfails, fun hkeep => ?_⟩
    obtain ⟨f, hf⟩ := hfails
    obtain ⟨e, he, hmem⟩ := hacc.reported hnone hkeep f hf
    exact ⟨e, hmem, fun l => Failure.ne_lowering_of_diagnose he l⟩
  · rw [htold hkeep, TokenStream.ofBytes_failure]
    exact Reading.mem_results_boundary (fun t ht => Reading.isEnd_of_mem_ofBytes ht) hlast _ _
  · rw [htold hkeep, TokenStream.ofBytes_failure]
    refine Reading.mem_results_iff (fun t ht => Reading.isEnd_of_mem_ofBytes ht) hname (fun hmem => ?_) _
    obtain ⟨l, hl⟩ := TokenStream.lexical_of_mem_ofBytes hmem
    cases hl

/-- The text `def f(x) x;` ends at a boundary. The text `1 +` does not, but all that is wrong with it is
that it ends. -/
theorem interruption_ofSource_semicolon :
    (¬ EndsInName (TokenStream.ofBytes "def f(x) x;".toUTF8.toList none).answers ∧
      (∀ a, (TokenStream.ofBytes "def f(x) x;".toUTF8.toList none).answers.getLast? = some a →
        ∃ t : Token, a = .ok t ∧ t.isBoundary = true) ∧
      (ofSource true "t" "def f(x) x;".toUTF8.toList (some "disk failure")).interruption? =
        some (.unreadable (TokenStream.ofBytes "def f(x) x;".toUTF8.toList none).ending
          "disk failure")) ∧
    ¬ EndsInName (TokenStream.ofBytes "1 +".toUTF8.toList none).answers ∧
      Parse.results (.ofStream ⟨fromLastBoundary (TokenStream.ofBytes "1 +".toUTF8.toList none).answers,
          (TokenStream.ofBytes "1 +".toUTF8.toList none).ending⟩) =
        [.error (.grammar ⟨.unexpected .expression, ⟨.endOfInput, "", ⟨1, 4, 3⟩⟩⟩)] ∧
      (ofSource true "t" "1 +".toUTF8.toList (some "disk failure")).interruption? =
        some (.unreadable (TokenStream.ofBytes "1 +".toUTF8.toList none).ending "disk failure") := by
  have hlast : (TokenStream.ofBytes "def f(x) x;".toUTF8.toList none).answers.getLast? =
      some (.ok ⟨.semicolon, ";", ⟨1, 11, 10⟩⟩) := by with_unfolding_all rfl
  have hlast' : (TokenStream.ofBytes "1 +".toUTF8.toList none).answers.getLast? =
      some (.ok ⟨.operator, "+", ⟨1, 3, 2⟩⟩) := by with_unfolding_all rfl
  have hboundary : ∀ a,
      (TokenStream.ofBytes "def f(x) x;".toUTF8.toList none).answers.getLast? = some a →
      ∃ t : Token, a = .ok t ∧ t.isBoundary = true := by
    intro a ha
    rw [hlast] at ha
    cases ha
    exact ⟨_, rfl, rfl⟩
  have hname {bytes : List UInt8} {t : Token}
      (ht : (TokenStream.ofBytes bytes none).answers.getLast? = some (.ok t))
      (hk : t.kind ≠ .identifier ∧ t.opensParen = false) :
      ¬ EndsInName (TokenStream.ofBytes bytes none).answers := by
    intro hname
    obtain ⟨u, hu, hkind⟩ := hname.getLast?
    rw [ht] at hu
    cases hu
    rcases hkind with hkind | hkind
    · exact hk.1 hkind
    · rw [hk.2] at hkind
      cases hkind
  have hresults : Parse.results (.ofStream
      ⟨fromLastBoundary (TokenStream.ofBytes "1 +".toUTF8.toList none).answers,
        (TokenStream.ofBytes "1 +".toUTF8.toList none).ending⟩) =
      [.error (.grammar ⟨.unexpected .expression, ⟨.endOfInput, "", ⟨1, 4, 3⟩⟩⟩)] := by
    with_unfolding_all rfl
  refine ⟨⟨hname hlast (by decide), hboundary, ?_⟩, hname hlast' (by decide), hresults, ?_⟩
  · exact (interruption_ofSource true "t" _ "disk failure").2.2.1 rfl hboundary
  · refine ((interruption_ofSource true "t" _ "disk failure").2.2.2 rfl (hname hlast' (by decide))).2
      fun f hf => ?_
    rw [hresults] at hf
    cases List.mem_singleton.1 hf
    rfl

/-- After `def f(x) x` the failure is forgotten, and the definition is all that is reported; after
`) 1` it is passed over on the way to the next item. -/
theorem ofSource_forgotten_failure :
    ((ofSource true "t" "def f(x) x".toUTF8.toList (some "disk failure")).interruption? = none ∧
      (ofSource true "t" "def f(x) x".toUTF8.toList (some "disk failure")).errors = [] ∧
      (ofSource true "t" "def f(x) x".toUTF8.toList (some "disk failure")).symbols =
        [.named "f"]) ∧
    (ofSource true "t" ") 1".toUTF8.toList (some "disk failure")).interruption? = none ∧
      (ofSource true "t" ") 1".toUTF8.toList (some "disk failure")).errors =
        [.grammar ⟨.unexpected .expression, ⟨.bracket, ")", ⟨1, 1, 0⟩⟩⟩] :=
  ⟨⟨by with_unfolding_all rfl, by with_unfolding_all rfl, by with_unfolding_all rfl⟩,
    by with_unfolding_all rfl, by with_unfolding_all rfl⟩

end Compilation

end ScalarLang
