import ScalarLang.Proofs.InternalErrors
import ScalarLang.Proofs.Newlines
import ScalarLang.Proofs.Places
import ScalarLang.Proofs.Recovery
/-!
# Fragments one after another are the same as one text

`evalAll_eq_eval`: evaluating fragments in turn comes to the same as evaluating them joined by semicolons
on lines of their own, whatever errors they have. The lexer reads each fragment as it stands
(`answers_separated`), the parser takes the semicolon for the end of the fragment (`aligned_closing`) and
starts afresh behind it, and the generator goes on from item to item in any case (`ofResults_append`).
-/
namespace ScalarLang

/-! ## Texts -/

/-- A semicolon on a line of its own. -/
def separator : List UInt8 := "\n;\n".toUTF8.toList

theorem placed_placed (f h : Position → Position) (a : Except LexError Token) :
    placed f (placed h a) = placed (f ∘ h) a := by
  cases a <;> rfl

theorem sameAnswer_placed (f : Position → Position) (a : Except LexError Token) :
    SameAnswer ((placed f a).mapError .lexical) (a.mapError .lexical) := by
  cases a with
  | ok t => exact .token ⟨rfl, rfl⟩
  | error e => exact .error rfl

theorem SameAnswer.refl (a : Except ScanError Token) : SameAnswer a a := by
  cases a with
  | ok t => exact .token ⟨rfl, rfl⟩
  | error e => exact .error rfl

/-- Two texts with a separator between them have the tokens of both, and a semicolon. -/
theorem answers_separated (a b : List UInt8) :
    List.Forall₂ SameAnswer (TokenStream.ofBytes (a ++ separator ++ b) none).answers
      ((TokenStream.ofBytes a none).answers ++ .ok .semicolon :: (TokenStream.ofBytes b none).answers) := by
  have hbytes : a ++ separator ++ b = a ++ 10 :: ([59] ++ 10 :: b) := by
    have hseparator : separator = [10, 59, 10] := by with_unfolding_all rfl
    simp [hseparator]
  have hsemicolon : (TokenStream.scan .start (Glyph.decode [59])).1 =
      [.ok ⟨.semicolon, ";", .start⟩] := by with_unfolding_all rfl
  -- the semicolon moves by the first text, the second text by the semicolon and the first
  simp only [TokenStream.ofBytes, List.append_nil]
  rw [hbytes, TokenStream.scan_decode_append a, TokenStream.scan_decode_append [59], hsemicolon]
  simp only [List.map_append, List.map_cons, List.map_map, List.cons_append, List.nil_append]
  refine List.rel_append (List.forall₂_same.2 fun a _ => .refl a) (.cons (.token ⟨rfl, rfl⟩) ?_)
  rw [List.forall₂_map_left_iff, List.forall₂_map_right_iff]
  refine List.forall₂_same.2 fun a _ => ?_
  simp only [Function.comp_apply, placed_placed]
  exact sameAnswer_placed _ a

/-! ## A semicolon at the end -/

/-- Failures that both have one cause in the stream, or are both faults of the grammar. -/
inductive Failure.Kindred {ε : Type} : Failure ε → Failure ε → Prop
  | stream (e : ε) : Kindred (.stream e) (.stream e)
  | grammar (e e' : ParseError) : Kindred (.grammar e) (.grammar e')

namespace Reading

variable {ε : Type} {s : Token}

/-- The same tokens, or the end of the input and a semicolon. -/
def ClosingToken (t u : Token) : Prop := t.Same u ∨ (t.isEnd = true ∧ u.kind = .semicolon)

theorem ClosingToken.readsAs {t u : Token} (h : ClosingToken t u) : t.ReadsAs u := by
  rcases h with h | ⟨ht, hu⟩
  · exact .inl h
  · exact .inr ⟨.inl (by simpa [Token.isEnd] using ht), .inr hu⟩

/-- The first cursor comes to its end where the second comes to a last token `s`. -/
inductive Closing (s : Token) : Cursor ε → Cursor ε → Prop
  | before (l : Option Token) (cs : List (Except ε Token)) (p q : Position) :
      Closing s ⟨l, cs, p⟩ ⟨l, cs ++ [.ok s], q⟩
  | reached (p q : Position) : Closing s ⟨some ⟨.endOfInput, "", p⟩, [], p⟩ ⟨some s, [], q⟩
  | past {l l' : Option Token} {p q : Position} (hl : l = none ∨ l = some ⟨.endOfInput, "", p⟩)
      (hl' : l' = none ∨ l' = some ⟨.endOfInput, "", q⟩) : Closing s ⟨l, [], p⟩ ⟨l', [], q⟩

theorem Closing.skip {c d : Cursor ε} (h : Closing s c d) : Closing s c.skip d.skip := by
  cases h with
  | before l cs p q => exact .before none cs p q
  | reached p q => exact .past (.inl rfl) (.inl rfl)
  | past _ _ => exact .past (.inl rfl) (.inl rfl)

theorem looks_closing (hs : s.kind = .semicolon) {c d : Cursor ε} (h : Closing s c d) :
    Looks (Closing s) ClosingToken Failure.Kindred c.peek d.peek := by
  have hsame (t : Token) : ClosingToken t t := .inl ⟨rfl, rfl⟩
  cases h with
  | before l cs p q =>
    rcases l with _ | t
    · rcases cs with _ | ⟨e | t, cs⟩
      · exact .token (.inr ⟨rfl, hs⟩) (.reached p q) fun _ => .past (.inl rfl) (.inl rfl)
      · exact .error (.stream e) (.before none cs p q)
      · exact .token (hsame t) (.before (some t) cs p q) fun _ => .before none cs p q
    · exact .token (hsame t) (.before (some t) cs p q) fun _ => .before none cs p q
  | reached p q => exact .token (.inr ⟨rfl, hs⟩) (.reached p q) fun _ => .past (.inl rfl) (.inl rfl)
  | @past l l' p q hl hl' =>
    have hends : ClosingToken ⟨.endOfInput, "", p⟩ ⟨.endOfInput, "", q⟩ := .inl ⟨rfl, rfl⟩
    rcases hl with rfl | rfl <;> rcases hl' with rfl | rfl <;>
      exact .token hends (.past (.inr rfl) (.inr rfl)) fun _ => .past (.inl rfl) (.inl rfl)

/-- A semicolon at the end is read like the end itself. -/
theorem aligned_closing (hs : s.kind = .semicolon) :
    Aligned (Closing (ε := ε) s) ClosingToken Expr.Same Failure.Kindred where
  toParallel := parallel_same ClosingToken.readsAs (looks_closing hs) fun _ _ => .grammar _ _
  skip := Closing.skip
  ends := by
    rintro t u (h | ⟨ht, -⟩) hu
    · rw [← h.isEnd, hu]
    · exact ht
  passes := by
    intro t u c d _ h hc hd ht hu
    cases h with
    | before l cs p q =>
      cases hc.symm.trans hd
      rw [ht] at hu
      cases hu
    | reached p q => exact .past (.inr rfl) (.inl rfl)
    | past _ hl' =>
      rcases hl' with rfl | rfl
      · cases hd
      · cases hd
        cases hu

theorem results_nil (p : Position) : (Parse.results ⟨none, [], p⟩ : List (Except (Failure ε) Item)) = [] := by
  rw [results_eq, item_of_look_end (c := ⟨none, [], p⟩) (look_of_peek rfl) rfl]

/-- What stands before a semicolon gives the results that it has as a text of its own, and then come the
results of what stands behind it. -/
theorem results_closing {A : List (Except ε Token)} (hA : ∀ t, .ok t ∈ A → t.isEnd = false)
    (hs : s.kind = .semicolon) (p : Position) :
    ∃ front, List.Forall₂ (Outcomes ClosingToken Expr.Same Failure.Kindred)
        (Parse.results ⟨none, A, p⟩) front ∧
      (∃ q, front = Parse.results ⟨none, A ++ [.ok s], q⟩) ∧
      ∀ B q, Parse.results ⟨none, A ++ .ok s :: B, q⟩ = front ++ Parse.results ⟨none, B, q⟩ := by
  have he : s.isEnd = false := Token.isEnd_of_kind hs (by simp)
  have hbound : s.isBoundary = true := by simp [Token.isBoundary, hs]
  have hskip (B : List (Except ε Token)) (q : Position) :
      Parse.results ⟨none, .ok s :: B, q⟩ = Parse.results ⟨none, B, q⟩ := by
    refine results_congr ?_
    rw [item_of_look (c := ⟨none, .ok s :: B, q⟩) (look_of_peek rfl) he, if_pos hs]
    rfl
  obtain ⟨front, hfront⟩ := results_before_boundary hA hbound he
  have hall (B : List (Except ε Token)) (q : Position) :
      Parse.results ⟨none, A ++ .ok s :: B, q⟩ = front ++ Parse.results ⟨none, B, q⟩ := by
    rw [hfront B q, hskip B q]
  have hself : front = Parse.results ⟨none, A ++ [.ok s], p⟩ := by
    rw [hall [] p, results_nil, List.append_nil]
  refine ⟨front, ?_, ⟨p, hself⟩, hall⟩
  rw [hself]
  exact (aligned_closing hs).forall₂_results (.before none A p p)

end Reading

/-! ## Compilations -/

namespace Compilation

/-- What two compilations come to, where the second goes on from the first. -/
def andThen (c d : Compilation) : Compilation :=
  ⟨c.symbols ++ d.symbols, c.errors ++ d.errors, d.interruption?, c.events ++ d.events, d.generator⟩

/-- A compilation that keeps going goes on behind results that are items or errors of the program. -/
theorem ofResults_append {rs rs' : List (Except (Failure ScanError) Item)} (g : Generator)
    (hrs : ∀ i, .ok i ∈ rs → i.isComplete = true)
    (hfailures : ∀ f, .error f ∈ rs → ∃ e, f.diagnose = .ok e) :
    ofResults true g (rs ++ rs') =
      (ofResults true g rs).andThen (ofResults true (ofResults true g rs).generator rs') := by
  induction rs generalizing g with
  | nil => simp [ofResults, stop, andThen]
  | cons r rs ih =>
    have hrs' : ∀ i, .ok i ∈ rs → i.isComplete = true := fun i hi => hrs i (List.mem_cons_of_mem r hi)
    have hfailures' : ∀ f, .error f ∈ rs → ∃ e, f.diagnose = .ok e :=
      fun f hf => hfailures f (List.mem_cons_of_mem r hf)
    cases r with
    | error f =>
      obtain ⟨e, hd⟩ := hfailures f (List.mem_cons_self ..)
      simp only [List.cons_append, ofResults, hd, ↓reduceIte, ih g hrs' hfailures']
      rfl
    | ok i =>
      have hnext := ih (g.item i).generator hrs' hfailures'
      cases hr : (g.item i).result with
      | ok symbol =>
        simp only [List.cons_append, ofResults, hr, hnext]
        simp [andThen]
      | error e =>
        have hfault := g.isInternal_item (hrs i (List.mem_cons_self ..)) hr
        simp only [List.cons_append, ofResults, hr, hfault, Bool.not_false, Bool.and_true, ↓reduceIte, hnext]
        simp [andThen]

/-- The functions of a compilation, the number of its errors and where it leaves the generator. -/
def summary (c : Compilation) : List IR.Symbol × Nat × Generator :=
  (c.symbols, c.errors.length, c.generator)

theorem Agrees.summary_eq {Q : CompileError → CompileError → Prop}
    {P : Interruption → Interruption → Prop} {c d : Compilation} (h : Agrees Q P c d) :
    c.summary = d.summary := by
  simp only [summary, h.symbols, h.errors.length_eq, h.generator]

theorem summary_andThen {c c' d : Compilation} (h : c.summary = c'.summary) :
    (c.andThen d).summary = (c'.andThen d).summary := by
  simp only [summary, Prod.mk.injEq] at h
  simp only [summary, andThen, List.length_append, h]

theorem diagnoses_of_kindred {f f' : Failure ScanError} (h : f.Kindred f') :
    Diagnoses (fun _ _ => True) (fun _ _ => True) f.diagnose f'.diagnose := by
  cases h with
  | grammar e e' => exact .ok trivial
  | stream e =>
    cases e with
    | lexical e => exact .ok trivial
    | unreadable pos cause => exact .error trivial

/-- What is wrong with the results of a text, closed by a semicolon, is wrong with the program. -/
theorem diagnose_of_mem_closed {a : List UInt8} {p : Position} {f : Failure ScanError}
    (h : .error f ∈ Parse.results ⟨none, (TokenStream.ofBytes a none).answers ++ [.ok .semicolon], p⟩) :
    ∃ e, f.diagnose = .ok e :=
  diagnose_of_mem_results (s := ⟨_, p⟩)
    (fun _ he => TokenStream.lexical_of_mem_ofBytes (by simpa using he)) h

/-- A text that has a separator in it is compiled like its two parts one after another. -/
theorem summary_separated (g : Generator) (a b : List UInt8) :
    (ofStream true g (.ofBytes (a ++ separator ++ b) none)).summary =
      ((ofStream true g (.ofBytes a none)).andThen
        (ofStream true (ofStream true g (.ofBytes a none)).generator (.ofBytes b none))).summary := by
  obtain ⟨front, hclosing, ⟨p, hfront⟩, hall⟩ := Reading.results_closing (s := .semicolon)
    (A := (TokenStream.ofBytes a none).answers) (fun _ => Reading.isEnd_of_mem_ofBytes) rfl
    (TokenStream.ofBytes a none).ending
  -- up to places, the whole text has the results of the first part and then those of the second
  have hwhole := Reading.results_same (c := .ofStream (.ofBytes (a ++ separator ++ b) none))
    (d := ⟨none, _, (TokenStream.ofBytes b none).ending⟩) ⟨.none, answers_separated a b⟩
  rw [hall] at hwhole
  have hsame := agrees_ofResults .inl diagnoses_of_same (congrArg CompileError.lowering) hwhole true g
  have hfirst := agrees_ofResults Reading.ClosingToken.readsAs diagnoses_of_kindred (fun _ => trivial)
    hclosing true g
  have happend (rs : List (Except (Failure ScanError) Item)) : ofResults true g (front ++ rs) =
      (ofResults true g front).andThen (ofResults true (ofResults true g front).generator rs) := by
    refine ofResults_append g (fun i hi => ?_) fun f hf => ?_
    · rw [hfront] at hi
      exact isComplete_of_mem_results (s := ⟨_, p⟩) hi
    · rw [hfront] at hf
      exact diagnose_of_mem_closed hf
  refine hsame.summary_eq.trans ?_
  rw [happend, ← hfirst.generator]
  exact summary_andThen hfirst.summary_eq.symm

end Compilation

/-! ## Sessions -/

namespace Session

/-- Evaluates fragments in turn. -/
def evalAll (s : Session) : List (List UInt8) → List Compilation × Session
  | [] => ([], s)
  | fragment :: fragments =>
    ((s.eval fragment).1 :: (evalAll (s.eval fragment).2 fragments).1,
      (evalAll (s.eval fragment).2 fragments).2)

theorem eval_nil (s : Session) : s.eval [] = (.stop s.generator, s) := by
  have hnone : (TokenStream.ofBytes [] none).answers = [] := by with_unfolding_all rfl
  have hresults : Parse.results (.ofStream (TokenStream.ofBytes [] none)) = [] := by
    rw [Cursor.ofStream, hnone, Reading.results_nil]
  simp only [eval, Compilation.ofStream, hresults]
  rfl

/-- Fragments that are evaluated in turn give the functions, the number of errors and the session that
their text gives when they are joined. -/
theorem evalAll_joined (s : Session) (fragments : List (List UInt8)) :
    (s.evalAll fragments).1.flatMap Compilation.symbols =
      (s.eval (separator.intercalate fragments)).1.symbols ∧
    ((s.evalAll fragments).1.map fun c => c.errors.length).sum =
      (s.eval (separator.intercalate fragments)).1.errors.length ∧
    (s.evalAll fragments).2 = (s.eval (separator.intercalate fragments)).2 := by
  induction fragments generalizing s with
  | nil =>
    rw [List.intercalate_nil, eval_nil]
    exact ⟨rfl, rfl, rfl⟩
  | cons fragment fragments ih =>
    cases fragments with
    | nil => simp [evalAll]
    | cons next fragments =>
      obtain ⟨hsymbols, herrors, hsession⟩ := ih (s.eval fragment).2
      have hjoined := Compilation.summary_separated s.generator fragment
        (separator.intercalate (next :: fragments))
      simp only [Compilation.summary, Compilation.andThen, List.length_append, Prod.mk.injEq] at hjoined
      obtain ⟨hsymbols', herrors', hgenerator⟩ := hjoined
      rw [List.intercalate_cons_cons]
      refine ⟨?_, ?_, ?_⟩
      · rw [evalAll, List.flatMap_cons, hsymbols]
        exact hsymbols'.symm
      · rw [evalAll, List.map_cons, List.sum_cons, herrors]
        exact herrors'.symm
      · rw [evalAll, hsession]
        exact congrArg Session.mk hgenerator.symm

theorem interruption_evalAll (s : Session) (fragments : List (List UInt8)) :
    ∀ c ∈ (s.evalAll fragments).1, c.interruption? = none := by
  induction fragments generalizing s with
  | nil => simp [evalAll]
  | cons fragment fragments ih =>
    rw [evalAll, List.forall_mem_cons]
    exact ⟨(Compilation.exhausts_ofBytes s.generator fragment).interruption, ih _⟩

/-- In a new session, or any other, fragments come to the same whether they are evaluated one after another
or joined by separators to one text: the same session with its module, the same functions as they are
in the end and the same number of errors, whatever is wrong with the fragments. -/
theorem evalAll_eq_eval (s : Session) (fragments : List (List UInt8)) :
    (s.evalAll fragments).2 = (s.eval (separator.intercalate fragments)).2 ∧
    ((s.evalAll fragments).1.flatMap Compilation.symbols).filterMap
        (fun f => ((s.evalAll fragments).2.generator.module.find? f).map IR.Function.text) =
      (s.eval (separator.intercalate fragments)).1.texts ∧
    ((s.evalAll fragments).1.map fun c => c.errors.length).sum =
      (s.eval (separator.intercalate fragments)).1.errors.length ∧
    (∀ c ∈ (s.evalAll fragments).1, c.interruption? = none) ∧
    (s.eval (separator.intercalate fragments)).1.interruption? = none := by
  obtain ⟨hsymbols, herrors, hsession⟩ := evalAll_joined s fragments
  refine ⟨hsession, ?_, herrors, interruption_evalAll s fragments,
    (Compilation.exhausts_ofBytes s.generator _).interruption⟩
  rw [hsymbols, hsession]
  rfl

end Session

end ScalarLang
