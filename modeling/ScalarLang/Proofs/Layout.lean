import ScalarLang.Proofs.Places
/-!
# Layout does not affect the result

`ofSource_layout`: texts whose tokens agree, places aside, and whose lexical errors agree in kind and
lexeme, are compiled to the same module, and the errors that are reported agree in all but their places.
The kind and the lexeme of an error say what is wrong with the lexeme (`LexError.IsLexed.fault_eq`), so
what comes after the lexer sees no difference but the places.
-/
namespace ScalarLang

/-! ## What is wrong with a lexeme -/

/-- What is wrong with a lexeme, told from the kind of the error. Points are judged first, so a number
without fault in its points is an integer if it has digits only. -/
def LexErrorKind.fault (kind : LexErrorKind) (lexeme : String) : LexFault :=
  match kind with
  | unrecognizedCharacter => .unrecognized
  | unterminated => .bareExponent
  | malformedNumber =>
    if 1 < lexeme.toList.countP (· = '.') then .manyPoints
    else if lexeme.toList.getLast? = some '.' then .finalPoint
    else if lexeme.toList.all Numeral.isDigit then .wideInteger
    else .wideFloat

namespace Lexeme

variable {g : Glyph} {gs : List Glyph} {fault : LexFault}

theorem isDigit_ne_point (h : isDigit g = true) : g.char ≠ '.' := by
  intro hg
  rw [isDigit, hg] at h
  exact absurd h (by decide)

theorem char_ne_point_of_mem_exponent (h : g ∈ (splitExponent gs).1) : g.char ≠ '.' := by
  intro hg
  cases gs with
  | nil => cases h
  | cons m gs =>
    simp only [splitExponent] at h
    split at h
    · rename_i hmark
      rcases List.mem_cons.1 h with rfl | h
      · simp [hg] at hmark
      rcases List.mem_append.1 h with h | h
      · cases gs with
        | nil => cases h
        | cons m' gs =>
          simp only [splitSign] at h
          split at h
          · rename_i hsign
            obtain rfl := List.mem_singleton.1 h
            simp [hg] at hsign
          · cases h
      · exact isDigit_ne_point (List.all_eq_true.1 List.all_takeWhile g h) hg
    · cases h

/-- An exponent starts with a mark, which is no digit. -/
theorem all_isDigit_exponent (h : (splitExponent gs).1 ≠ []) :
    (splitExponent gs).1.all isDigit = false := by
  cases gs with
  | nil => exact absurd rfl h
  | cons m gs =>
    simp only [splitExponent] at h ⊢
    split at h
    · rename_i hmark
      have hm : isDigit m = false := by
        simp only [Bool.or_eq_true, decide_eq_true_eq] at hmark
        rcases hmark with hm | hm <;> rw [isDigit, hm] <;> decide
      rw [if_pos hmark, List.all_cons, hm, Bool.false_and]
    · exact absurd rfl h

theorem fault_malformed (gs : List Glyph) :
    LexErrorKind.malformedNumber.fault (Glyph.text gs) =
      if 1 < gs.countP (·.char = '.') then .manyPoints
      else if gs.getLast?.map Glyph.char = some '.' then .finalPoint
      else if gs.all isDigit then .wideInteger
      else .wideFloat := by
  simp only [LexErrorKind.fault, Glyph.text, String.toList_ofList, List.countP_map, List.getLast?_map,
    List.all_map]
  rfl

/-! The characters of a number: a mantissa of digits and points, and an exponent. -/

section Number

variable {mantissa exponent : List Glyph}

theorem isDigit_or_point_of_mem_mantissa (hg : isDigit g = true) (tail : List Glyph) :
    ∀ x ∈ g :: tail.takeWhile isDigitOrPoint, isDigit x = true ∨ x.char = '.' := by
  intro x hx
  rcases List.mem_cons.1 hx with rfl | hx
  · exact .inl hg
  · simpa [isDigitOrPoint] using List.all_eq_true.1 List.all_takeWhile x hx

/-- A mantissa that does not end in a digit ends in a point. -/
theorem getLast?_eq_point (hm : ∀ x ∈ mantissa, isDigit x = true ∨ x.char = '.')
    (hlast : mantissa.getLast?.all isDigit = false) :
    mantissa.getLast?.map Glyph.char = some '.' := by
  cases hx : mantissa.getLast? with
  | none => simp [hx] at hlast
  | some x =>
    have hdigit : isDigit x = false := by simpa [hx] using hlast
    have hpoint := (hm x (List.mem_of_getLast? hx)).resolve_left (by simp [hdigit])
    rw [Option.map_some, hpoint]

theorem getLast?_ne_point {gs : List Glyph} (hlast : gs.getLast?.all isDigit = true) :
    gs.getLast?.map Glyph.char ≠ some '.' := by
  cases hx : gs.getLast? with
  | none => simp
  | some x =>
    rw [hx] at hlast
    simpa using isDigit_ne_point hlast

theorem getLast?_append_all_isDigit (hm : mantissa.getLast?.all isDigit = true)
    (he : exponent.getLast?.all isDigit = true) :
    (mantissa ++ exponent).getLast?.all isDigit = true := by
  rw [List.getLast?_append]
  cases hx : exponent.getLast? with
  | none => exact hm
  | some x => rwa [hx] at he

/-- An exponent adds no points. -/
theorem countP_point_append (he : ∀ x ∈ exponent, x.char ≠ '.') :
    (mantissa ++ exponent).countP (·.char = '.') = mantissa.countP (·.char = '.') := by
  have hnone : exponent.countP (·.char = '.') = 0 := by
    simpa [List.countP_eq_zero] using he
  rw [List.countP_append, hnone, Nat.add_zero]

/-- A number is all digits exactly if it has neither an exponent nor a point. -/
theorem all_isDigit_append_iff (hm : ∀ x ∈ mantissa, isDigit x = true ∨ x.char = '.')
    (he : exponent ≠ [] → exponent.all isDigit = false) :
    (mantissa ++ exponent).all isDigit = true ↔
      (exponent.isEmpty && decide (mantissa.countP (·.char = '.') = 0)) = true := by
  rw [List.all_append, Bool.and_eq_true, Bool.and_eq_true, List.isEmpty_iff, decide_eq_true_eq,
    List.countP_eq_zero]
  constructor
  · rintro ⟨hdigits, hexponent⟩
    constructor
    · by_contra hne
      rw [he hne] at hexponent
      cases hexponent
    · intro x hx
      simpa using isDigit_ne_point (List.all_eq_true.1 hdigits x hx)
  · rintro ⟨rfl, hpoints⟩
    refine ⟨List.all_eq_true.2 fun x hx => ?_, rfl⟩
    exact (hm x hx).resolve_right (by simpa using hpoints x hx)

end Number

theorem fault_number {tail : List Glyph} (hg : isDigit g = true)
    (h : (number g tail).result = .error fault) :
    fault = fault.kind.fault (Glyph.text (number g tail).glyphs) := by
  have hmantissa := isDigit_or_point_of_mem_mantissa hg tail
  unfold number at *
  dsimp only at *
  generalize g :: tail.takeWhile isDigitOrPoint = mantissa at *
  have hexponent : ∀ x ∈ (splitExponent (tail.dropWhile isDigitOrPoint)).1, x.char ≠ '.' :=
    fun _ => char_ne_point_of_mem_exponent
  have hmark : (splitExponent (tail.dropWhile isDigitOrPoint)).1 ≠ [] →
      (splitExponent (tail.dropWhile isDigitOrPoint)).1.all isDigit = false := all_isDigit_exponent
  generalize (splitExponent (tail.dropWhile isDigitOrPoint)).1 = exponent at *
  have hall := all_isDigit_append_iff hmantissa hmark
  by_cases hpoints : 1 < mantissa.countP (·.char = '.')
  · rw [if_pos hpoints] at h ⊢
    cases h
    rw [LexFault.kind, fault_malformed, if_pos hpoints]
  rw [if_neg hpoints] at h ⊢
  cases hlast : mantissa.getLast?.all isDigit with
  | false =>
    simp only [hlast, Bool.not_false, ↓reduceIte] at h ⊢
    cases h
    rw [LexFault.kind, fault_malformed, if_neg hpoints, if_pos (getLast?_eq_point hmantissa hlast)]
  | true =>
    simp only [hlast, Bool.not_true, Bool.false_eq_true, ↓reduceIte] at h ⊢
    rw [← countP_point_append hexponent] at hpoints
    have hfinal (he : exponent.getLast?.all isDigit = true) :=
      getLast?_ne_point (getLast?_append_all_isDigit hlast he)
    split at h
    · rename_i hinteger
      split at h
      · cases h
      · cases h
        have hempty : exponent = [] := List.isEmpty_iff.1 (Bool.and_eq_true_iff.1 hinteger).1
        rw [LexFault.kind, fault_malformed, if_neg hpoints, if_neg (hfinal (by rw [hempty]; rfl)),
          if_pos (hall.2 hinteger)]
    · rename_i hfloat
      split at h
      · cases h
        rfl
      · rename_i hdigit
        split at h
        · cases h
        · cases h
          rw [LexFault.kind, fault_malformed, if_neg hpoints, if_neg (hfinal (by simpa using hdigit)),
            if_neg (mt hall.1 hfloat)]

theorem fault_read {tail : List Glyph} (h : (read g tail).result = .error fault) :
    fault = fault.kind.fault (Glyph.text (read g tail).glyphs) := by
  unfold read at *
  split at h
  · cases h
  · rename_i hword
    rw [if_neg hword]
    split at h
    · rename_i hdigit
      rw [if_pos hdigit]
      exact fault_number hdigit h
    · unfold symbol operator at h
      repeat' split at h
      all_goals cases h
      rfl

end Lexeme

/-- An error that some text starts with. -/
def LexError.IsLexed (e : LexError) : Prop := ∃ g tail, (Lexeme.read g tail).answer e.pos = .error e

/-- The kind and the lexeme of an error say what is wrong. -/
theorem LexError.IsLexed.fault_eq {e : LexError} (h : e.IsLexed) : e.fault = e.kind.fault e.lexeme := by
  obtain ⟨g, tail, hread⟩ := h
  unfold Lexeme.answer at hread
  split at hread
  · cases hread
  · rename_i fault hf
    rw [Except.error.injEq] at hread
    rw [← hread]
    exact Lexeme.fault_read hf

namespace TokenStream

theorem error_isLexed_of_mem_scan {pos : Position} {gs : List Glyph} {e : LexError}
    (h : .error e ∈ (scan pos gs).1) : e.IsLexed := by
  fun_induction scan pos gs with
  | case1 pos gs gap hgap => simp at h
  | case2 pos gs gap g tail hgap lexeme here more ending hscan ih =>
    rcases List.mem_cons.1 h with h | h
    · have hpos : e.pos = here := by
        unfold Lexeme.answer at h
        split at h
        · cases h
        · cases h; rfl
      exact ⟨g, tail, hpos ▸ h.symm⟩
    · exact ih (by rwa [hscan])

theorem error_isLexed_of_mem_ofBytes {bytes : List UInt8} {failure : Option String} {e : LexError}
    (h : .error (.lexical e) ∈ (ofBytes bytes failure).answers) : e.IsLexed := by
  rcases List.mem_append.1 h with h | h
  · obtain ⟨answer, ha, hmap⟩ := List.mem_map.1 h
    cases answer with
    | ok t => cases hmap
    | error e' =>
      cases hmap
      exact error_isLexed_of_mem_scan ha
  · cases failure <;> simp at h

end TokenStream

/-! ## Texts that differ in layout -/

/-- Tokens of one kind and text, or errors of one kind about one lexeme. -/
inductive AgreeingAnswer : Except ScanError Token → Except ScanError Token → Prop
  | token {t u : Token} (hk : t.kind = u.kind) (ht : t.text = u.text) : AgreeingAnswer (.ok t) (.ok u)
  | lexical {e e' : LexError} (hk : e.kind = e'.kind) (hl : e.lexeme = e'.lexeme) :
      AgreeingAnswer (.error (.lexical e)) (.error (.lexical e'))
  | unreadable (pos pos' : Position) (cause : String) :
      AgreeingAnswer (.error (.unreadable pos cause)) (.error (.unreadable pos' cause))

/-- Answers of texts that agree so far are the same up to places. -/
theorem AgreeingAnswer.same {a b : List (Except ScanError Token)} (h : List.Forall₂ AgreeingAnswer a b)
    (ha : ∀ e, .error (.lexical e) ∈ a → e.IsLexed) (hb : ∀ e, .error (.lexical e) ∈ b → e.IsLexed) :
    List.Forall₂ SameAnswer a b := by
  induction h with
  | nil => exact .nil
  | cons hfirst _ ih =>
    refine .cons ?_ (ih (fun e he => ha e (.tail _ he)) fun e he => hb e (.tail _ he))
    cases hfirst with
    | token hk ht => exact .token ⟨hk, ht⟩
    | unreadable pos pos' cause => exact .error rfl
    | @lexical e e' hk hl =>
      have hfault : e.fault = e'.fault := by
        rw [(ha e (.head _)).fault_eq, (hb e' (.head _)).fault_eq, hk, hl]
      exact .error (by simp [ScanError.unplaced, LexError.unplaced, hfault, hl])

namespace Compilation

theorem map_eq_of_rel {α β : Type} {f : α → β} {x y : Option α}
    (h : Option.Rel (fun a b => f a = f b) x y) : x.map f = y.map f := by
  cases h with
  | none => rfl
  | some hab => exact congrArg some hab

/-- Texts whose tokens and lexical errors agree, whatever their places, are compiled to the same
functions in the same module. The errors agree in all but their places, and so do the failures to read
on. -/
theorem ofSource_layout {a b : List UInt8} {failure failure' : Option String}
    (h : List.Forall₂ AgreeingAnswer (TokenStream.ofBytes a failure).answers
      (TokenStream.ofBytes b failure').answers) (keepGoing : Bool) (name name' : String) :
    (ofSource keepGoing name a failure).symbols = (ofSource keepGoing name' b failure').symbols ∧
    (ofSource keepGoing name a failure).generator = (ofSource keepGoing name' b failure').generator ∧
    (ofSource keepGoing name a failure).errors.map CompileError.unplaced =
      (ofSource keepGoing name' b failure').errors.map CompileError.unplaced ∧
    (ofSource keepGoing name a failure).interruption?.map Interruption.unplaced =
      (ofSource keepGoing name' b failure').interruption?.map Interruption.unplaced := by
  have hsame := AgreeingAnswer.same h (fun _ => TokenStream.error_isLexed_of_mem_ofBytes)
    fun _ => TokenStream.error_isLexed_of_mem_ofBytes
  have hresults := Reading.results_same (c := .ofStream (.ofBytes a failure))
    (d := .ofStream (.ofBytes b failure')) ⟨.none, hsame⟩
  have hagrees := agrees_ofResults .inl diagnoses_of_same (congrArg CompileError.lowering) hresults
    keepGoing .initial
  refine ⟨hagrees.symbols, hagrees.generator, ?_, map_eq_of_rel hagrees.interruption⟩
  rw [← List.forall₂_eq_eq_eq, List.forall₂_map_left_iff, List.forall₂_map_right_iff]
  exact hagrees.errors

/-- A text of two lines, and the same with a comment and fewer blanks. -/
theorem ofSource_layout_comment :
    List.Forall₂ AgreeingAnswer (TokenStream.ofBytes "x $\n; 1.2.3".toUTF8.toList none).answers
      (TokenStream.ofBytes "x$ # end\n;1.2.3".toUTF8.toList none).answers ∧
    (ofSource true "s" "x $\n; 1.2.3".toUTF8.toList none).generator =
      (ofSource true "t" "x$ # end\n;1.2.3".toUTF8.toList none).generator ∧
    (ofSource true "s" "x $\n; 1.2.3".toUTF8.toList none).errors.map CompileError.pos =
      [⟨1, 1, 0⟩, ⟨2, 3, 6⟩] ∧
    (ofSource true "t" "x$ # end\n;1.2.3".toUTF8.toList none).errors.map CompileError.pos =
      [⟨1, 1, 0⟩, ⟨2, 2, 10⟩] ∧
    (ofSource true "s" "x $\n; 1.2.3".toUTF8.toList none).errors.map CompileError.unplaced =
      (ofSource true "t" "x$ # end\n;1.2.3".toUTF8.toList none).errors.map CompileError.unplaced := by
  have hspaced : (TokenStream.ofBytes "x $\n; 1.2.3".toUTF8.toList none).answers =
      [.ok ⟨.identifier, "x", ⟨1, 1, 0⟩⟩, .error (.lexical ⟨.unrecognized, "$", ⟨1, 3, 2⟩⟩),
        .ok ⟨.semicolon, ";", ⟨2, 1, 4⟩⟩, .error (.lexical ⟨.manyPoints, "1.2.3", ⟨2, 3, 6⟩⟩)] := by
    with_unfolding_all rfl
  have hcommented : (TokenStream.ofBytes "x$ # end\n;1.2.3".toUTF8.toList none).answers =
      [.ok ⟨.identifier, "x", ⟨1, 1, 0⟩⟩, .error (.lexical ⟨.unrecognized, "$", ⟨1, 2, 1⟩⟩),
        .ok ⟨.semicolon, ";", ⟨2, 1, 9⟩⟩, .error (.lexical ⟨.manyPoints, "1.2.3", ⟨2, 2, 10⟩⟩)] := by
    with_unfolding_all rfl
  have hagree : List.Forall₂ AgreeingAnswer
      (TokenStream.ofBytes "x $\n; 1.2.3".toUTF8.toList none).answers
      (TokenStream.ofBytes "x$ # end\n;1.2.3".toUTF8.toList none).answers := by
    rw [hspaced, hcommented]
    exact .cons (.token rfl rfl) (.cons (.lexical rfl rfl) (.cons (.token rfl rfl)
      (.cons (.lexical rfl rfl) .nil)))
  obtain ⟨-, hgenerator, herrors, -⟩ := ofSource_layout hagree true "s" "t"
  exact ⟨hagree, hgenerator, by with_unfolding_all rfl, by with_unfolding_all rfl, herrors⟩

end Compilation

end ScalarLang
