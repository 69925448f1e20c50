import ScalarLang.Proofs.Registration
import ScalarLang.Proofs.Spelling
/-!
# Names inside a function

In the text of a function its parameters, the label of its block and its results share one namespace.
Results are numbered and parameters are words, so that these never meet; but every block has the same
label, and a parameter may be called just so. `nodup_localNames_iff`: the names are different exactly if
no parameter is.
-/
namespace ScalarLang

open IR

/-! ## Words as they are written -/

theorem isPlain_of_isWordPart {c : Char} (h : Lexeme.isWordPart (.plain c) = true) :
    Name.isPlain c.val.toUInt8 = true := by
  have hlow : c.val.toNat < 0x80 := (Lexes.toNat_of_isWordPart h).2
  have hbyte : Char.ofUInt8 c.val.toUInt8 = c := by
    apply Char.ext
    apply UInt32.toNat_inj.1
    show c.val.toUInt8.toUInt32.toNat = c.val.toNat
    rw [UInt8.toNat_toUInt32, UInt32.toNat_toUInt8]
    omega
  change (Lexeme.isWordStart c || Numeral.isDigit c) = true at h
  simp only [Lexeme.isWordStart, Numeral.isDigit, Bool.or_eq_true, Bool.and_eq_true,
    decide_eq_true_eq] at h
  have halphanum : c.isAlphanum = (c.isUpper || c.isLower || c.isDigit) := rfl
  simp only [Name.isPlain, hbyte, halphanum]
  rcases h with ((rfl | ⟨hl, hu⟩) | ⟨hl, hu⟩) | ⟨hl, hu⟩
  · decide
  · have hlower : c.isLower = true := Bool.and_eq_true_iff.2 ⟨decide_eq_true hl, decide_eq_true hu⟩
    simp [hlower]
  · have hupper : c.isUpper = true := decide_eq_true ⟨hl, hu⟩
    simp [hupper]
  · have hdigit : c.isDigit = true := Bool.and_eq_true_iff.2 ⟨decide_eq_true hl, decide_eq_true hu⟩
    simp [hdigit]

/-- The letters of a word: the first is no digit. -/
theorem letters_of_isName {name : String} (h : isName name = true) :
    ∃ c cs, name.toList = c :: cs ∧ Numeral.isDigit c = false ∧
      ∀ x ∈ c :: cs, Lexeme.isWordPart (.plain x) = true := by
  unfold isName at h
  split at h
  · cases h
  · rename_i c cs hcs
    simp only [Bool.and_eq_true, List.all_eq_true] at h
    obtain ⟨⟨hc, hall⟩, -⟩ := h
    refine ⟨c, cs, hcs, Bool.eq_false_iff.2 fun hdigit => ?_, List.forall_mem_cons.2 ⟨?_, hall⟩⟩
    · rw [Lexes.isWordStart_of_isDigit hdigit] at hc
      cases hc
    · show (Lexeme.isWordStart c || Numeral.isDigit c) = true
      rw [hc, Bool.true_or]

/-- A word needs no quotes. -/
theorem text_of_isName {name : String} (h : isName name = true) : Name.text name = name := by
  obtain ⟨c, cs, hcs, hdigit, hparts⟩ := letters_of_isName h
  have hnumber : Name.isNumber name = false := by simp [Name.isNumber, hcs, Numeral.natural?, hdigit]
  have hplain : name.toUTF8.toList.all Name.isPlain = true := by
    rw [← String.ofList_toList (s := name), Glyph.toList_toUTF8, hcs, List.all_eq_true]
    intro b hb
    obtain ⟨x, hx, hxb⟩ := List.mem_flatMap.1 hb
    have hlow : x.val ≤ 127 := Nat.le_of_lt_succ (Lexes.toNat_of_isWordPart (hparts x hx)).2
    rw [String.utf8EncodeChar_eq_singleton (Char.utf8Size_eq_one_iff.2 hlow),
      List.mem_singleton] at hxb
    rw [hxb]
    exact isPlain_of_isWordPart (hparts x hx)
  rw [Name.text, hnumber, hplain]
  rfl

/-- A word is not the text of a number. -/
theorem ne_toString_of_isName {name : String} (h : isName name = true) (n : Nat) :
    name ≠ toString n := by
  rintro rfl
  obtain ⟨c, cs, hcs, hdigit, -⟩ := letters_of_isName h
  have hdigits : (toString n).toList = Numeral.digitChars n := by
    show n.repr.toList = _
    rw [Nat.repr_eq_ofList_toDigits, String.toList_ofList]
    rfl
  rw [hdigits] at hcs
  have hc : c ∈ Numeral.digitChars n := by simp [hcs]
  rw [Numeral.isDigit_of_mem_digitChars hc] at hdigit
  cases hdigit

/-! ## Names of a function -/

/-- The names of a function's parameters, of its block and of its results, as they are written. -/
def IR.Function.localNames (f : Function) (b : Block) : List String :=
  (List.range f.arity).map f.paramText ++
    ("%" ++ f.labelText b) :: b.code.mapIdx fun i instr => f.operandText (.result instr.ty i)

namespace Generator

variable {g : Generator} {f : Function} {b : Block}

theorem map_paramText (hparams : ∀ name ∈ f.params, isName name = true) :
    (List.range f.arity).map f.paramText = f.params.map ("%" ++ ·) := by
  refine List.ext_getElem (by simp [Function.arity]) fun i hi hi' => ?_
  have hlt : i < f.params.length := by simpa using hi'
  have hword := hparams f.params[i] (List.getElem_mem hlt)
  simp only [List.getElem_map, List.getElem_range, Function.paramText,
    List.getElem?_eq_getElem hlt]
  split
  · rename_i hempty
    rw [Option.some.inj hempty] at hword
    cases hword
  · rename_i hnone
    cases hnone
  · rename_i name _ hsome
    cases hsome
    rw [text_of_isName hword]

/-- Parameters that are words are called by them, and results are numbered from zero on. -/
theorem localNames_eq (hparams : ∀ name ∈ f.params, isName name = true) (hb : f.body? = some b)
    (hlabel : b.label = some entry) :
    f.localNames b =
      (f.params ++ entry :: (List.range b.code.length).map toString).map ("%" ++ ·) := by
  have hunnamed : f.unnamed f.arity = 0 := by
    refine List.countP_eq_zero.2 fun name hname => ?_
    have hword := hparams name (List.mem_of_mem_take hname)
    rintro hempty
    rw [of_decide_eq_true hempty] at hword
    cases hword
  have hfirst : f.firstResult = 0 := by simp [Function.firstResult, hunnamed, hb, hlabel]
  have hentry : f.labelText b = entry := by
    rw [Function.labelText, hlabel]
    exact text_of_isName (by decide)
  have hresults : (b.code.mapIdx fun i instr => f.operandText (.result instr.ty i)) =
      (List.range b.code.length).map fun i => "%" ++ toString i := by
    refine List.ext_getElem (by simp) fun i hi hi' => ?_
    simp only [List.getElem_mapIdx, List.getElem_map, List.getElem_range, Function.operandText,
      hfirst, Nat.zero_add]
    rfl
  rw [Function.localNames, map_paramText hparams, hentry, hresults, List.map_append, List.map_cons,
    List.map_map]
  rfl

theorem nodup_map_toString (n : Nat) : ((List.range n).map (toString : Nat → String)).Nodup :=
  List.Nodup.map_on (fun _ _ _ _ h => toString_inj.1 h) List.nodup_range

theorem nodup_localNames_of_words (hparams : ∀ name ∈ f.params, isName name = true)
    (hnodup : f.params.Nodup) (hb : f.body? = some b) (hlabel : b.label = some entry) :
    (f.localNames b).Nodup ↔ entry ∉ f.params := by
  have hnumbers : entry ∉ (List.range b.code.length).map toString := by
    intro hentry
    obtain ⟨n, -, hn⟩ := List.mem_map.1 hentry
    exact ne_toString_of_isName (by decide) n hn.symm
  rw [localNames_eq hparams hb hlabel, List.nodup_map_iff fun x y h => (String.append_right_inj _).1 h,
    List.nodup_append, List.nodup_cons]
  constructor
  · rintro ⟨-, -, hdisjoint⟩ hentry
    exact hdisjoint _ hentry entry (by simp) rfl
  · intro hentry
    refine ⟨hnodup, ⟨hnumbers, nodup_map_toString _⟩, ?_⟩
    rintro name hname _ hother rfl
    rcases List.mem_cons.1 hother with rfl | hother
    · exact hentry hname
    · obtain ⟨n, -, hn⟩ := List.mem_map.1 hother
      exact ne_toString_of_isName (hparams name hname) n hn.symm

/-- In a function with a body the names of the parameters, of the block and of the results are different
exactly if no parameter is called as the block is. -/
theorem nodup_localNames_iff (hg : g.Reachable) (hf : f ∈ g.module.functions)
    (hb : f.body? = some b) : (f.localNames b).Nodup ↔ entry ∉ f.params := by
  cases hg.written f hf with
  | library hf =>
    simp only [IR.Module.library, List.mem_cons, List.not_mem_nil, or_false] at hf
    rcases hf with rfl | rfl
    · have hnames : Function.printNumber.localNames b = ["%x", "%0", "%1"] := by
        cases hb
        with_unfolding_all rfl
      rw [hnames]
      decide
    · have hnames : Function.printCharacter.localNames b = ["%x", "%0", "%1", "%2"] := by
        cases hb
        with_unfolding_all rfl
      rw [hnames]
      decide
  | power => cases hb
  | named hp hvalid hlabel =>
    simp only [Prototype.isSource, Bool.and_eq_true, List.all_eq_true] at hp
    exact nodup_localNames_of_words hp.2 hvalid.distinct hb (hlabel b hb)
  | expression hlabel =>
    cases hb
    exact nodup_localNames_of_words (by simp) .nil rfl hlabel

/-- The function of the text `def f(x) x / f(1)`. -/
def recursiveFunction : Function :=
  ⟨.named "f", ["x"], .double, some ⟨some entry,
    [.call (.named "f") [.float (.ofInt64 1)], .arith .div .float (.param 0) (.result .double 0)],
    .result .double 1⟩⟩

theorem nodup_localNames_iff_recursive :
    (initial.item recursive).generator.Reachable ∧
    recursiveFunction ∈ (initial.item recursive).generator.module.functions ∧
    ∃ b, recursiveFunction.body? = some b ∧
      recursiveFunction.localNames b = ["%x", "%entry", "%0", "%1"] ∧
      (recursiveFunction.localNames b).Nodup := by
  have hg : (initial.item recursive).generator.Reachable := .item .initial isParsed_recursive
  have hmem : recursiveFunction ∈ (initial.item recursive).generator.module.functions :=
    List.mem_of_getElem? (i := 2) (by with_unfolding_all rfl)
  exact ⟨hg, hmem, _, rfl, by with_unfolding_all rfl,
    (nodup_localNames_iff hg hmem rfl).2 (by decide)⟩

/-- The text `def f(entry) entry`. -/
def labelled : Item :=
  .define ⟨"f", ["entry"], ⟨1, 5, 4⟩⟩ (.name "entry" ⟨1, 14, 13⟩) ⟨1, 1, 0⟩

theorem isParsed_labelled : labelled.IsParsed :=
  ⟨"def f(entry) entry".toUTF8.toList, none, _, .start, by with_unfolding_all rfl⟩

/-- A function whose parameter is called as its block is. -/
def labelledFunction : Function :=
  ⟨.named "f", ["entry"], .double, some ⟨some entry, [], .param 0⟩⟩

/-- A function whose parameter is called as its block is accepted, and has that name twice. -/
theorem localNames_labelled :
    labelled.IsParsed ∧ (initial.item labelled).result = .ok (.named "f") ∧
    labelledFunction ∈ (initial.item labelled).generator.module.functions ∧
    labelledFunction.text = "define double @f(double %entry) \x7b\nentry:\n\tret double %entry\n\x7d" ∧
    ∃ b, labelledFunction.body? = some b ∧
      labelledFunction.localNames b = ["%entry", "%entry"] ∧
      ¬ (labelledFunction.localNames b).Nodup := by
  have hnames : labelledFunction.localNames ⟨some entry, [], .param 0⟩ = ["%entry", "%entry"] := by
    with_unfolding_all rfl
  refine ⟨isParsed_labelled, by with_unfolding_all rfl,
    List.mem_of_getElem? (i := 2) (by with_unfolding_all rfl), by with_unfolding_all rfl, _, rfl,
    hnames, ?_⟩
  rw [hnames]
  decide

end Generator

end ScalarLang
