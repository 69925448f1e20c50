import ScalarLang.Proofs.Decoding
import ScalarLang.Proofs.NumberText
/-!
# Texts and the tokens that they spell

`Lexes cs ts` says that reading the characters `cs` gives the tokens `ts`, wherever in a text they stand,
and no error. It has a rule for every kind of token; a word or a number has to know what follows it,
since reading takes the longest lexeme.
-/
namespace ScalarLang

/-! ## Plain characters -/

namespace Glyph

/-- A character that takes one byte. -/
def plain (c : Char) : Glyph := ⟨c, 1⟩

theorem text_map_plain (cs : List Char) : text (cs.map plain) = String.ofList cs := by
  simp [text, plain, Function.comp_def]

theorem decode_cons_plain {a : UInt8} (h : a < 0x80) (bytes : List UInt8) :
    decode (a :: bytes) = plain (Char.ofNat a.toNat) :: decode bytes := by
  have hfirst : first a bytes = plain (Char.ofNat a.toNat) := if_pos h
  rw [decode, hfirst]
  rfl

/-- A text of characters below 128 has one byte for each of them. -/
theorem decode_toUTF8 {cs : List Char} (h : ∀ c ∈ cs, c.val < 0x80) :
    decode (String.ofList cs).toUTF8.toList = cs.map plain := by
  rw [decode_ofList]
  refine List.map_congr_left fun c hc => ?_
  have hone : c.utf8Size = 1 := Char.utf8Size_eq_one_iff.2 (by have := h c hc; grind)
  rw [ofChar, hone]
  rfl

end Glyph

/-! ## Steps of reading -/

namespace TokenStream

variable {g : Glyph} {gs : List Glyph}

/-- A blank only moves the place at which reading starts. -/
theorem scan_blank (pos : Position) (hb : Text.isBlank g.char = true) (hn : g.char ≠ '#') :
    scan pos (g :: gs) = scan (pos.advance g) gs := by
  have hgap : splitGap false (g :: gs) = (g :: (splitGap false gs).1, (splitGap false gs).2) := by
    simp [splitGap, hb, hn]
  -- the gap after the blank is split off on both sides, so both go on with the same lexeme
  conv => lhs; rw [scan]
  split
  · rename_i gap heq
    rw [hgap, Prod.mk.injEq] at heq
    obtain ⟨rfl, hrest⟩ := heq
    rw [scan]
    split
    · rename_i gap' heq'
      rw [heq']
      rfl
    · rename_i heq'
      rw [heq'] at hrest
      cases hrest
  · rename_i gap g' tail heq
    rw [hgap, Prod.mk.injEq] at heq
    obtain ⟨rfl, hrest⟩ := heq
    rw [scan]
    split
    · rename_i heq'
      rw [heq'] at hrest
      cases hrest
    · rename_i gap' g'' tail' heq'
      rw [heq'] at hrest ⊢
      cases hrest
      rfl

theorem scan_lexeme (pos : Position) (hb : Text.isBlank g.char = false) (hn : g.char ≠ '#') :
    (scan pos (g :: gs)).1 = (Lexeme.read g gs).answer pos ::
      (scan (pos.after (Lexeme.read g gs).glyphs) (Lexeme.read g gs).rest).1 := by
  have hgap : splitGap false (g :: gs) = ([], g :: gs) := by simp [splitGap, hb, hn]
  rw [scan]
  split
  · rename_i heq
    rw [hgap] at heq
    cases heq
  · rename_i heq
    rw [hgap] at heq
    cases heq
    rfl

end TokenStream

/-! ## Tokens without their places -/

/-- A token without its place. -/
def Token.unplaced (t : Token) : Token := { t with pos := .unknown }

/-- These characters are read as these tokens, whatever place they start at. -/
structure Lexes (cs : List Char) (ts : List Token) : Prop where
  plain : ∀ c ∈ cs, c.val < 0x80
  scan : ∀ pos, ∃ us : List Token, (TokenStream.scan pos (cs.map Glyph.plain)).1 = us.map .ok ∧
    us.map Token.unplaced = ts

/-- What may follow a word or a number without being taken for a part of it. -/
def Breaks (cs : List Char) : Prop :=
  ∀ c, cs.head? = some c → Lexeme.isWordPart (.plain c) = false ∧ c ≠ '.'

namespace Lexes

variable {cs : List Char} {ts : List Token}

theorem nil : Lexes [] [] := by
  refine ⟨by simp, fun pos => ⟨[], ?_, rfl⟩⟩
  rw [TokenStream.scan]
  rfl

theorem blank {c : Char} (hc : c.val < 0x80) (hb : Text.isBlank c = true) (h : Lexes cs ts) :
    Lexes (c :: cs) ts := by
  refine ⟨List.forall_mem_cons.2 ⟨hc, h.plain⟩, fun pos => ?_⟩
  have hn : c ≠ '#' := by
    rintro rfl
    exact absurd hb (by decide)
  rw [List.map_cons, TokenStream.scan_blank (g := .plain c) pos hb hn]
  exact h.scan _

theorem space (h : Lexes cs ts) : Lexes (' ' :: cs) ts := h.blank (by decide) (by decide)

/-- A lexeme that starts with a character of no gap, and the tokens after it. -/
theorem lexeme {c : Char} {w : List Char} {kind : TokenKind} (hb : Text.isBlank c = false)
    (hn : c ≠ '#') (hw : ∀ x ∈ c :: w, x.val < 0x80)
    (hr : Lexeme.read (.plain c) ((w ++ cs).map Glyph.plain) =
      ⟨(c :: w).map Glyph.plain, cs.map Glyph.plain, .ok kind⟩) (h : Lexes cs ts) :
    Lexes (c :: w ++ cs) (⟨kind, String.ofList (c :: w), .unknown⟩ :: ts) := by
  refine ⟨List.forall_mem_append.2 ⟨hw, h.plain⟩, fun pos => ?_⟩
  obtain ⟨us, hus, hts⟩ := h.scan (pos.after ((c :: w).map Glyph.plain))
  refine ⟨⟨kind, String.ofList (c :: w), pos⟩ :: us, ?_, by rw [List.map_cons, hts]; rfl⟩
  rw [List.cons_append, List.map_cons, TokenStream.scan_lexeme (g := .plain c) pos hb hn, hr]
  simp only [Lexeme.answer, Glyph.text_map_plain, hus]
  rfl

/-! ## Words -/

/-- Characters of one class before something that starts with another. -/
theorem span_map_plain {p : Glyph → Bool} {w : List Char} (hw : ∀ c ∈ w, p (.plain c) = true)
    (hb : ∀ c, cs.head? = some c → p (.plain c) = false) :
    ((w ++ cs).map Glyph.plain).takeWhile p = w.map Glyph.plain ∧
      ((w ++ cs).map Glyph.plain).dropWhile p = cs.map Glyph.plain := by
  have hall : ∀ g ∈ w.map Glyph.plain, p g = true := by simpa using hw
  rw [List.map_append, List.takeWhile_append_of_pos hall, List.dropWhile_append_of_pos hall]
  cases cs with
  | nil => simp
  | cons c cs => simp [hb c rfl]

theorem toNat_of_isWordPart {c : Char} (h : Lexeme.isWordPart (.plain c) = true) :
    0x30 ≤ c.toNat ∧ c.toNat < 0x80 := by
  change (Lexeme.isWordStart c || Numeral.isDigit c) = true at h
  simp only [Lexeme.isWordStart, Numeral.isDigit, Bool.or_eq_true, Bool.and_eq_true,
    decide_eq_true_eq] at h
  rcases h with ((rfl | ⟨hl, hu⟩) | ⟨hl, hu⟩) | ⟨hl, hu⟩
  · decide
  · exact ⟨Nat.le_trans (by decide) hl, Nat.lt_of_le_of_lt hu (by decide)⟩
  · exact ⟨Nat.le_trans (by decide) hl, Nat.lt_of_le_of_lt hu (by decide)⟩
  · exact ⟨Nat.le_trans (by decide) hl, Nat.lt_of_le_of_lt hu (by decide)⟩

theorem not_gap_of_isWordPart {c : Char} (h : Lexeme.isWordPart (.plain c) = true) :
    Text.isBlank c = false ∧ c ≠ '#' := by
  obtain ⟨hl, hu⟩ := toNat_of_isWordPart h
  constructor
  · simp only [Text.isBlank, Bool.or_eq_false_iff, Bool.and_eq_false_iff, decide_eq_false_iff_not,
      beq_eq_false_iff_ne]
    omega
  · rintro rfl
    exact absurd hl (by decide)

theorem word (kind : TokenKind) {c : Char} {w : List Char} (hc : Lexeme.isWordStart c = true)
    (hw : ∀ x ∈ w, Lexeme.isWordPart (.plain x) = true)
    (hk : (if (Keyword.ofSpelling? (String.ofList (c :: w))).isSome then .keyword
      else .identifier) = kind) (hb : Breaks cs) (h : Lexes cs ts) :
    Lexes (c :: w ++ cs) (⟨kind, String.ofList (c :: w), .unknown⟩ :: ts) := by
  have hpart : ∀ x ∈ c :: w, Lexeme.isWordPart (.plain x) = true := by
    refine List.forall_mem_cons.2 ⟨?_, hw⟩
    simp [Lexeme.isWordPart, Glyph.plain, hc]
  obtain ⟨hblank, hsign⟩ := not_gap_of_isWordPart (hpart c (by simp))
  obtain ⟨htake, hdrop⟩ := span_map_plain hw fun x hx => (hb x hx).1
  refine lexeme hblank hsign (fun x hx => (toNat_of_isWordPart (hpart x hx)).2) ?_ h
  have hread : Lexeme.read (.plain c) ((w ++ cs).map Glyph.plain) =
      Lexeme.word (.plain c) ((w ++ cs).map Glyph.plain) := if_pos hc
  rw [hread]
  unfold Lexeme.word
  rw [htake, hdrop]
  simp only [← List.map_cons, Glyph.text_map_plain, hk]

theorem name {id : String} (hid : isName id = true) (hb : Breaks cs) (h : Lexes cs ts) :
    Lexes (id.toList ++ cs) (⟨.identifier, id, .unknown⟩ :: ts) := by
  unfold isName at hid
  cases hcs : id.toList with
  | nil => simp [hcs] at hid
  | cons c w =>
    simp only [hcs, Bool.and_eq_true, List.all_eq_true, Option.isNone_iff_eq_none] at hid
    obtain ⟨⟨hc, hw⟩, hk⟩ := hid
    have htext : String.ofList (c :: w) = id := by rw [← hcs, String.ofList_toList]
    have hlex := word .identifier hc hw (by rw [htext, hk]; rfl) hb h
    rwa [htext] at hlex

theorem keyword (k : Keyword) (hb : Breaks cs) (h : Lexes cs ts) :
    Lexes (k.spelling.toList ++ cs) (⟨.keyword, k.spelling, .unknown⟩ :: ts) := by
  have hsome : (Keyword.ofSpelling? k.spelling).isSome = true := by cases k <;> decide
  have hword : ∃ c w, k.spelling.toList = c :: w ∧ Lexeme.isWordStart c = true ∧
      ∀ x ∈ w, Lexeme.isWordPart (.plain x) = true := by
    cases k <;> exact ⟨_, _, rfl, by decide, List.all_eq_true.1 (by decide)⟩
  obtain ⟨c, w, hcs, hc, hw⟩ := hword
  have htext : String.ofList (c :: w) = k.spelling := by rw [← hcs, String.ofList_toList]
  have hlex := word .keyword hc hw (by rw [htext, if_pos hsome]) hb h
  rwa [htext, ← hcs] at hlex

/-! ## Numbers -/

theorem getLast?_isDigit (xs : List Char) {ds : List Char} (hne : ds ≠ []) (hd : ∀ c ∈ ds, Numeral.isDigit c = true) :
    ((xs ++ ds).map Glyph.plain).getLast?.all Lexeme.isDigit = true := by
  rw [List.getLast?_map, List.getLast?_append_of_ne_nil _ hne, List.getLast?_eq_some_getLast hne]
  exact hd _ (List.getLast_mem hne)

theorem isWordStart_of_isDigit {c : Char} (h : Numeral.isDigit c = true) :
    Lexeme.isWordStart c = false := by
  simp only [Numeral.isDigit, Bool.and_eq_true, decide_eq_true_eq] at h
  refine Bool.eq_false_iff.2 fun hw => ?_
  simp only [Lexeme.isWordStart, Bool.or_eq_true, Bool.and_eq_true, decide_eq_true_eq] at hw
  rcases hw with (rfl | ⟨hl, -⟩) | ⟨hl, -⟩
  · exact absurd h.2 (by decide)
  · exact absurd (Nat.le_trans hl h.2) (by decide)
  · exact absurd (Nat.le_trans hl h.2) (by decide)

section Number

variable {whole point mark : List Char}

theorem isDigitOrPoint_of_isDigits {ds : List Char} (h : Numeral.IsDigits ds) :
    (∀ c ∈ ds, Lexeme.isDigitOrPoint (.plain c) = true) ∧
      (ds.map Glyph.plain).countP (·.char = '.') = 0 := by
  refine ⟨fun c hc => ?_, List.countP_eq_zero.2 fun g hg => ?_⟩
  · simp [Lexeme.isDigitOrPoint, Lexeme.isDigit, Glyph.plain, h.2 c hc]
  · obtain ⟨c, hc, rfl⟩ := List.mem_map.1 hg
    have hdigit := h.2 c hc
    simp only [decide_eq_true_eq]
    rintro heq
    rw [show c = '.' from heq] at hdigit
    cases hdigit

/-- The digits and the point of a number: at most one point, and no point at the end. -/
theorem mantissa (hw : Numeral.IsDigits whole) (hp : Numeral.IsFraction point) :
    (∀ c ∈ whole ++ point, Lexeme.isDigitOrPoint (.plain c) = true) ∧
    ((whole ++ point).map Glyph.plain).countP (·.char = '.') = (if point = [] then 0 else 1) ∧
    ((whole ++ point).map Glyph.plain).getLast?.all Lexeme.isDigit = true := by
  obtain ⟨hwhole, hnone⟩ := isDigitOrPoint_of_isDigits hw
  cases hp with
  | none =>
    rw [List.append_nil]
    exact ⟨hwhole, hnone, getLast?_isDigit [] hw.1 hw.2⟩
  | digits hd =>
    obtain ⟨hfraction, hnone'⟩ := isDigitOrPoint_of_isDigits hd
    refine ⟨List.forall_mem_append.2 ⟨hwhole, List.forall_mem_cons.2 ⟨rfl, hfraction⟩⟩, ?_, ?_⟩
    · rw [List.map_append, List.countP_append, hnone, List.map_cons, List.countP_cons, hnone']
      rfl
    · rw [List.append_cons]
      exact getLast?_isDigit _ hd.1 hd.2

/-- A sign is taken from in front of digits, whether it is there or not. -/
theorem splitSign_append {sign ds : List Char} (hs : sign = [] ∨ sign = ['+'] ∨ sign = ['-'])
    (hd : Numeral.IsDigits ds) (more : List Char) :
    Lexeme.splitSign ((sign ++ (ds ++ more)).map Glyph.plain) =
      (sign.map Glyph.plain, (ds ++ more).map Glyph.plain) := by
  rcases hs with rfl | rfl | rfl
  · obtain ⟨d, ds, rfl⟩ := List.exists_cons_of_ne_nil hd.1
    have hdigit := hd.2 d (by simp)
    have hsign : (decide (d = '+') || decide (d = '-')) = false := by
      refine Bool.or_eq_false_iff.2 ⟨decide_eq_false ?_, decide_eq_false ?_⟩ <;> rintro rfl <;>
        exact absurd hdigit (by decide)
    exact if_neg (Bool.eq_false_iff.1 hsign)
  · rfl
  · rfl

/-- The exponent of a number is taken as a whole, and ends in a digit if there is one. -/
theorem exponent (he : Numeral.IsExponent mark) (hb : Breaks cs) :
    (∀ c, (mark ++ cs).head? = some c → Lexeme.isDigitOrPoint (.plain c) = false) ∧
    Lexeme.splitExponent ((mark ++ cs).map Glyph.plain) =
      (mark.map Glyph.plain, cs.map Glyph.plain) ∧
    (mark.map Glyph.plain).getLast?.all Lexeme.isDigit = true := by
  have hdigit : ∀ c, cs.head? = some c → Lexeme.isDigit (.plain c) = false := by
    intro c hc
    exact (Bool.or_eq_false_iff.1 (hb c hc).1).2
  cases he with
  | none =>
    refine ⟨fun c hc => ?_, ?_, rfl⟩
    · exact Bool.or_eq_false_iff.2 ⟨hdigit c hc, decide_eq_false (hb c hc).2⟩
    · cases cs with
      | nil => rfl
      | cons c cs =>
        -- a mark is a letter, and no letter follows a number
        have hmark : (decide (c = 'e') || decide (c = 'E')) = false := by
          refine Bool.or_eq_false_iff.2 ⟨decide_eq_false ?_, decide_eq_false ?_⟩ <;> rintro rfl <;>
            exact absurd (hb _ rfl).1 (by decide)
        exact if_neg (Bool.eq_false_iff.1 hmark)
  | @digits m sign ds hm hs hd =>
    obtain ⟨htake, hdrop⟩ := span_map_plain (p := Lexeme.isDigit) hd.2 hdigit
    have hmark : (decide (m = 'e') || decide (m = 'E')) = true := by simpa using hm
    refine ⟨?_, ?_, getLast?_isDigit (m :: sign) hd.1 hd.2⟩
    · rintro c ⟨⟩
      rcases hm with rfl | rfl <;> rfl
    · have hsplit (gs : List Glyph) : Lexeme.splitExponent (.plain m :: gs) =
          (.plain m :: ((Lexeme.splitSign gs).1 ++ (Lexeme.splitSign gs).2.takeWhile Lexeme.isDigit),
            (Lexeme.splitSign gs).2.dropWhile Lexeme.isDigit) := if_pos hmark
      rw [List.cons_append, List.append_assoc, List.map_cons, hsplit, splitSign_append hs hd, htake, hdrop]
      simp

/-- What a number is: an integer if it has neither a point nor an exponent. -/
def numberResult (point mark : List Char) (text : String) : Except LexFault TokenKind :=
  if point = [] ∧ mark = [] then
    if (Numeral.int64? text).isSome then .ok .integer else .error .wideInteger
  else if (Numeral.binary64? text).isSome then .ok .float
  else .error .wideFloat

/-- The longest number at the front of a text is taken. -/
theorem number_chars {c : Char} {ds : List Char} (hw : Numeral.IsDigits (c :: ds))
    (hp : Numeral.IsFraction point) (he : Numeral.IsExponent mark) (hb : Breaks cs) :
    Lexeme.number (.plain c) ((ds ++ (point ++ mark) ++ cs).map Glyph.plain) =
      ⟨(c :: (ds ++ (point ++ mark))).map Glyph.plain, cs.map Glyph.plain,
        numberResult point mark (String.ofList (c :: (ds ++ (point ++ mark))))⟩ := by
  obtain ⟨hmantissa, hpoints, hlast⟩ := mantissa hw hp
  obtain ⟨hmark, hsplit, hlast'⟩ := exponent he hb
  rw [List.cons_append] at hmantissa hpoints hlast
  obtain ⟨htake, hdrop⟩ := span_map_plain (List.forall_mem_cons.1 hmantissa).2 hmark
  have hcount : ¬ 1 < if point = [] then 0 else 1 := by split <;> decide
  have hinteger : ((mark.map Glyph.plain).isEmpty && decide ((if point = [] then 0 else 1) = 0)) =
      true ↔ point = [] ∧ mark = [] := by
    by_cases hp : point = [] <;> simp [hp]
  -- one point at most, a digit before the exponent and a digit at its end: no fault applies
  rw [← List.append_assoc, List.append_assoc, ← List.cons_append]
  unfold Lexeme.number
  simp only [htake, hdrop, hsplit, ← List.map_cons, ← List.map_append, hpoints, hlast, hlast']
  rw [if_neg hcount, if_neg (by decide), numberResult]
  simp only [hinteger, Glyph.text_map_plain, Bool.not_true, Bool.false_eq_true, ↓reduceIte]

theorem isWordPart_of_isDigit {c : Char} (h : Numeral.isDigit c = true) :
    Lexeme.isWordPart (.plain c) = true := Bool.or_eq_true_iff.2 (.inr h)

/-- Numbers are spelled with characters below 128. -/
theorem plain_number (hw : Numeral.IsDigits whole) (hp : Numeral.IsFraction point)
    (he : Numeral.IsExponent mark) : ∀ c ∈ whole ++ (point ++ mark), c.val < 0x80 := by
  have hdigits {ds : List Char} (hd : Numeral.IsDigits ds) : ∀ c ∈ ds, c.val < 0x80 :=
    fun c hc => (toNat_of_isWordPart (isWordPart_of_isDigit (hd.2 c hc))).2
  refine List.forall_mem_append.2 ⟨hdigits hw, List.forall_mem_append.2 ⟨?_, ?_⟩⟩
  · cases hp with
    | none => simp
    | digits hd => exact List.forall_mem_cons.2 ⟨by decide, hdigits hd⟩
  · cases he with
    | none => simp
    | digits hm hs hd =>
      refine List.forall_mem_cons.2 ⟨?_, List.forall_mem_append.2 ⟨?_, hdigits hd⟩⟩
      · rcases hm with rfl | rfl <;> decide
      · rcases hs with rfl | rfl | rfl <;> simp

theorem number {kind : TokenKind} (hw : Numeral.IsDigits whole) (hp : Numeral.IsFraction point)
    (he : Numeral.IsExponent mark)
    (hk : numberResult point mark (String.ofList (whole ++ (point ++ mark))) = .ok kind) (hb : Breaks cs)
    (h : Lexes cs ts) : Lexes (whole ++ (point ++ mark) ++ cs)
      (⟨kind, String.ofList (whole ++ (point ++ mark)), .unknown⟩ :: ts) := by
  have hplain := plain_number hw hp he
  obtain ⟨c, ds, rfl⟩ := List.exists_cons_of_ne_nil hw.1
  have hc : Numeral.isDigit c = true := hw.2 c (by simp)
  have hread (gs : List Glyph) : Lexeme.read (.plain c) gs = Lexeme.number (.plain c) gs := by
    have hstart : Lexeme.isWordStart (Glyph.plain c).char = false := isWordStart_of_isDigit hc
    have hdigit : Lexeme.isDigit (.plain c) = true := hc
    unfold Lexeme.read
    rw [hstart, hdigit]
    rfl
  obtain ⟨hblank, hsign⟩ := not_gap_of_isWordPart (isWordPart_of_isDigit hc)
  have hnumber := (hread _).trans (number_chars hw hp he hb)
  rw [List.cons_append] at hk hplain ⊢
  rw [hk] at hnumber
  exact lexeme hblank hsign hplain hnumber h

end Number

theorem integer {v : Int64} (hv : 0 ≤ v) (hb : Breaks cs) (h : Lexes cs ts) :
    Lexes ((toString v).toList ++ cs) (⟨.integer, toString v, .unknown⟩ :: ts) := by
  obtain ⟨n, htext, hread⟩ := Numeral.int64?_toString hv
  have hdigits : Numeral.IsDigits (Numeral.digitChars n) :=
    ⟨Numeral.digitChars_ne_nil n, fun _ => Numeral.isDigit_of_mem_digitChars⟩
  have hresult : numberResult [] [] (String.ofList (Numeral.digitChars n)) = .ok .integer := by
    rw [numberResult, if_pos ⟨rfl, rfl⟩, ← htext, hread]
    rfl
  rw [htext, String.toList_ofList, ← List.append_nil (Numeral.digitChars n)]
  rw [← List.append_nil (Numeral.digitChars n)] at hresult
  exact number hdigits .none .none hresult hb h

theorem float {x : Binary64} (hx : x.isFinite = true) (hs : x.isNegative = false) (hb : Breaks cs)
    (h : Lexes cs ts) : Lexes (x.text.toList ++ cs) (⟨.float, x.text, .unknown⟩ :: ts) := by
  obtain ⟨w, htext, hshape, hread⟩ := Binary64.text_eq hx hs
  rw [htext] at hread ⊢
  rw [String.toList_ofList]
  refine number ⟨w.whole_ne_nil, w.whole_digits⟩ w.isFraction_point w.isExponent_mark ?_ hb h
  rw [numberResult, if_neg (by tauto)]
  show (if (Numeral.binary64? (String.ofList w.chars)).isSome then _ else _) = _
  rw [hread]
  rfl

/-! ## Symbols -/

theorem comma (h : Lexes cs ts) : Lexes (',' :: cs) (⟨.comma, ",", .unknown⟩ :: ts) :=
  lexeme (w := []) (by decide) (by decide) (by simp) rfl h

theorem semicolon (h : Lexes cs ts) : Lexes (';' :: cs) (⟨.semicolon, ";", .unknown⟩ :: ts) :=
  lexeme (w := []) (by decide) (by decide) (by simp) rfl h

theorem openParen (h : Lexes cs ts) : Lexes ('(' :: cs) (⟨.bracket, "(", .unknown⟩ :: ts) :=
  lexeme (w := []) (by decide) (by decide) (by simp) rfl h

theorem closeParen (h : Lexes cs ts) : Lexes (')' :: cs) (⟨.bracket, ")", .unknown⟩ :: ts) :=
  lexeme (w := []) (by decide) (by decide) (by simp) rfl h

/-- Two characters spell an operator only if the second is an equals sign after a comparison or
another equals sign. -/
theorem ofSpelling?_pair {a b : Char} (h : a ∉ ['<', '>', '='] ∨ b ≠ '=') :
    Operator.ofSpelling? (String.ofList [a, b]) = none := by
  refine List.find?_eq_none.2 fun op hop heq => ?_
  have hlist : op.spelling.toList = [a, b] := by rw [beq_iff_eq.1 heq, String.toList_ofList]
  simp only [Operator.all, List.mem_cons, List.not_mem_nil, or_false] at hop
  rcases hop with rfl | rfl | rfl | rfl | rfl | rfl | rfl | rfl | rfl | rfl | rfl <;> cases hlist <;>
    exact absurd h (by decide)

/-- An operator of one character before something that makes no operator with it. -/
theorem operator_one {c : Char} (hc : c ∈ ['+', '-', '*', '/', '^', '<', '>', '='])
    (hcs : ∀ x, cs.head? = some x → c ∉ ['<', '>', '='] ∨ x ≠ '=') (h : Lexes cs ts) :
    Lexes (c :: cs) (⟨.operator, String.ofList [c], .unknown⟩ :: ts) := by
  have hsymbol : Text.isBlank c = false ∧ c ≠ '#' ∧ c.val < 0x80 ∧
      Lexeme.read (.plain c) (cs.map Glyph.plain) =
        Lexeme.operator (.plain c) (cs.map Glyph.plain) := by
    simp only [List.mem_cons, List.not_mem_nil, or_false] at hc
    rcases hc with rfl | rfl | rfl | rfl | rfl | rfl | rfl | rfl <;>
      exact ⟨by decide, by decide, by decide, rfl⟩
  obtain ⟨hblank, hsign, hplain, hread⟩ := hsymbol
  refine lexeme (w := []) hblank hsign (by simpa using hplain) (hread.trans ?_) h
  cases cs with
  | nil => rfl
  | cons x cs =>
    have hpair : Operator.ofSpelling? (Glyph.text [.plain c, .plain x]) = none :=
      ofSpelling?_pair (hcs x rfl)
    simp only [List.map_cons, Lexeme.operator, hpair]
    rfl

/-- An operator of two characters starts with no sign, and ends in an equals sign. -/
theorem operator {op : Operator} (hop : op ∈ Operator.all)
    (hcs : op.isSign = true ∨ cs.head? ≠ some '=') (h : Lexes cs ts) :
    Lexes (op.spelling.toList ++ cs) (⟨.operator, op.spelling, .unknown⟩ :: ts) := by
  have hone (c : Char) (hc : c ∈ ['+', '-', '*', '/', '^', '<', '>', '=']) (hs : cs.head? ≠ some '=') :
      Lexes (c :: cs) (⟨.operator, String.ofList [c], .unknown⟩ :: ts) :=
    operator_one hc (fun x hx => .inr (by rintro rfl; exact hs hx)) h
  cases op with
  | add => exact operator_one (by decide) (fun x hx => .inl (by decide)) h
  | sub => exact operator_one (by decide) (fun x hx => .inl (by decide)) h
  | mul => exact hone '*' (by decide) (hcs.resolve_left (by decide))
  | div => exact hone '/' (by decide) (hcs.resolve_left (by decide))
  | pow => exact hone '^' (by decide) (hcs.resolve_left (by decide))
  | less => exact hone '<' (by decide) (hcs.resolve_left (by decide))
  | greater => exact hone '>' (by decide) (hcs.resolve_left (by decide))
  | assign => exact hone '=' (by decide) (hcs.resolve_left (by decide))
  | lessEqual => exact lexeme (c := '<') (w := ['=']) (by decide) (by decide) (by simp) rfl h
  | greaterEqual => exact lexeme (c := '>') (w := ['=']) (by decide) (by decide) (by simp) rfl h
  | equal => exact lexeme (c := '=') (w := ['=']) (by decide) (by decide) (by simp) rfl h
  | other s => simp [Operator.all] at hop

end Lexes

namespace TokenStream

/-- Reading a text from its start gives the tokens that its characters spell. -/
theorem scan_of_lexes {text : String} {ts : List Token} (h : Lexes text.toList ts) :
    ∃ us : List Token, (scan .start (Glyph.decode text.toUTF8.toList)).1 = us.map .ok ∧
      us.map Token.unplaced = ts := by
  obtain ⟨us, hscan, hts⟩ := h.scan .start
  have hdecode : Glyph.decode text.toUTF8.toList = text.toList.map Glyph.plain := by
    have hplain := Glyph.decode_toUTF8 h.plain
    rwa [String.ofList_toList] at hplain
  exact ⟨us, by rw [hdecode, hscan], hts⟩

theorem ofString_of_lexes {text : String} {ts : List Token} (h : Lexes text.toList ts) :
    ∃ us : List Token, (ofString text).answers = us.map .ok ∧ us.map Token.unplaced = ts ∧
      ∀ u ∈ us, u.IsSound := by
  obtain ⟨us, hscan, hts⟩ := scan_of_lexes h
  have hanswers : (ofString text).answers = us.map .ok := by
    show ((scan .start (Glyph.decode text.toUTF8.toList)).1.map (·.mapError ScanError.lexical)) ++ [] = _
    rw [hscan, List.append_nil, List.map_map]
    rfl
  refine ⟨us, hanswers, hts, fun u hu => ?_⟩
  have hmem : .ok u ∈ (ofBytes text.toUTF8.toList none).answers := by
    show .ok u ∈ (ofString text).answers
    rw [hanswers]
    exact List.mem_map_of_mem hu
  exact (isLexed_of_mem_ofBytes hmem).isSound

end TokenStream

end ScalarLang
