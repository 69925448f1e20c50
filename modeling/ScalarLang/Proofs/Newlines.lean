import ScalarLang.Proofs.Spelling
import ScalarLang.Proofs.Tiling
/-!
# Lexing is compositional at a newline

`scan_append_newline`: no lexeme and no comment goes past a newline, so a text before one is read as if
it ended there, and reading goes on behind it with the rest of the text. `scan_placed`: where a text
starts changes the places of its tokens and nothing else. The bytes of a text come apart at a newline too
(`decode_append_newline`), even if they are malformed, so this holds of all texts (`scan_decode_append`),
with places that are counted in bytes (`ofBytes_append_newline`).
-/
namespace ScalarLang

/-! ## Bytes -/

namespace Glyph

/-- The glyph that ends a line. -/
def newline : Glyph := plain '\n'

/-- A byte that continues no sequence cuts off the glyph before it like the end of the text. -/
theorem first_append {b : UInt8} (hb : isTail b = false) (a : UInt8) (rest more : List UInt8) :
    first a (rest ++ b :: more) = first a rest ∧ (first a rest).width - 1 ≤ rest.length := by
  have hsecond : isSecond a b = false := by simp [isSecond, hb]
  unfold first
  split
  · simp
  split
  · rcases rest with _ | ⟨x, rest⟩
    · simp [hsecond, replacement]
    · simp only [List.cons_append, true_and]
      split <;> simp [replacement]
  split
  · rcases rest with _ | ⟨x, _ | ⟨y, rest⟩⟩
    · rcases more with _ | ⟨y, more⟩ <;> simp [hsecond, replacement]
    · simp [hb, replacement]
    · simp only [List.cons_append, true_and]
      split <;> simp [replacement]
  split
  · rcases rest with _ | ⟨x, _ | ⟨y, _ | ⟨z, rest⟩⟩⟩
    · rcases more with _ | ⟨y, _ | ⟨z, more⟩⟩ <;> simp [hsecond, replacement]
    · rcases more with _ | ⟨z, more⟩ <;> simp [hb, replacement]
    · simp [hb, replacement]
    · simp only [List.cons_append, true_and]
      split <;> simp [replacement]
  · simp [replacement]

theorem decode_append_newline (a b : List UInt8) :
    decode (a ++ 10 :: b) = decode a ++ newline :: decode b := by
  cases a with
  | nil =>
    rw [List.nil_append, decode_cons_plain (a := 10) (by decide), decode_nil]
    rfl
  | cons x rest =>
    obtain ⟨hfirst, hwidth⟩ := first_append (b := 10) (by decide) x rest b
    rw [List.cons_append, decode, hfirst, List.drop_append_of_le_length hwidth,
      decode_append_newline _ b, decode]
    rfl
termination_by a.length
decreasing_by simp only [List.length_drop, List.length_cons]; omega

end Glyph

open Glyph (newline)

/-! ## Gaps -/

/-- A newline ends a comment, and the gap goes on behind it. -/
theorem splitGap_newline (comment : Bool) (hs : List Glyph) :
    splitGap comment (newline :: hs) = (newline :: (splitGap false hs).1, (splitGap false hs).2) := by
  cases comment <;> simp [splitGap, newline, Glyph.plain, Text.isBlank]

theorem splitGap_append_of_nil {comment : Bool} {gs : List Glyph} (hs : List Glyph)
    (h : (splitGap comment gs).2 = []) :
    splitGap comment (gs ++ newline :: hs) =
      ((splitGap comment gs).1 ++ newline :: (splitGap false hs).1, (splitGap false hs).2) := by
  induction gs generalizing comment with
  | nil => exact splitGap_newline comment hs
  | cons g gs ih =>
    simp only [List.cons_append, splitGap] at h ⊢
    split at h
    · rename_i hgap
      rw [if_pos hgap, if_pos hgap, ih h]
      rfl
    · cases h

theorem splitGap_append_of_cons {comment : Bool} {g : Glyph} {gs tail : List Glyph} (hs : List Glyph)
    (h : (splitGap comment gs).2 = g :: tail) :
    splitGap comment (gs ++ newline :: hs) = ((splitGap comment gs).1, g :: (tail ++ newline :: hs)) := by
  induction gs generalizing comment with
  | nil => cases h
  | cons g' gs ih =>
    simp only [List.cons_append, splitGap] at h ⊢
    split at h
    · rename_i hgap
      rw [if_pos hgap, if_pos hgap, ih h]
    · rename_i hgap
      cases h
      rw [if_neg hgap, if_neg hgap]

/-! ## Lexemes -/

namespace Lexeme

section

variable {p : Glyph → Bool} {b : Glyph} (hp : p b = false) (gs hs : List Glyph)
include hp

theorem takeWhile_stop : (gs ++ b :: hs).takeWhile p = gs.takeWhile p := by
  induction gs with
  | nil => simp [hp]
  | cons g gs ih => simp only [List.cons_append, List.takeWhile_cons, ih]

theorem dropWhile_stop : (gs ++ b :: hs).dropWhile p = gs.dropWhile p ++ b :: hs := by
  induction gs with
  | nil => simp [hp]
  | cons g gs ih =>
    simp only [List.cons_append, List.dropWhile_cons, ih]
    split <;> rfl

end

/-- The lexeme with more text behind it. -/
def followed (l : Lexeme) (more : List Glyph) : Lexeme := { l with rest := l.rest ++ more }

section Blank

variable {b : Glyph} (hb : Text.isBlank b.char = true)
include hb

theorem char_ne_of_isBlank {c : Char} (hc : Text.isBlank c = false) : b.char ≠ c := by
  rintro rfl
  rw [hb] at hc
  cases hc

theorem isWordPart_of_isBlank : isWordPart b = false := by
  refine Bool.eq_false_iff.2 fun hpart => ?_
  have hgap := (Lexes.not_gap_of_isWordPart (c := b.char) hpart).1
  rw [hb] at hgap
  cases hgap

theorem isDigit_of_isBlank : isDigit b = false := (Bool.or_eq_false_iff.1 (isWordPart_of_isBlank hb)).2

theorem isDigitOrPoint_of_isBlank : isDigitOrPoint b = false :=
  Bool.or_eq_false_iff.2 ⟨isDigit_of_isBlank hb, decide_eq_false (char_ne_of_isBlank hb (by decide))⟩

variable (g : Glyph) (gs hs : List Glyph)

theorem splitSign_blank :
    splitSign (gs ++ b :: hs) = ((splitSign gs).1, (splitSign gs).2 ++ b :: hs) := by
  cases gs with
  | nil =>
    have hplus := char_ne_of_isBlank (c := '+') hb (by decide)
    have hminus := char_ne_of_isBlank (c := '-') hb (by decide)
    simp [splitSign, hplus, hminus]
  | cons g gs =>
    simp only [List.cons_append, splitSign]
    split <;> rfl

theorem splitExponent_blank :
    splitExponent (gs ++ b :: hs) = ((splitExponent gs).1, (splitExponent gs).2 ++ b :: hs) := by
  have hdigit := isDigit_of_isBlank hb
  cases gs with
  | nil =>
    have hlower := char_ne_of_isBlank (c := 'e') hb (by decide)
    have hupper := char_ne_of_isBlank (c := 'E') hb (by decide)
    simp [splitExponent, hlower, hupper]
  | cons g gs =>
    simp only [List.cons_append, splitExponent, splitSign_blank hb, takeWhile_stop hdigit,
      dropWhile_stop hdigit]
    split <;> rfl

theorem word_blank : word g (gs ++ b :: hs) = (word g gs).followed (b :: hs) := by
  have hpart := isWordPart_of_isBlank hb
  simp only [word, takeWhile_stop hpart, dropWhile_stop hpart, followed]

theorem number_blank : number g (gs ++ b :: hs) = (number g gs).followed (b :: hs) := by
  have hpart := isDigitOrPoint_of_isBlank hb
  simp only [number, takeWhile_stop hpart, dropWhile_stop hpart, splitExponent_blank hb]
  split
  · rfl
  · split <;> rfl

theorem operator_blank : operator g (gs ++ b :: hs) = (operator g gs).followed (b :: hs) := by
  cases gs with
  | nil =>
    have hpair : Operator.ofSpelling? (Glyph.text [g, b]) = none :=
      Lexes.ofSpelling?_pair (a := g.char) (b := b.char) (.inr (char_ne_of_isBlank hb (by decide)))
    simp [operator, hpair, followed]
  | cons h gs =>
    simp only [List.cons_append, operator]
    split <;> rfl

/-- No lexeme goes past white space, or sees what is behind it. -/
theorem read_blank : read g (gs ++ b :: hs) = (read g gs).followed (b :: hs) := by
  unfold read symbol
  rw [word_blank hb, number_blank hb, operator_blank hb]
  repeat' split
  all_goals rfl

end Blank

end Lexeme

/-! ## Places -/

/-- A token or error at another place. -/
def placed (f : Position → Position) : Except LexError Token → Except LexError Token
  | .ok t => .ok { t with pos := f t.pos }
  | .error e => .error { e with pos := f e.pos }

theorem Lexeme.answer_placed (l : Lexeme) (f : Position → Position) (pos : Position) :
    l.answer (f pos) = placed f (l.answer pos) := by
  unfold answer
  cases l.result <;> rfl

namespace TokenStream

/-- A text that starts at another place has its tokens at other places. -/
theorem scan_placed {f : Position → Position} (hf : ∀ p g, f (p.advance g) = (f p).advance g)
    (pos : Position) (gs : List Glyph) :
    scan (f pos) gs = ((scan pos gs).1.map (placed f), f (scan pos gs).2) := by
  have hafter (p : Position) (gs : List Glyph) : f (p.after gs) = (f p).after gs := by
    induction gs generalizing p with
    | nil => rfl
    | cons g gs ih =>
      show f ((p.advance g).after gs) = ((f p).advance g).after gs
      rw [ih, hf]
  fun_induction scan pos gs with
  | case1 pos gs gap hgap => rw [scan_of_gap hgap, hafter]; rfl
  | case2 pos gs gap g tail hgap lexeme here more ending hscan ih =>
    rw [scan_of_lexeme hgap, ← hafter, ← hafter, ih, hscan, Lexeme.answer_placed]
    rfl

/-- What is before a newline is read as if the text ended there, and then comes what is behind it. -/
theorem scan_append_newline (pos : Position) (gs hs : List Glyph) :
    scan pos (gs ++ newline :: hs) =
      ((scan pos gs).1 ++ (scan ((scan pos gs).2.advance newline) hs).1,
        (scan ((scan pos gs).2.advance newline) hs).2) := by
  fun_induction scan pos gs with
  | case1 pos gs gap hgap =>
    have hsplit := splitGap_append_of_nil hs (congrArg Prod.snd hgap)
    have hplace : pos.after (gap ++ newline :: (splitGap false hs).1) =
        ((pos.after gap).advance newline).after (splitGap false hs).1 := by
      simp [Position.after]
    rw [hgap] at hsplit
    rcases hrest : splitGap false hs with ⟨gap', _ | ⟨g, tail⟩⟩
    · rw [hrest] at hsplit hplace
      rw [scan_of_gap hsplit, scan_of_gap hrest, hplace]
      rfl
    · rw [hrest] at hsplit hplace
      rw [scan_of_lexeme hsplit, scan_of_lexeme hrest, hplace]
      rfl
  | case2 pos gs gap g tail hgap lexeme here more ending hscan ih =>
    have hsplit := splitGap_append_of_cons hs (congrArg Prod.snd hgap)
    rw [hgap] at hsplit
    rw [scan_of_lexeme hsplit, Lexeme.read_blank (b := newline) (by decide)]
    show (lexeme.answer here :: (scan (here.after lexeme.glyphs) (lexeme.rest ++ newline :: hs)).1,
      (scan (here.after lexeme.glyphs) (lexeme.rest ++ newline :: hs)).2) = _
    rw [ih, hscan]
    rfl

end TokenStream

/-! ## Texts -/

namespace Position

/-- The place so many lines and bytes further on, in the same column. -/
def moved (lines bytes : Int) (p : Position) : Position := ⟨p.line + lines, p.column, p.offset + bytes⟩

theorem moved_advance (lines bytes : Int) (p : Position) (g : Glyph) :
    (p.advance g).moved lines bytes = (p.moved lines bytes).advance g := by
  unfold advance
  split
  · simp only [moved, mk.injEq, true_and]
    omega
  · simp only [moved, mk.injEq, true_and]
    omega

/-- A new line starts like a text. -/
theorem advance_newline (p : Position) : p.advance newline = start.moved p.line (p.offset + 1) := by
  simp only [advance, newline, Glyph.plain, ↓reduceIte, start, moved, mk.injEq, true_and]
  omega

end Position

/-- What is behind a newline is read like a text of its own, at other places. -/
theorem TokenStream.scan_decode_append (a b : List UInt8) :
    (scan .start (Glyph.decode (a ++ 10 :: b))).1 = (scan .start (Glyph.decode a)).1 ++
      (scan .start (Glyph.decode b)).1.map (placed (.moved (scan .start (Glyph.decode a)).2.line
        ((scan .start (Glyph.decode a)).2.offset + 1))) := by
  rw [Glyph.decode_append_newline, scan_append_newline, Position.advance_newline,
    scan_placed (Position.moved_advance _ _)]

/-- An answer at another place. -/
def TokenStream.placedAnswer (f : Position → Position) :
    Except ScanError Token → Except ScanError Token
  | .ok t => .ok { t with pos := f t.pos }
  | .error (.lexical e) => .error (.lexical { e with pos := f e.pos })
  | .error (.unreadable pos cause) => .error (.unreadable (f pos) cause)

namespace TokenStream

theorem placedAnswer_mapError (f : Position → Position) (a : Except LexError Token) :
    placedAnswer f (a.mapError .lexical) = (placed f a).mapError .lexical := by
  cases a <;> rfl

/-- The place where a text ends is found by its bytes. -/
theorem ending_scan (bytes : List UInt8) :
    (scan .start (Glyph.decode bytes)).2.line = 1 + bytes.count 10 ∧
      (scan .start (Glyph.decode bytes)).2.offset = bytes.length := by
  rw [(tiles_scan _ _).ending_eq, Position.start_after_eq, Glyph.countP_decode_newline,
    Glyph.widths_decode]
  exact ⟨rfl, rfl⟩

/-- Two texts with a newline between them have the answers of both. What comes from the second text, also
its end and a failure to read on, is further on by the lines and bytes before it, in the same column. -/
theorem ofBytes_append_newline (a b : List UInt8) (failure : Option String) :
    ofBytes (a ++ 10 :: b) failure =
      ⟨(ofBytes a none).answers ++
          (ofBytes b failure).answers.map (placedAnswer (.moved (1 + a.count 10) (a.length + 1))),
        (ofBytes b failure).ending.moved (1 + a.count 10) (a.length + 1)⟩ := by
  obtain ⟨hline, hoffset⟩ := ending_scan a
  have hscan := scan_append_newline .start (Glyph.decode a) (Glyph.decode b)
  rw [Position.advance_newline, scan_placed (Position.moved_advance _ _), hline, hoffset,
    ← Glyph.decode_append_newline] at hscan
  simp only [ofBytes, hscan, List.map_append, List.map_map, List.append_nil, List.append_assoc,
    mk.injEq, List.append_cancel_left_eq, and_true]
  refine congrArg₂ (· ++ ·) (List.map_congr_left fun x _ => (placedAnswer_mapError _ x).symm) ?_
  cases failure <;> rfl

end TokenStream

end ScalarLang
