import ScalarLang.Proofs.Doubles
import ScalarLang.Proofs.Source
/-!
# Tokens as a text gives them

`Token.IsLexed` says that some text starts with the token; then its text is spelled as its kind asks
(`Token.IsSound`), so that every lookup of it in a table, and every reading of it as a number, succeeds.
-/
namespace ScalarLang

/-! ## Numbers without a sign -/

namespace Numeral

theorem splitSign_of_isDigit {c : Char} {cs : List Char} (h : isDigit c = true) :
    splitSign (c :: cs) = (false, c :: cs) := by
  unfold splitSign
  split
  · rename_i heq; cases heq; simp [isDigit] at h
  · rename_i heq; cases heq; simp [isDigit] at h
  · rfl

theorem toLower_of_isDigit {c : Char} (h : isDigit c = true) : c.toLower = c := by
  simp only [isDigit, Bool.and_eq_true, decide_eq_true_eq] at h
  exact dif_neg fun hupper => absurd (UInt32.le_trans hupper.1 h.2) (by decide)

theorem integer?_of_isDigit {c : Char} {cs : List Char} (h : isDigit c = true) :
    integer? (c :: cs) = (natural? (c :: cs)).map Nat.cast := by
  unfold integer?
  rw [splitSign_of_isDigit h]
  dsimp only
  cases natural? (c :: cs) <;> rfl

/-- A number that starts with a digit is not negative. -/
theorem int64?_nonneg {text : String} {c : Char} {cs : List Char} {v : Int64}
    (ht : text.toList = c :: cs) (hc : isDigit c = true) (h : int64? text = some v) : 0 ≤ v := by
  unfold int64? at h
  rw [ht, integer?_of_isDigit hc] at h
  cases hn : natural? (c :: cs) with
  | none => simp [hn] at h
  | some n =>
    simp only [hn, Option.map_some, Option.ite_none_right_eq_some, Option.some.injEq] at h
    obtain ⟨⟨-, hmax⟩, rfl⟩ := h
    have hbound : (n : Int) < 2 ^ 63 := Int.lt_of_le_of_lt hmax (by decide)
    rw [Int64.le_iff_toInt_le, Int64.toInt_ofInt_of_le (by omega) (by omega)]
    exact Int.natCast_nonneg n

theorem named?_of_isDigit {c : Char} {cs : List Char} (h : isDigit c = true) :
    named? (c :: cs) = none := by
  have hne (x : Char) (xs : List Char) (hx : isDigit x = false) :
      String.ofList ((c :: cs).map Char.toLower) ≠ String.ofList (x :: xs) := by
    intro heq
    rw [String.ofList_inj, List.map_cons, List.cons.injEq, toLower_of_isDigit h] at heq
    rw [heq.1, hx] at h
    cases h
  have hinf := hne 'i' ['n', 'f'] (by decide)
  have hinfinity := hne 'i' ['n', 'f', 'i', 'n', 'i', 't', 'y'] (by decide)
  have hnan := hne 'n' ['a', 'n'] (by decide)
  unfold named?
  rw [splitSign_of_isDigit h]
  simp only [List.mem_cons, List.not_mem_nil, or_false]
  rw [if_neg, if_neg]
  · exact fun hn => hnan hn.1
  · rintro (hn | hn)
    · exact hinf hn
    · exact hinfinity hn

theorem Decimal.toBinary64?_eq_some {d : Decimal} {x : Binary64} (h : d.toBinary64? = some x) :
    x.isFinite = true ∧ x.isNegative = d.negative := by
  have hzero : (Binary64.ofMagnitude d.negative 0).isFinite = true ∧
      (Binary64.ofMagnitude d.negative 0).isNegative = d.negative :=
    ⟨Binary64.isFinite_ofMagnitude _ (by decide), Binary64.isNegative_ofMagnitude _ (by decide)⟩
  unfold Decimal.toBinary64? at h
  split at h
  · cases h; exact hzero
  · split at h
    · cases h
    · split at h
      · cases h; exact hzero
      · split at h
        · exact Binary64.ofRatio?_eq_some h
        · exact Binary64.ofRatio?_eq_some h

/-- A number that starts with a digit is read as a finite double without a sign. -/
theorem binary64?_eq_some {text : String} {c : Char} {cs : List Char} {x : Binary64}
    (ht : text.toList = c :: cs) (hc : isDigit c = true) (h : binary64? text = some x) :
    x.isFinite = true ∧ x.isNegative = false := by
  unfold binary64? at h
  rw [ht, splitSign_of_isDigit hc, named?_of_isDigit hc] at h
  change unsigned? false (c :: cs) = some x at h
  unfold unsigned? at h
  split at h
  · obtain ⟨d, hd, hx⟩ := Option.bind_eq_some_iff.1 h
    obtain ⟨ds, -, hd⟩ := Option.bind_eq_some_iff.1 hd
    unfold dyadic? at hd
    simp only [Option.ite_none_left_eq_some] at hd
    obtain ⟨e, -, rfl⟩ := Option.map_eq_some_iff.1 hd.2
    exact Binary64.ofRatio?_eq_some hx
  · obtain ⟨d, hd, hx⟩ := Option.bind_eq_some_iff.1 h
    obtain ⟨ds, -, hd⟩ := Option.bind_eq_some_iff.1 hd
    unfold decimal? at hd
    simp only [Option.ite_none_left_eq_some] at hd
    obtain ⟨e, -, rfl⟩ := Option.map_eq_some_iff.1 hd.2
    exact Decimal.toBinary64?_eq_some hx

end Numeral

/-! ## Tokens -/

namespace Token

/-- A token that some text starts with. -/
def IsLexed (t : Token) : Prop := ∃ g tail, (Lexeme.read g tail).answer t.pos = .ok t

/-- A token whose text is spelled as its kind asks. -/
def IsSound (t : Token) : Prop :=
  match t.kind with
  | .identifier => isName t.text = true
  | .keyword => (Keyword.ofSpelling? t.text).isSome = true
  | .operator => (Operator.ofSpelling? t.text).isSome = true
  | .bracket => ∃ c, t.text = String.ofList [c] ∧ (Bracket.ofChar? c).isSome = true
  | .integer => ∃ v, Numeral.int64? t.text = some v ∧ 0 ≤ v
  | .float => ∃ x, Numeral.binary64? t.text = some x ∧ x.isFinite = true ∧ x.isNegative = false
  | .comma | .semicolon => True
  | .endOfInput | .other _ => False

end Token

namespace Lexeme

/-- What a lexeme is, if it is a token at all. -/
def IsSound (l : Lexeme) : Prop :=
  ∀ kind pos, l.result = .ok kind → Token.IsSound ⟨kind, Glyph.text l.glyphs, pos⟩

theorem isSound_word {g : Glyph} (tail : List Glyph) (h : isWordStart g.char = true) :
    (word g tail).IsSound := by
  intro kind pos hk
  simp only [word, Except.ok.injEq] at hk
  subst hk
  split
  · rename_i hsome
    exact hsome
  · rename_i hnone
    have hparts : ∀ c ∈ (tail.takeWhile isWordPart).map Glyph.char,
        (isWordStart c || Numeral.isDigit c) = true := by
      intro c hc
      obtain ⟨g', hg', rfl⟩ := List.mem_map.1 hc
      exact List.all_eq_true.1 List.all_takeWhile g' hg'
    show isName (Glyph.text (g :: tail.takeWhile isWordPart)) = true
    simp only [isName, Glyph.text, String.toList_ofList, List.map_cons, Bool.and_eq_true,
      List.all_eq_true]
    refine ⟨⟨h, hparts⟩, ?_⟩
    simpa [word, Glyph.text] using hnone

theorem isSound_number {g : Glyph} (tail : List Glyph) (h : isDigit g = true) :
    (number g tail).IsSound := by
  intro kind pos hk
  unfold number at *
  dsimp only at *
  split at hk
  · cases hk
  · rename_i hpoints
    rw [if_neg hpoints]
    split at hk
    · cases hk
    · rename_i hlast
      rw [if_neg hlast]
      dsimp only at hk ⊢
      -- the text starts with the digit `g`, whatever follows
      have htext : (Glyph.text (g :: tail.takeWhile isDigitOrPoint ++
          (splitExponent (tail.dropWhile isDigitOrPoint)).1)).toList =
          g.char :: (tail.takeWhile isDigitOrPoint ++
            (splitExponent (tail.dropWhile isDigitOrPoint)).1).map Glyph.char := by
        simp [Glyph.text]
      split at hk
      · split at hk
        · rename_i hsome
          cases hk
          obtain ⟨v, hv⟩ := Option.isSome_iff_exists.1 hsome
          exact ⟨v, hv, Numeral.int64?_nonneg htext h hv⟩
        · cases hk
      · split at hk
        · cases hk
        · split at hk
          · rename_i hsome
            cases hk
            obtain ⟨x, hx⟩ := Option.isSome_iff_exists.1 hsome
            exact ⟨x, hx, Numeral.binary64?_eq_some htext h hx⟩
          · cases hk

theorem isSound_operator {g : Glyph} (tail : List Glyph)
    (h : (Operator.ofSpelling? (Glyph.text [g])).isSome = true) : (operator g tail).IsSound := by
  intro kind pos hk
  unfold operator at *
  split at hk
  · cases hk; exact h
  · split at hk
    · rename_i hsome
      cases hk
      simp [Token.IsSound, hsome]
    · rename_i hnone
      cases hk
      simpa [Token.IsSound, hnone] using h

theorem isSound_symbol (g : Glyph) (tail : List Glyph) : (symbol g tail).IsSound := by
  unfold symbol
  split
  · rintro kind pos ⟨⟩; trivial
  · split
    · rintro kind pos ⟨⟩; trivial
    · split
      · rename_i hbracket
        rintro kind pos ⟨⟩
        exact ⟨g.char, rfl, hbracket⟩
      · split
        · exact isSound_operator tail ‹_›
        · rintro kind pos ⟨⟩

theorem isSound_read (g : Glyph) (tail : List Glyph) : (read g tail).IsSound := by
  unfold read
  split
  · exact isSound_word tail ‹_›
  · split
    · exact isSound_number tail ‹_›
    · exact isSound_symbol g tail

end Lexeme

theorem Token.IsLexed.isSound {t : Token} (h : t.IsLexed) : t.IsSound := by
  obtain ⟨g, tail, hread⟩ := h
  unfold Lexeme.answer at hread
  split at hread
  · rename_i kind hk
    rw [Except.ok.injEq] at hread
    rw [← hread]
    exact Lexeme.isSound_read g tail kind t.pos hk
  · cases hread

theorem Lexeme.isLexed_of_answer {g : Glyph} {tail : List Glyph} {pos : Position} {t : Token}
    (h : (read g tail).answer pos = .ok t) : t.IsLexed := by
  have hpos : t.pos = pos := by
    unfold answer at h
    split at h
    · cases h; rfl
    · cases h
  exact ⟨g, tail, hpos ▸ h⟩

namespace TokenStream

theorem isLexed_of_mem_scan {pos : Position} {gs : List Glyph} {t : Token}
    (h : .ok t ∈ (scan pos gs).1) : t.IsLexed := by
  fun_induction scan pos gs with
  | case1 pos gs gap hgap => simp at h
  | case2 pos gs gap g tail hgap lexeme here more ending hscan ih =>
    rcases List.mem_cons.1 h with h | h
    · exact Lexeme.isLexed_of_answer h.symm
    · exact ih (by rwa [hscan])

/-- A text, read to its end or not, gives only tokens that some text starts with. -/
theorem isLexed_of_mem_ofBytes {bytes : List UInt8} {failure : Option String} {t : Token}
    (h : .ok t ∈ (ofBytes bytes failure).answers) : t.IsLexed := by
  rcases List.mem_append.1 h with h | h
  · obtain ⟨answer, ha, hmap⟩ := List.mem_map.1 h
    cases answer with
    | error e => cases hmap
    | ok u =>
      cases hmap
      exact isLexed_of_mem_scan ha
  · cases failure <;> simp at h

end TokenStream

end ScalarLang
