import ScalarLang.Proofs.Layout
import ScalarLang.Proofs.Spelling
/-!
# Lexemes are read back

Every kind of token has a language (`TokenKind.Spells`), and every token is spelled in the language of
its kind; a word of the language before a space or the end of the text is read as a token of that kind.
So the texts of all tokens, with single spaces between them, give the same tokens again
(`tokens_intercalate_text`).
-/
namespace ScalarLang

/-! ## Languages -/

/-- Digits, a fraction and an exponent, of which the latter two are not both left out. -/
def Numeral.IsFloat (cs : List Char) : Prop :=
  ∃ whole point mark, cs = whole ++ (point ++ mark) ∧ IsDigits whole ∧ IsFraction point ∧
    IsExponent mark ∧ ¬ (point = [] ∧ mark = [])

/-- The texts that tokens of a kind have. -/
def TokenKind.Spells (text : String) : TokenKind → Prop
  | identifier => isName text = true
  | keyword => ∃ k : Keyword, text = k.spelling
  | operator => ∃ op ∈ Operator.all, text = op.spelling
  | bracket => ∃ c b, Bracket.ofChar? c = some b ∧ text = String.ofList [c]
  | integer => Numeral.IsDigits text.toList ∧ Numeral.value 10 text.toList < 2 ^ 63
  | float => Numeral.IsFloat text.toList ∧ ∃ x, Numeral.binary64? text = some x ∧ x.isFinite = true
  | comma => text = ","
  | semicolon => text = ";"
  | endOfInput | other _ => False

theorem Keyword.ofSpelling?_isSome {s : String} (h : (ofSpelling? s).isSome = true) :
    ∃ k : Keyword, s = k.spelling := by
  obtain ⟨k, hk⟩ := Option.isSome_iff_exists.1 h
  have hspelling := List.find?_some (p := fun k : Keyword => k.spelling == s) hk
  exact ⟨k, (beq_iff_eq.1 hspelling).symm⟩

theorem Operator.ofSpelling?_isSome {s : String} (h : (ofSpelling? s).isSome = true) :
    ∃ op ∈ Operator.all, s = op.spelling := by
  obtain ⟨op, hop⟩ := Option.isSome_iff_exists.1 h
  have hspelling := List.find?_some (p := fun op : Operator => op.spelling == s) hop
  exact ⟨op, List.mem_of_find?_eq_some hop, (beq_iff_eq.1 hspelling).symm⟩

namespace Numeral

/-- Digits are read as an integer exactly if 63 bits hold their value. -/
theorem int64?_isSome_iff {c : Char} {cs : List Char} (hc : isDigit c = true) :
    (int64? (String.ofList (c :: cs))).isSome = true ↔
      IsDigits (c :: cs) ∧ value 10 (c :: cs) < 2 ^ 63 := by
  have hmin : Int64.minValue.toInt = -2 ^ 63 := by decide
  have hmax : Int64.maxValue.toInt = 2 ^ 63 - 1 := by decide
  unfold int64?
  rw [String.toList_ofList, integer?_of_isDigit hc, natural?, hmin, hmax]
  by_cases hd : (c :: cs).all isDigit = true
  · have hdigits : IsDigits (c :: cs) := ⟨by simp, List.all_eq_true.1 hd⟩
    rw [if_pos (by simpa using hd)]
    simp only [Option.map_some, hdigits, true_and]
    rw [Option.isSome_ite]
    omega
  · rw [if_neg (by simpa using hd)]
    refine iff_of_false (by simp) fun h => hd (List.all_eq_true.2 h.1.2)

end Numeral

/-! ## Every token is spelled in the language of its kind -/

namespace Lexeme

variable {g : Glyph}

theorem isDigits_map {ds : List Glyph} (hne : ds ≠ []) (h : ∀ x ∈ ds, isDigit x = true) :
    Numeral.IsDigits (ds.map Glyph.char) := by
  refine ⟨by simpa using hne, fun c hc => ?_⟩
  obtain ⟨x, hx, rfl⟩ := List.mem_map.1 hc
  exact h x hx

/-- Digits and points that start and end with a digit and have one point at most. -/
theorem isFraction_of_mantissa {ms : List Glyph} (hms : ∀ x ∈ g :: ms, isDigit x = true ∨ x.char = '.')
    (hhead : isDigit g = true) (hpoints : (g :: ms).countP (·.char = '.') ≤ 1)
    (hlast : (g :: ms).getLast?.all isDigit = true) :
    ∃ whole point, (g :: ms).map Glyph.char = whole ++ point ∧ Numeral.IsDigits whole ∧
      Numeral.IsFraction point ∧ (point = [] ↔ (g :: ms).countP (·.char = '.') = 0) := by
  have hwhole : Numeral.IsDigits (((g :: ms).takeWhile isDigit).map Glyph.char) :=
    isDigits_map (by simp [hhead]) (List.all_eq_true.1 List.all_takeWhile)
  have hnone : ((g :: ms).takeWhile isDigit).countP (·.char = '.') = 0 := by
    refine List.countP_eq_zero.2 fun x hx => ?_
    simpa using isDigit_ne_point (List.all_eq_true.1 List.all_takeWhile x hx)
  have hsplit := List.takeWhile_append_dropWhile (p := isDigit) (l := g :: ms)
  cases hrest : (g :: ms).dropWhile isDigit with
  | nil =>
    rw [hrest, List.append_nil] at hsplit
    rw [hsplit] at hwhole hnone
    exact ⟨_, [], (List.append_nil _).symm, hwhole, .none, by simpa using hnone⟩
  | cons p ds =>
    -- the first character that is no digit is the point, and digits alone come after it
    have hp : p.char = '.' := by
      have hmem : p ∈ g :: ms := by rw [← hsplit, hrest]; simp
      have hnot : isDigit p = false := by
        have := List.head?_dropWhile_not isDigit (g :: ms)
        rw [hrest] at this
        simpa using this
      exact (hms p hmem).resolve_left (by simp [hnot])
    rw [hrest] at hsplit
    have hcount : (g :: ms).countP (·.char = '.') = 1 + ds.countP (·.char = '.') := by
      rw [← hsplit, List.countP_append, hnone, List.countP_cons]
      simp [hp, Nat.add_comm]
    have hdigits : ∀ x ∈ ds, isDigit x = true := by
      intro x hx
      have hpoint : x.char ≠ '.' := by
        simpa using List.countP_eq_zero.1 (by omega : ds.countP (·.char = '.') = 0) x hx
      refine (hms x ?_).resolve_right hpoint
      rw [← hsplit]
      simp [hx]
    have hne : ds ≠ [] := by
      rintro rfl
      rw [← hsplit, List.getLast?_append] at hlast
      exact isDigit_ne_point (by simpa using hlast) hp
    refine ⟨_, '.' :: ds.map Glyph.char, ?_, hwhole, .digits (isDigits_map hne hdigits), ?_⟩
    · rw [← hp, ← List.map_cons, ← List.map_append, hsplit]
    · simp only [reduceCtorEq, false_iff]
      omega

theorem splitSign_cases (gs : List Glyph) : (splitSign gs).1.map Glyph.char = [] ∨
    (splitSign gs).1.map Glyph.char = ['+'] ∨ (splitSign gs).1.map Glyph.char = ['-'] := by
  cases gs with
  | nil => exact .inl rfl
  | cons g gs =>
    simp only [splitSign]
    split
    · rename_i hsign
      simp only [Bool.or_eq_true, decide_eq_true_eq] at hsign
      exact .inr (hsign.imp (by simp) (by simp))
    · exact .inl rfl

/-- An exponent that ends in a digit. -/
theorem isExponent_of_splitExponent (gs : List Glyph)
    (hlast : (splitExponent gs).1.getLast?.all isDigit = true) :
    Numeral.IsExponent ((splitExponent gs).1.map Glyph.char) := by
  cases gs with
  | nil => exact .none
  | cons m gs =>
    simp only [splitExponent] at hlast ⊢
    split at hlast
    · rename_i hmark
      rw [if_pos hmark]
      simp only [Bool.or_eq_true, decide_eq_true_eq] at hmark
      have hsign := splitSign_cases gs
      rw [List.map_cons, List.map_append]
      refine .digits hmark hsign (isDigits_map (fun hnil => ?_) (List.all_eq_true.1 List.all_takeWhile))
      -- without digits the exponent ends in its sign or its mark
      rw [hnil, List.append_nil] at hlast
      have hchar : ((m :: (splitSign gs).1).map Glyph.char).getLast?.all Numeral.isDigit = true := by
        rw [List.getLast?_map, Option.all_map]
        exact hlast
      rw [List.map_cons] at hchar
      rcases hmark with hm | hm <;> rcases hsign with hs | hs | hs <;> rw [hm, hs] at hchar <;>
        exact absurd hchar (by decide)
    · rename_i hmark
      rw [if_neg hmark]
      exact .none

/-- A lexeme that is a token is spelled in the language of its kind. -/
def IsSpelled (l : Lexeme) : Prop := ∀ kind, l.result = .ok kind → kind.Spells (Glyph.text l.glyphs)

theorem isSpelled_word {tail : List Glyph} (h : isWordStart g.char = true) : (word g tail).IsSpelled := by
  intro kind hk
  have hsound := isSound_word tail h kind .unknown hk
  simp only [word, Except.ok.injEq] at hk
  subst hk
  split at hsound
  · rename_i hsome
    rw [if_pos hsome]
    exact Keyword.ofSpelling?_isSome hsome
  · rename_i hnone
    rw [if_neg hnone]
    exact hsound

theorem isSpelled_number {tail : List Glyph} (h : isDigit g = true) : (number g tail).IsSpelled := by
  intro kind hk
  have hsound := isSound_number tail h kind .unknown hk
  unfold number at hk hsound ⊢
  dsimp only at hk hsound ⊢
  split at hk
  · cases hk
  rename_i hpoints
  rw [if_neg hpoints] at hsound ⊢
  split at hk
  · cases hk
  rename_i hlast
  rw [if_neg hlast] at hsound ⊢
  dsimp only at hk hsound ⊢
  split at hk
  · -- digits alone
    split at hk
    · rename_i hsome
      cases hk
      rw [Glyph.text, List.cons_append, List.map_cons] at hsome ⊢
      have hdigits := (Numeral.int64?_isSome_iff h).1 hsome
      simpa [TokenKind.Spells] using hdigits
    · cases hk
  · rename_i hfloat
    split at hk
    · cases hk
    rename_i hexponent
    split at hk
    · cases hk
      obtain ⟨whole, point, htext, hwhole, hpoint, hcount⟩ :=
        isFraction_of_mantissa (isDigit_or_point_of_mem_mantissa h tail) h (Nat.le_of_not_lt hpoints)
          (by simpa using hlast)
      obtain ⟨x, hx, hfinite, -⟩ := hsound
      have hmark := isExponent_of_splitExponent (tail.dropWhile isDigitOrPoint)
        (by simpa using hexponent)
      refine ⟨⟨whole, point, _, ?_, hwhole, hpoint, hmark, ?_⟩, x, hx, hfinite⟩
      · rw [Glyph.text, String.toList_ofList, List.map_append, htext, List.append_assoc]
      · rintro ⟨hp, hm⟩
        exact hfloat (by simpa [List.map_eq_nil_iff.1 hm] using hcount.1 hp)
    · cases hk

theorem isSpelled_symbol (g : Glyph) (tail : List Glyph) : (symbol g tail).IsSpelled := by
  unfold symbol
  split
  · rename_i hcomma
    rintro kind ⟨⟩
    show Glyph.text [g] = ","
    rw [Glyph.text, List.map_cons, hcomma]
    rfl
  split
  · rename_i hsemicolon
    rintro kind ⟨⟩
    show Glyph.text [g] = ";"
    rw [Glyph.text, List.map_cons, hsemicolon]
    rfl
  split
  · rename_i hbracket
    rintro kind ⟨⟩
    obtain ⟨b, hb⟩ := Option.isSome_iff_exists.1 hbracket
    exact ⟨g.char, b, hb, rfl⟩
  split
  · rename_i hop
    intro kind hk
    have hsound := isSound_operator tail hop kind .unknown hk
    have hkind : kind = .operator := by
      cases tail with
      | nil => cases hk; rfl
      | cons t tail =>
        simp only [operator] at hk
        split at hk <;> cases hk <;> rfl
    subst hkind
    exact Operator.ofSpelling?_isSome hsound
  · rintro kind ⟨⟩

theorem isSpelled_read (g : Glyph) (tail : List Glyph) : (read g tail).IsSpelled := by
  unfold read
  split
  · exact isSpelled_word ‹_›
  split
  · exact isSpelled_number ‹_›
  · exact isSpelled_symbol g tail

end Lexeme

theorem Token.IsLexed.spells {t : Token} (h : t.IsLexed) : t.kind.Spells t.text := by
  obtain ⟨g, tail, hread⟩ := h
  unfold Lexeme.answer at hread
  split at hread
  · rename_i kind hk
    rw [Except.ok.injEq] at hread
    rw [← hread]
    exact Lexeme.isSpelled_read g tail kind hk
  · cases hread

/-! ## Every word of a language is read back -/

namespace Lexes

variable {cs : List Char} {ts : List Token}

theorem breaks_of_space (h : ∀ c, cs.head? = some c → c = ' ') : Breaks cs := by
  intro c hc
  rw [h c hc]
  decide

theorem bracket {c : Char} {b : Bracket} (hb : Bracket.ofChar? c = some b) (h : Lexes cs ts) :
    Lexes (c :: cs) (⟨.bracket, String.ofList [c], .unknown⟩ :: ts) := by
  unfold Bracket.ofChar? at hb
  split at hb
  · exact lexeme (w := []) (by decide) (by decide) (by simp) rfl h
  · exact lexeme (w := []) (by decide) (by decide) (by simp) rfl h
  · exact lexeme (w := []) (by decide) (by decide) (by simp) rfl h
  · exact lexeme (w := []) (by decide) (by decide) (by simp) rfl h
  · exact lexeme (w := []) (by decide) (by decide) (by simp) rfl h
  · exact lexeme (w := []) (by decide) (by decide) (by simp) rfl h
  · cases hb

/-- A word of a kind's language before a space or the end of the text. -/
theorem of_spells {text : String} {kind : TokenKind} (hs : kind.Spells text)
    (hcs : ∀ c, cs.head? = some c → c = ' ') (h : Lexes cs ts) :
    Lexes (text.toList ++ cs) (⟨kind, text, .unknown⟩ :: ts) := by
  have hb := breaks_of_space hcs
  cases kind with
  | endOfInput => exact hs.elim
  | other n => exact hs.elim
  | identifier => exact name hs hb h
  | keyword =>
    obtain ⟨k, rfl⟩ := hs
    exact keyword k hb h
  | operator =>
    obtain ⟨op, hop, rfl⟩ := hs
    refine operator hop (.inr fun heq => ?_) h
    exact absurd (hcs _ heq) (by decide)
  | bracket =>
    obtain ⟨c, b, hc, rfl⟩ := hs
    rw [String.toList_ofList]
    exact bracket hc h
  | integer =>
    obtain ⟨hdigits, hvalue⟩ := hs
    have htext : String.ofList (text.toList ++ ([] ++ [])) = text := by simp
    have hresult : numberResult [] [] (String.ofList (text.toList ++ ([] ++ []))) = .ok .integer := by
      obtain ⟨c, ds, hcs⟩ := List.exists_cons_of_ne_nil hdigits.1
      rw [hcs] at hdigits hvalue
      have hsome := (Numeral.int64?_isSome_iff (hdigits.2 c (by simp))).2 ⟨hdigits, hvalue⟩
      rw [← hcs, String.ofList_toList] at hsome
      rw [numberResult, if_pos ⟨rfl, rfl⟩, htext, if_pos hsome]
    have hnumber := number hdigits .none .none hresult hb h
    rwa [htext, List.append_nil, List.append_nil] at hnumber
  | float =>
    obtain ⟨⟨whole, point, mark, htext, hwhole, hpoint, hmark, hne⟩, x, hx, -⟩ := hs
    have hresult : numberResult point mark (String.ofList (whole ++ (point ++ mark))) = .ok .float := by
      rw [numberResult, if_neg hne, ← htext, String.ofList_toList, hx]
      rfl
    have hnumber := number hwhole hpoint hmark hresult hb h
    rwa [← htext, String.ofList_toList] at hnumber
  | comma =>
    cases hs
    exact h.comma
  | semicolon =>
    cases hs
    exact h.semicolon

/-- Words with single spaces between them. -/
theorem intercalate {ts : List Token} (hts : ∀ t ∈ ts, t.kind.Spells t.text) :
    Lexes (" ".intercalate (ts.map Token.text)).toList (ts.map Token.unplaced) := by
  induction ts with
  | nil => exact nil
  | cons t ts ih =>
    obtain ⟨ht, hts⟩ := List.forall_mem_cons.1 hts
    cases ts with
    | nil =>
      have hlast := of_spells ht (by simp) nil
      rwa [List.append_nil] at hlast
    | cons u us =>
      rw [List.map_cons, List.map_cons, String.intercalate_cons_cons, String.toList_append,
        String.toList_append, List.append_assoc]
      exact of_spells ht (by rintro c ⟨⟩; rfl) (ih hts).space

end Lexes

/-! ## Texts -/

namespace TokenStream

/-- All tokens of a stream are there exactly if no answer is an error. -/
theorem tokens_eq_ok_iff {ε : Type} {s : TokenStream ε} {ts : List Token} :
    s.tokens = .ok ts ↔ s.answers = ts.map .ok := by
  unfold tokens
  constructor
  · intro h
    generalize s.answers = answers at h ⊢
    induction answers generalizing ts with
    | nil =>
      cases h
      rfl
    | cons a as ih =>
      rw [List.mapM_cons] at h
      cases a with
      | error e => cases h
      | ok t =>
        cases hmore : as.mapM id with
        | error e =>
          rw [hmore] at h
          cases h
        | ok us =>
          rw [hmore] at h
          cases h
          rw [ih hmore, List.map_cons]
  · rintro h
    rw [h]
    clear h
    induction ts with
    | nil => rfl
    | cons t ts ih =>
      rw [List.map_cons, List.mapM_cons, ih]
      rfl

/-- Every token of a text without lexical errors is spelled in the language of its kind, and the texts of the
tokens, with single spaces between them, are read as tokens of the same kinds and texts. -/
theorem tokens_intercalate_text {bytes : List UInt8} {failure : Option String} {ts : List Token}
    (h : (ofBytes bytes failure).tokens = .ok ts) :
    (∀ t ∈ ts, t.kind.Spells t.text) ∧
    ∃ us, (ofString (" ".intercalate (ts.map Token.text))).tokens = .ok us ∧
      us.map Token.unplaced = ts.map Token.unplaced := by
  have hspells : ∀ t ∈ ts, t.kind.Spells t.text := by
    intro t ht
    have hmem : .ok t ∈ (ofBytes bytes failure).answers := by
      rw [tokens_eq_ok_iff.1 h]
      exact List.mem_map_of_mem ht
    exact (isLexed_of_mem_ofBytes hmem).spells
  obtain ⟨us, hus, hunplaced, -⟩ := ofString_of_lexes (Lexes.intercalate hspells)
  exact ⟨hspells, us, tokens_eq_ok_iff.2 hus, hunplaced⟩

/-- The tokens of a comparison that is written without spaces. -/
def comparisonTokens : List Token :=
  [⟨.identifier, "a", ⟨1, 1, 0⟩⟩, ⟨.operator, "<=", ⟨1, 2, 1⟩⟩, ⟨.float, "1.5E3", ⟨1, 4, 3⟩⟩]

theorem tokens_intercalate_text_comparison :
    (ofBytes "a<=1.5E3#b".toUTF8.toList none).tokens = .ok comparisonTokens ∧
    (∀ t ∈ comparisonTokens, t.kind.Spells t.text) ∧
    ∃ us, (ofString "a <= 1.5E3").tokens = .ok us ∧
      us.map Token.unplaced = comparisonTokens.map Token.unplaced := by
  have h : (ofBytes "a<=1.5E3#b".toUTF8.toList none).tokens = .ok comparisonTokens := by decide +kernel
  exact ⟨h, tokens_intercalate_text h⟩

end TokenStream

end ScalarLang
