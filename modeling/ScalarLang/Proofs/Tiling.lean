import ScalarLang.Proofs.Decoding
import ScalarLang.Proofs.StreamErrors
/-!
# Lexing is lossless

A text is made of gaps and lexemes in turn (`tiles_scan`): gaps of white space and comments, and lexemes
that are the texts of the tokens and errors. For a text in UTF-8 that gives back its bytes, and the line
and column of every lexeme are those of its offset; calls to a lexer answer with the tokens and errors in
turn, and then with the end of input (`lossless_ofString`).
-/
namespace ScalarLang

/-! ## Gaps -/

/-- White space, and comments that a newline ends. After the last lexeme a comment may also go up to
the end of the text. -/
inductive IsGap : (last : Bool) → List Char → Prop
  | nil (last : Bool) : IsGap last []
  | blank {last : Bool} {c : Char} {cs : List Char} (hc : Text.isBlank c = true) (h : IsGap last cs) :
      IsGap last (c :: cs)
  | comment {last : Bool} {body cs : List Char} (hb : '\n' ∉ body) (h : IsGap last cs) :
      IsGap last ('#' :: (body ++ '\n' :: cs))
  | unended {body : List Char} (hb : '\n' ∉ body) : IsGap true ('#' :: body)

/-- A gap that may start inside a comment. Such a comment goes up to a newline, behind which the gap goes
on, or up to the end of the text. -/
def IsGapFrom : (comment last : Bool) → List Char → Prop
  | false, last, cs => IsGap last cs
  | true, last, cs => (∃ body more, cs = body ++ '\n' :: more ∧ '\n' ∉ body ∧ IsGap last more) ∨
      (last = true ∧ '\n' ∉ cs)

theorem IsGap.of_isGapFrom {last : Bool} {cs : List Char} (h : IsGapFrom true last cs) :
    IsGap last ('#' :: cs) := by
  rcases h with ⟨body, more, rfl, hb, hmore⟩ | ⟨rfl, hcs⟩
  · exact .comment hb hmore
  · exact .unended hcs

theorem IsGapFrom.cons {last : Bool} {c : Char} {cs : List Char}
    (h : IsGapFrom (decide (c ≠ '\n')) last cs) : IsGapFrom true last (c :: cs) := by
  by_cases hc : c = '\n'
  · subst hc
    exact .inl ⟨[], cs, rfl, by simp, h⟩
  · rw [decide_eq_true hc] at h
    rcases h with ⟨body, more, rfl, hb, hmore⟩ | ⟨rfl, hcs⟩
    · exact .inl ⟨c :: body, more, rfl, by simpa using ⟨Ne.symm hc, hb⟩, hmore⟩
    · exact .inr ⟨rfl, by simpa using ⟨Ne.symm hc, hcs⟩⟩

theorem isGapFrom_splitGap (comment : Bool) (gs : List Glyph) :
    (splitGap comment gs).1 ++ (splitGap comment gs).2 = gs ∧
      IsGapFrom comment (splitGap comment gs).2.isEmpty ((splitGap comment gs).1.map Glyph.char) := by
  induction gs generalizing comment with
  | nil =>
    cases comment with
    | false => exact ⟨rfl, .nil _⟩
    | true => exact ⟨rfl, .inr ⟨rfl, by simp [splitGap]⟩⟩
  | cons g gs ih =>
    have hcons : splitGap comment (g :: gs) =
        if comment || Text.isBlank g.char || decide (g.char = '#') then
          (g :: (splitGap (if comment then g.char ≠ '\n' else g.char = '#') gs).1,
            (splitGap (if comment then g.char ≠ '\n' else g.char = '#') gs).2)
        else ([], g :: gs) := rfl
    rw [hcons]
    cases comment with
    | true =>
      obtain ⟨hsplit, hgap⟩ := ih (decide (g.char ≠ '\n'))
      simp only [Bool.true_or, ↓reduceIte, List.cons_append, List.cons.injEq, true_and]
      exact ⟨hsplit, hgap.cons⟩
    | false =>
      obtain ⟨hsplit, hgap⟩ := ih (decide (g.char = '#'))
      simp only [Bool.false_or, Bool.false_eq_true, ↓reduceIte]
      split
      · rename_i hstart
        refine ⟨by rw [List.cons_append, hsplit], ?_⟩
        by_cases hsign : g.char = '#'
        · rw [decide_eq_true hsign] at hgap ⊢
          rw [List.map_cons, hsign]
          exact .of_isGapFrom hgap
        · rw [decide_eq_false hsign] at hgap hstart ⊢
          exact .blank (by simpa using hstart) hgap
      · exact ⟨rfl, .nil _⟩

/-! ## Lexemes -/

namespace Lexeme

theorem append_splitSign (gs : List Glyph) : (splitSign gs).1 ++ (splitSign gs).2 = gs := by
  cases gs with
  | nil => rfl
  | cons g gs => simp only [splitSign]; split <;> rfl

theorem append_splitExponent (gs : List Glyph) : (splitExponent gs).1 ++ (splitExponent gs).2 = gs := by
  cases gs with
  | nil => rfl
  | cons g gs =>
    simp only [splitExponent]
    split
    · rw [List.cons_append, List.append_assoc, List.takeWhile_append_dropWhile, append_splitSign]
    · rfl

theorem append_number (g : Glyph) (tail : List Glyph) :
    (number g tail).glyphs ++ (number g tail).rest = g :: tail := by
  simp only [number]
  split
  · rw [List.cons_append, List.takeWhile_append_dropWhile]
  · split
    · rw [List.cons_append, List.takeWhile_append_dropWhile]
    · rw [List.append_assoc, append_splitExponent, List.cons_append, List.takeWhile_append_dropWhile]

theorem append_operator (g : Glyph) (tail : List Glyph) :
    (operator g tail).glyphs ++ (operator g tail).rest = g :: tail := by
  cases tail with
  | nil => rfl
  | cons h tail => simp only [operator]; split <;> rfl

/-- Nothing is lost between a lexeme and what follows it. -/
theorem append_read (g : Glyph) (tail : List Glyph) :
    (read g tail).glyphs ++ (read g tail).rest = g :: tail := by
  unfold read
  split
  · rw [word, List.cons_append, List.takeWhile_append_dropWhile]
  · split
    · exact append_number g tail
    · unfold symbol
      repeat' split
      · rfl
      · rfl
      · rfl
      · exact append_operator g tail
      · rfl

theorem glyphs_read_ne_nil (g : Glyph) (tail : List Glyph) : (read g tail).glyphs ≠ [] := by
  intro hnil
  have happend := append_read g tail
  rw [hnil, List.nil_append] at happend
  have hle := length_rest_le g tail
  rw [happend, List.length_cons] at hle
  omega

end Lexeme

/-! ## Texts -/

/-- Where an error of reading is. -/
def ScanError.pos : ScanError → Position
  | lexical e => e.pos
  | unreadable pos _ => pos

/-- The part of the text that an error is about. -/
def ScanError.lexeme : ScanError → String
  | lexical e => e.lexeme
  | unreadable _ _ => ""

namespace TokenStream

/-- Where a token or an error stands. -/
def place : Except ScanError Token → Position
  | .ok t => t.pos
  | .error e => e.pos

/-- The text of a token, or the lexeme of an error. -/
def spelling : Except ScanError Token → String
  | .ok t => t.text
  | .error e => e.lexeme

/-- From `pos` on these glyphs are gaps and the lexemes of the answers in turn, up to `ending`. -/
inductive Tiles : Position → List Glyph → List (Except ScanError Token) → Position → Prop
  | last {pos : Position} {gap : List Glyph} (hgap : IsGap true (gap.map Glyph.char)) :
      Tiles pos gap [] (pos.after gap)
  | lexeme {pos ending : Position} {gap glyphs rest : List Glyph} {a : Except ScanError Token}
      {answers : List (Except ScanError Token)} (hgap : IsGap false (gap.map Glyph.char))
      (hne : glyphs ≠ []) (hplace : place a = pos.after gap) (htext : spelling a = Glyph.text glyphs)
      (h : Tiles ((pos.after gap).after glyphs) rest answers ending) :
      Tiles pos (gap ++ (glyphs ++ rest)) (a :: answers) ending

theorem tiles_scan (pos : Position) (gs : List Glyph) :
    Tiles pos gs ((scan pos gs).1.map (·.mapError .lexical)) (scan pos gs).2 := by
  fun_induction scan pos gs with
  | case1 pos gs gap hgap =>
    obtain ⟨hsplit, hisgap⟩ := isGapFrom_splitGap false gs
    rw [hgap] at hsplit hisgap
    rw [← hsplit, List.append_nil]
    exact .last hisgap
  | case2 pos gs gap g tail hgap lexeme here more ending hscan ih =>
    obtain ⟨hsplit, hisgap⟩ := isGapFrom_splitGap false gs
    rw [hgap] at hsplit hisgap
    rw [hscan] at ih
    rw [← hsplit, ← Lexeme.append_read g tail]
    refine .lexeme hisgap (Lexeme.glyphs_read_ne_nil g tail) ?_ ?_ ih
    · unfold Lexeme.answer
      cases lexeme.result <;> rfl
    · unfold Lexeme.answer
      cases lexeme.result <;> rfl

namespace Tiles

variable {pos ending : Position} {gs : List Glyph} {answers : List (Except ScanError Token)}

theorem ending_eq (h : Tiles pos gs answers ending) : ending = pos.after gs := by
  induction h with
  | last _ => rfl
  | lexeme _ _ _ _ _ ih => rw [ih, Position.after_append, Position.after_append]

/-- Every answer stands where some first part of the text ends. -/
theorem exists_prefix (h : Tiles pos gs answers ending) {a : Except ScanError Token} (ha : a ∈ answers) :
    ∃ pre post, gs = pre ++ post ∧ place a = pos.after pre := by
  induction h with
  | last _ => cases ha
  | @lexeme pos _ gap glyphs rest b _ _ _ hplace _ _ ih =>
    rcases List.mem_cons.1 ha with rfl | ha
    · exact ⟨gap, glyphs ++ rest, rfl, hplace⟩
    · obtain ⟨pre, post, rfl, hpre⟩ := ih ha
      refine ⟨gap ++ (glyphs ++ pre), post, by simp, ?_⟩
      rw [hpre, Position.after_append, Position.after_append]

/-- The answers come in the order of their places, and all before the end. -/
theorem pairwise_offset (h : Tiles pos gs answers ending) (hwidth : ∀ g ∈ gs, 0 < g.width) :
    (∀ a ∈ answers, pos.offset ≤ (place a).offset ∧ (place a).offset < ending.offset) ∧
      (answers.map fun a => (place a).offset).Pairwise (· < ·) := by
  induction h with
  | last _ => simp
  | @lexeme pos ending gap glyphs rest a answers _ hne hplace _ h ih =>
    obtain ⟨hbounds, hpairwise⟩ := ih fun g hg => hwidth g (by simp [hg])
    have hending := h.ending_eq
    obtain ⟨g, glyphs, rfl⟩ := List.exists_cons_of_ne_nil hne
    have hg := hwidth g (by simp)
    have hoffset : (place a).offset = pos.offset + Glyph.widths gap := by
      rw [hplace, Position.offset_after]
    have hnext : (place a).offset < ((pos.after gap).after (g :: glyphs)).offset := by
      rw [hplace, Position.offset_after _ (g :: glyphs), Glyph.widths_cons]
      omega
    have hlast : ((pos.after gap).after (g :: glyphs)).offset ≤ ending.offset := by
      rw [hending, Position.offset_after _ rest]
      omega
    refine ⟨fun b hb => ?_, ?_⟩
    · rcases List.mem_cons.1 hb with rfl | hb
      · omega
      · have := hbounds b hb
        omega
    · rw [List.map_cons, List.pairwise_cons]
      refine ⟨fun n hn => ?_, hpairwise⟩
      obtain ⟨b, hb, rfl⟩ := List.mem_map.1 hn
      have := hbounds b hb
      omega

end Tiles

/-- The answers to the texts of a whole source. -/
theorem tiles_ofBytes (bytes : List UInt8) :
    Tiles .start (Glyph.decode bytes) (ofBytes bytes none).answers (ofBytes bytes none).ending := by
  have htiles := tiles_scan .start (Glyph.decode bytes)
  simpa only [ofBytes, List.append_nil] using htiles

/-- The line and column of an answer are those of its offset, and so are those of the end. -/
theorem place_ofBytes (bytes : List UInt8) :
    (∀ a ∈ (ofBytes bytes none).answers, ∃ n < bytes.length, place a = .ofOffset bytes n) ∧
      (ofBytes bytes none).ending = .ofOffset bytes bytes.length := by
  have htiles := tiles_ofBytes bytes
  have hwhole : Position.start.after (Glyph.decode bytes) = .ofOffset bytes bytes.length := by
    rw [Position.start_after (List.append_nil _).symm, Glyph.widths_decode]
  refine ⟨fun a ha => ?_, htiles.ending_eq.trans hwhole⟩
  obtain ⟨pre, post, hsplit, hplace⟩ := htiles.exists_prefix ha
  have hstart := Position.start_after hsplit
  have hbound := ((htiles.pairwise_offset fun _ => Glyph.width_pos_of_mem_decode).1 a ha).2
  rw [htiles.ending_eq, hwhole, hplace, hstart] at hbound
  refine ⟨Glyph.widths pre, ?_, hplace.trans hstart⟩
  simp only [Position.ofOffset] at hbound
  omega

theorem pairwise_offset_ofBytes (bytes : List UInt8) :
    ((ofBytes bytes none).answers.map fun a => (place a).offset).Pairwise (· < ·) :=
  ((tiles_ofBytes bytes).pairwise_offset fun _ => Glyph.width_pos_of_mem_decode).2

/-! ## Texts in UTF-8 -/

/-- The bytes from `start` up to `stop` are a gap. -/
def IsGapBetween (bytes : List UInt8) (last : Bool) (start stop : Nat) : Prop :=
  start ≤ stop ∧ ∃ gap : List Char, IsGap last gap ∧
    (bytes.drop start).take (stop - start) = (String.ofList gap).toUTF8.toList

/-- From `start` on, the bytes are gaps and the texts of the answers in turn, and each text stands at the
offset of its answer. -/
inductive Covers (bytes : List UInt8) : Nat → List (Except ScanError Token) → Prop
  | last {start : Nat} (hgap : IsGapBetween bytes true start bytes.length) : Covers bytes start []
  | text {start : Nat} {a : Except ScanError Token} {answers : List (Except ScanError Token)}
      (hgap : IsGapBetween bytes false start (place a).offset.toNat) (hne : spelling a ≠ "")
      (htext : (spelling a).toUTF8.toList <+: bytes.drop (place a).offset.toNat)
      (h : Covers bytes ((place a).offset.toNat + (spelling a).toUTF8.toList.length) answers) :
      Covers bytes start (a :: answers)

end TokenStream

namespace Glyph

theorem toUTF8_append (cs ds : List Char) : (String.ofList (cs ++ ds)).toUTF8.toList =
    (String.ofList cs).toUTF8.toList ++ (String.ofList ds).toUTF8.toList := by
  simp only [toList_toUTF8, List.flatMap_append]

theorem text_map_ofChar (cs : List Char) : text (cs.map ofChar) = String.ofList cs := by
  simp [text, ofChar, Function.comp_def]

end Glyph

namespace TokenStream

theorem isGapBetween_append {last : Bool} {gap : List Char} (before after : List Char)
    (h : IsGap last gap) :
    IsGapBetween (String.ofList (before ++ (gap ++ after))).toUTF8.toList last
      (String.ofList before).toUTF8.toList.length
      (String.ofList (before ++ gap)).toUTF8.toList.length := by
  simp only [Glyph.toUTF8_append]
  refine ⟨by simp, gap, h, ?_⟩
  rw [List.drop_left, List.length_append, Nat.add_sub_cancel_left, List.take_left]

theorem Tiles.covers {pos ending : Position} {gs : List Glyph} {answers : List (Except ScanError Token)}
    (h : Tiles pos gs answers ending) (before cs : List Char) (hcs : gs = cs.map Glyph.ofChar)
    (hpos : pos.offset = (String.ofList before).toUTF8.toList.length) :
    Covers (String.ofList (before ++ cs)).toUTF8.toList
      (String.ofList before).toUTF8.toList.length answers := by
  induction h generalizing before cs with
  | @last pos gap hgap =>
    subst hcs
    have hchars : (cs.map Glyph.ofChar).map Glyph.char = cs := by simp [Glyph.ofChar, Function.comp_def]
    rw [hchars] at hgap
    have hbetween := isGapBetween_append before [] hgap
    rw [List.append_nil] at hbetween
    exact .last hbetween
  | @lexeme pos ending gap glyphs rest a answers hgap hne hplace htext _ ih =>
    obtain ⟨gapChars, more, rfl, rfl, hmore⟩ := List.map_eq_append_iff.1 hcs.symm
    obtain ⟨chars, restChars, rfl, rfl, rfl⟩ := List.map_eq_append_iff.1 hmore
    have hchars : (gapChars.map Glyph.ofChar).map Glyph.char = gapChars := by
      simp [Glyph.ofChar, Function.comp_def]
    rw [hchars] at hgap
    rw [Glyph.text_map_ofChar] at htext
    have hoffset : (place a).offset.toNat = (String.ofList (before ++ gapChars)).toUTF8.toList.length := by
      rw [hplace, Position.offset_after, hpos, Glyph.toUTF8_append, List.length_append,
        Glyph.length_toUTF8 gapChars]
      omega
    have hnext := ih (before ++ gapChars ++ chars) restChars rfl (by
      rw [Position.offset_after, Position.offset_after, hpos, Glyph.toUTF8_append, Glyph.toUTF8_append,
        List.length_append, List.length_append, Glyph.length_toUTF8 gapChars, Glyph.length_toUTF8 chars]
      omega)
    refine .text ?_ ?_ ?_ ?_
    · rw [hoffset]
      exact isGapBetween_append before (chars ++ restChars) hgap
    · rw [htext]
      intro hempty
      rw [String.ofList_eq_empty_iff] at hempty
      exact hne (by rw [hempty]; rfl)
    · rw [hoffset, htext, ← List.append_assoc, Glyph.toUTF8_append _ (chars ++ restChars), List.drop_left,
        Glyph.toUTF8_append chars]
      exact List.prefix_append ..
    · have hlength : (place a).offset.toNat + (spelling a).toUTF8.toList.length =
          (String.ofList (before ++ gapChars ++ chars)).toUTF8.toList.length := by
        rw [hoffset, htext, Glyph.toUTF8_append _ chars, List.length_append]
      rw [hlength]
      simpa only [List.append_assoc] using hnext

end TokenStream

/-! ## Calls for tokens -/

namespace TokenStream

variable {pos : Position} {g : Glyph} {gap gs tail : List Glyph}

theorem scan_of_gap (h : splitGap false gs = (gap, [])) : scan pos gs = ([], pos.after gap) := by
  rw [scan]
  split
  · rename_i heq
    rw [h] at heq
    cases heq
    rfl
  · rename_i heq
    rw [h] at heq
    cases heq

theorem scan_of_lexeme (h : splitGap false gs = (gap, g :: tail)) :
    scan pos gs = ((Lexeme.read g tail).answer (pos.after gap) ::
        (scan ((pos.after gap).after (Lexeme.read g tail).glyphs) (Lexeme.read g tail).rest).1,
      (scan ((pos.after gap).after (Lexeme.read g tail).glyphs) (Lexeme.read g tail).rest).2) := by
  rw [scan]
  split
  · rename_i heq
    rw [h] at heq
    cases heq
  · rename_i heq
    rw [h] at heq
    cases heq
    rfl

end TokenStream

/-- A lexer that answers call after call: the place that it has come to, and the text that is left. -/
structure Lexer where
  pos : Position
  rest : List Glyph

namespace Lexer

/-- No call was made yet. -/
def ofBytes (bytes : List UInt8) : Lexer := ⟨.start, Glyph.decode bytes⟩

/-- A call reads over a gap and a lexeme, also over one that is an error. At the end of the text it finds
the end of input, and leaves nothing that a later call could read. -/
def next (l : Lexer) : Except ScanError Token × Lexer :=
  match splitGap false l.rest with
  | (gap, []) => (.ok ⟨.endOfInput, "", l.pos.after gap⟩, ⟨l.pos.after gap, []⟩)
  | (gap, g :: tail) =>
    let lexeme := Lexeme.read g tail
    let here := l.pos.after gap
    ((lexeme.answer here).mapError .lexical, ⟨here.after lexeme.glyphs, lexeme.rest⟩)

/-- What a call answers after `n` calls before it. -/
def call (l : Lexer) : Nat → Except ScanError Token
  | 0 => l.next.1
  | n + 1 => l.next.2.call n

theorem call_eq (l : Lexer) (n : Nat) :
    l.call n = ((TokenStream.scan l.pos l.rest).1.map (·.mapError .lexical))[n]?.getD
      (.ok ⟨.endOfInput, "", (TokenStream.scan l.pos l.rest).2⟩) := by
  induction n generalizing l with
  | zero =>
    unfold call next
    split
    · rename_i hgap
      rw [TokenStream.scan_of_gap hgap]
      rfl
    · rename_i hgap
      rw [TokenStream.scan_of_lexeme hgap]
      rfl
  | succ n ih =>
    rw [call, ih]
    unfold next
    split
    · rename_i hgap
      rw [TokenStream.scan_of_gap hgap, TokenStream.scan_of_gap (show splitGap false [] = ([], []) from rfl)]
      rfl
    · rename_i hgap
      rw [TokenStream.scan_of_lexeme hgap]
      rfl

end Lexer

namespace Cursor

variable {ε : Type}

/-- What a call for the next token answers after `n` calls before it. -/
def call (c : Cursor ε) : Nat → Except ε Token
  | 0 => c.next.1
  | n + 1 => call c.next.2 n

/-- Once the end of input was looked at, every call answers with it. -/
theorem call_ended {t : Token} (ht : t.isEnd = true) (p : Position) (n : Nat) :
    (⟨some t, [], p⟩ : Cursor ε).call n = .ok t := by
  have hnext : (⟨some t, [], p⟩ : Cursor ε).next = (.ok t, ⟨some t, [], p⟩) := by
    simp [next, peek, ht]
  induction n with
  | zero => rw [call, hnext]
  | succ n ih => rw [call, hnext, ih]

/-- Calls give the answers of a stream in turn, and then the end of input again and again. -/
theorem call_ofStream {s : TokenStream ε} (hs : ∀ t, .ok t ∈ s.answers → t.isEnd = false) (n : Nat) :
    (Cursor.ofStream s).call n = s.answers[n]?.getD (.ok s.final) := by
  obtain ⟨answers, ending⟩ := s
  induction n generalizing answers with
  | zero =>
    cases answers with
    | nil => rfl
    | cons a answers => cases a <;> rfl
  | succ n ih =>
    cases answers with
    | nil => exact call_ended rfl ending n
    | cons a answers =>
      have hnext : (Cursor.ofStream ⟨a :: answers, ending⟩ : Cursor ε).next.2 =
          Cursor.ofStream ⟨answers, ending⟩ := by
        cases a with
        | error e => rfl
        | ok t => simp [Cursor.ofStream, next, peek, hs t (by simp), skip]
      rw [call, hnext, ih answers fun t ht => hs t (by simp [ht])]
      rfl

end Cursor

namespace TokenStream

/-- The answers of a stream lose nothing of the bytes: together with gaps they give them back, in order,
each of them at the line and column of its offset; and the end of input, which is answered again and
again, stands at the end of the bytes. Calls to a lexer give the answers of the stream in turn and then
its end of input, and so do calls that go through the token that a parser holds. -/
structure Lossless (bytes : List UInt8) (s : TokenStream ScanError) : Prop where
  covers : Covers bytes 0 s.answers
  increasing : (s.answers.map fun a => (place a).offset).Pairwise (· < ·)
  places : ∀ a ∈ s.answers, ∃ n < bytes.length, place a = .ofOffset bytes n
  ending : s.ending = .ofOffset bytes bytes.length
  answered : ∀ n, (Lexer.ofBytes bytes).call n = s.answers[n]?.getD (.ok s.final)
  calls : ∀ n, (Cursor.ofStream s).call n = s.answers[n]?.getD (.ok s.final)

/-- Lexing a text loses nothing. -/
theorem lossless_ofString (text : String) : Lossless text.toUTF8.toList (ofString text) where
  covers := by
    have htiles := tiles_ofBytes text.toUTF8.toList
    have hdecode := Glyph.decode_ofList text.toList
    rw [String.ofList_toList] at hdecode
    rw [hdecode] at htiles
    have hempty : (String.ofList []).toUTF8.toList.length = 0 := Glyph.length_toUTF8 []
    have hcovers := htiles.covers [] text.toList rfl (by rw [hempty]; rfl)
    rw [List.nil_append, String.ofList_toList, hempty] at hcovers
    exact hcovers
  increasing := pairwise_offset_ofBytes _
  places := (place_ofBytes _).1
  ending := (place_ofBytes _).2
  answered := by
    intro n
    rw [Lexer.call_eq, ofString, ofBytes]
    simp only [List.append_nil]
    rfl
  calls := Cursor.call_ofStream fun _ => Reading.isEnd_of_mem_ofBytes

end TokenStream

end ScalarLang
