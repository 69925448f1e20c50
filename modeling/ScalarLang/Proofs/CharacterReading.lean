import Mathlib.Data.List.Basic
import ScalarLang.Proofs.Decoding
import ScalarLang.Text.Reader
/-!
# A reader tracks its place exactly

`spelled_iff`: decoding gives what the bytes spell, where a character stands for its own UTF-8 and a byte
with which no character's UTF-8 starts stands for the replacement. `replies_ofBytes`: whatever calls are
made, each of them is answered by what the calls before it have consumed of these characters.
-/
namespace ScalarLang

/-! ## What bytes spell -/

namespace Glyph

/-- The glyphs that bytes spell. A byte is read alone if no character's UTF-8 stands there. -/
inductive Spelled : List UInt8 → List Glyph → Prop
  | nil : Spelled [] []
  | char (c : Char) {rest : List UInt8} {gs : List Glyph} (h : Spelled rest gs) :
      Spelled (String.utf8EncodeChar c ++ rest) (⟨c, (String.utf8EncodeChar c).length⟩ :: gs)
  | invalid {b : UInt8} {rest : List UInt8} {gs : List Glyph}
      (hb : ∀ c, ¬ String.utf8EncodeChar c <+: b :: rest) (h : Spelled rest gs) :
      Spelled (b :: rest) (⟨'�', 1⟩ :: gs)

theorem val_ofNat {n : Nat} (h : n.isValidChar) : (Char.ofNat n).val.toNat = n := by
  have haux : Char.ofNat n = Char.ofNatAux n h := dif_pos h
  rw [haux]
  rfl

theorem ofNat_eq {n : Nat} {b : UInt8} (h : n = b.toNat) : UInt8.ofNat n = b := by
  rw [h, UInt8.ofNat_toNat]

section

variable {a b c d : UInt8}

theorem utf8EncodeChar_one (h : a.toNat < 0x80) :
    String.utf8EncodeChar (Char.ofNat a.toNat) = [a] := by
  have hval := val_ofNat (n := a.toNat) (.inl (by omega))
  unfold String.utf8EncodeChar
  simp only [hval]
  rw [if_pos (by omega), UInt8.ofNat_toNat]

theorem utf8EncodeChar_two (ha : 0xC2 ≤ a.toNat ∧ a.toNat ≤ 0xDF) (hb : isSecond a b = true) :
    String.utf8EncodeChar (Char.ofNat (a.toNat % 0x20 * 0x40 + tailBits b)) = [a, b] := by
  rw [isSecond_iff] at hb
  unfold tailBits
  have hval := val_ofNat (n := a.toNat % 0x20 * 0x40 + b.toNat % 0x40) (.inl (by omega))
  unfold String.utf8EncodeChar
  simp only [hval]
  rw [if_neg (by omega), if_pos (by omega), ofNat_eq (b := a) (by omega), ofNat_eq (b := b) (by omega)]

/-- The second byte keeps the value out of the surrogates. -/
theorem utf8EncodeChar_three (ha : 0xE0 ≤ a.toNat ∧ a.toNat ≤ 0xEF) (hb : isSecond a b = true)
    (hc : isTail c = true) :
    String.utf8EncodeChar (Char.ofNat ((a.toNat % 0x10 * 0x40 + tailBits b) * 0x40 + tailBits c)) =
      [a, b, c] := by
  rw [isSecond_iff] at hb
  rw [isTail_iff] at hc
  unfold tailBits
  have hvalid : ((a.toNat % 0x10 * 0x40 + b.toNat % 0x40) * 0x40 + c.toNat % 0x40).isValidChar := by
    unfold Nat.isValidChar
    omega
  have hval := val_ofNat hvalid
  unfold String.utf8EncodeChar
  simp only [hval]
  rw [if_neg (by omega), if_neg (by omega), if_pos (by omega), ofNat_eq (b := a) (by omega),
    ofNat_eq (b := b) (by omega), ofNat_eq (b := c) (by omega)]

theorem utf8EncodeChar_four (ha : 0xF0 ≤ a.toNat ∧ a.toNat ≤ 0xF4) (hb : isSecond a b = true)
    (hc : isTail c = true) (hd : isTail d = true) :
    String.utf8EncodeChar (Char.ofNat
      (((a.toNat % 0x08 * 0x40 + tailBits b) * 0x40 + tailBits c) * 0x40 + tailBits d)) =
      [a, b, c, d] := by
  rw [isSecond_iff] at hb
  rw [isTail_iff] at hc hd
  unfold tailBits
  have hvalid : (((a.toNat % 0x08 * 0x40 + b.toNat % 0x40) * 0x40 + c.toNat % 0x40) * 0x40
      + d.toNat % 0x40).isValidChar := by
    unfold Nat.isValidChar
    omega
  have hval := val_ofNat hvalid
  unfold String.utf8EncodeChar
  simp only [hval]
  rw [if_neg (by omega), if_neg (by omega), if_neg (by omega), ofNat_eq (b := a) (by omega),
    ofNat_eq (b := b) (by omega), ofNat_eq (b := c) (by omega), ofNat_eq (b := d) (by omega)]

end

/-- A glyph that is not the replacement is a character whose UTF-8 stands there. -/
theorem first_cases (a : UInt8) (rest : List UInt8) :
    first a rest = replacement ∨ ∃ c, String.utf8EncodeChar c <+: a :: rest := by
  have hstart {n : Nat} {used : List UInt8} (tail : List UInt8)
      (h : String.utf8EncodeChar (Char.ofNat n) = used) : ∃ c, String.utf8EncodeChar c <+: used ++ tail :=
    ⟨Char.ofNat n, by rw [h]; exact List.prefix_append used tail⟩
  unfold first
  split
  · rename_i ha
    exact .inr (hstart rest (utf8EncodeChar_one (UInt8.lt_iff_toNat_lt.1 ha)))
  split
  · rename_i ha
    split
    · split
      · rename_i b tail hb
        exact .inr (hstart tail (utf8EncodeChar_two (by simpa [UInt8.le_iff_toNat_le] using ha) hb))
      · exact .inl rfl
    · exact .inl rfl
  split
  · rename_i ha
    split
    · split
      · rename_i b c tail h
        obtain ⟨hb, hc⟩ := Bool.and_eq_true_iff.1 h
        exact .inr (hstart tail (utf8EncodeChar_three (by simpa [UInt8.le_iff_toNat_le] using ha) hb hc))
      · exact .inl rfl
    · exact .inl rfl
  split
  · rename_i ha
    split
    · split
      · rename_i b c d tail h
        obtain ⟨hbc, hd⟩ := Bool.and_eq_true_iff.1 h
        obtain ⟨hb, hc⟩ := Bool.and_eq_true_iff.1 hbc
        exact .inr (hstart tail (utf8EncodeChar_four (by simpa [UInt8.le_iff_toNat_le] using ha) hb hc hd))
      · exact .inl rfl
    · exact .inl rfl
  · exact .inl rfl

theorem ofChar_eq_length (c : Char) : (⟨c, (String.utf8EncodeChar c).length⟩ : Glyph) = ofChar c := by
  rw [String.length_utf8EncodeChar]
  rfl

/-- Where no character's UTF-8 stands, one byte is read alone. -/
theorem first_of_invalid {b : UInt8} {rest : List UInt8}
    (hb : ∀ c, ¬ String.utf8EncodeChar c <+: b :: rest) : first b rest = replacement := by
  rcases first_cases b rest with h | ⟨c, hc⟩
  · exact h
  · exact absurd hc (hb c)

theorem decode_of_invalid {b : UInt8} {rest : List UInt8}
    (hb : ∀ c, ¬ String.utf8EncodeChar c <+: b :: rest) :
    decode (b :: rest) = replacement :: decode rest := by
  rw [decode, first_of_invalid hb]
  rfl

theorem spelled_decode (bytes : List UInt8) : Spelled bytes (decode bytes) := by
  cases bytes with
  | nil =>
    rw [decode_nil]
    exact .nil
  | cons a rest =>
    -- the rules exclude each other, and decoding follows the one that applies
    by_cases h : ∃ c, String.utf8EncodeChar c <+: a :: rest
    · obtain ⟨c, tail, htail⟩ := h
      have hlt : tail.length < rest.length + 1 := by
        have hpos := c.utf8Size_pos
        rw [← List.length_cons, ← htail, List.length_append, String.length_utf8EncodeChar]
        omega
      rw [← htail, decode_utf8EncodeChar, ← ofChar_eq_length]
      exact .char c (spelled_decode tail)
    · have hb : ∀ c, ¬ String.utf8EncodeChar c <+: a :: rest := fun c hc => h ⟨c, hc⟩
      rw [decode_of_invalid hb]
      exact .invalid hb (spelled_decode rest)
termination_by bytes.length

/-- Bytes spell one text only, and decoding finds it. -/
theorem spelled_iff (bytes : List UInt8) (gs : List Glyph) : Spelled bytes gs ↔ gs = decode bytes := by
  constructor
  · intro h
    induction h with
    | nil => rw [decode_nil]
    | char c _ ih => rw [ih, decode_utf8EncodeChar, ofChar_eq_length]
    | invalid hb _ ih =>
      rw [ih, decode_of_invalid hb]
      rfl
  · rintro rfl
    exact spelled_decode bytes

end Glyph

/-! ## Calls -/

namespace Reader

/-- What a reader can be asked. -/
inductive Call where
  | peek
  | next
  | position
  | error
  deriving DecidableEq

/-- Whether a call asks for a character. -/
def Call.looks (call : Call) : Prop := call = .peek ∨ call = .next

/-- An answer to a call. There is no character past the last byte. -/
inductive Reply where
  | character (char : Option Char)
  | place (pos : Position)
  | failure (cause : Option String)
  deriving DecidableEq

/-- What a call answers, and what it leaves. -/
def answer (r : Reader) : Call → Reply × Reader
  | .peek => (.character r.peek.1, r.peek.2)
  | .next => (.character r.next.1, r.next.2)
  | .position => (.place r.pos, r)
  | .error => (.failure r.error?, r)

/-- The reader after some calls. -/
def after (r : Reader) : List Call → Reader
  | [] => r
  | call :: calls => (r.answer call).2.after calls

/-- The answers to some calls, in order. -/
def replies (r : Reader) : List Call → List Reply
  | [] => []
  | call :: calls => (r.answer call).1 :: (r.answer call).2.replies calls

/-- Each answer is that of the reader which the calls before it have left. -/
theorem replies_append (r : Reader) (before calls : List Call) :
    r.replies (before ++ calls) = r.replies before ++ (r.after before).replies calls := by
  induction before generalizing r with
  | nil => rfl
  | cons call before ih => simp only [List.cons_append, replies, after, ih]

theorem length_replies (r : Reader) (calls : List Call) : (r.replies calls).length = calls.length := by
  induction calls generalizing r with
  | nil => rfl
  | cons call calls ih => simp only [replies, List.length_cons, ih]

theorem after_concat (r : Reader) (calls : List Call) (call : Call) :
    r.after (calls ++ [call]) = ((r.after calls).answer call).2 := by
  induction calls generalizing r with
  | nil => rfl
  | cons c calls ih => exact ih (r.answer c).2

/-! ## What the answers should be -/

/-- The number of characters that some calls have consumed, or would have if there were so many. -/
def consumed (calls : List Call) : Nat := calls.count .next

/-- One of the calls has looked past the last of `n` characters. -/
def Overran (n : Nat) (calls : List Call) : Prop :=
  ∃ before call rest, calls = before ++ call :: rest ∧ call.looks ∧ n ≤ consumed before

/-- What a reader of the text `gs`, which ends by `failure` if there is one, is to answer after the calls
`before`. -/
inductive Expects (gs : List Glyph) (failure : Option String) (before : List Call) : Call → Reply → Prop
  | peek : Expects gs failure before .peek (.character (gs[consumed before]?.map Glyph.char))
  | next : Expects gs failure before .next (.character (gs[consumed before]?.map Glyph.char))
  | position : Expects gs failure before .position (.place
      ⟨1 + (gs.take (consumed before)).countP (·.char = '\n'),
        1 + ((gs.take (consumed before)).reverse.takeWhile (·.char ≠ '\n')).length,
        Glyph.widths (gs.take (consumed before))⟩)
  | silent (h : ¬ Overran gs.length before) : Expects gs failure before .error (.failure none)
  | failed (h : Overran gs.length before) : Expects gs failure before .error (.failure failure)

/-! ## What they are -/

/-- How a reader of `gs` stands after some calls. -/
structure Stands (gs : List Glyph) (failure : Option String) (calls : List Call) (r : Reader) : Prop where
  rest : r.rest = gs.drop (consumed calls)
  pos : r.pos = Position.start.after (gs.take (consumed calls))
  failure : r.failure = failure
  ended : r.ended = true ↔ Overran gs.length calls

variable {gs : List Glyph} {failure : Option String} {calls : List Call} {r : Reader}

theorem consumed_concat (calls : List Call) (call : Call) :
    consumed (calls ++ [call]) = consumed calls + if call = .next then 1 else 0 := by
  unfold consumed
  rw [List.count_append, List.count_singleton]
  simp

theorem overran_concat (n : Nat) (calls : List Call) (call : Call) :
    Overran n (calls ++ [call]) ↔ Overran n calls ∨ (call.looks ∧ n ≤ consumed calls) := by
  constructor
  · rintro ⟨before, c, rest, h, hlooks, hle⟩
    rcases List.eq_nil_or_concat' rest with rfl | ⟨rest, last, rfl⟩
    · obtain ⟨rfl, hcall⟩ := List.append_inj' h rfl
      cases hcall
      exact .inr ⟨hlooks, hle⟩
    · rw [← List.cons_append, ← List.append_assoc] at h
      obtain ⟨rfl, -⟩ := List.append_inj' h rfl
      exact .inl ⟨before, c, rest, rfl, hlooks, hle⟩
  · rintro (⟨before, c, rest, rfl, hlooks, hle⟩ | ⟨hlooks, hle⟩)
    · exact ⟨before, c, rest ++ [call], by simp, hlooks, hle⟩
    · exact ⟨calls, call, [], rfl, hlooks, hle⟩

theorem stands_ofBytes (bytes : List UInt8) (failure : Option String) :
    Stands (Glyph.decode bytes) failure [] (ofBytes bytes failure) where
  rest := rfl
  pos := rfl
  failure := rfl
  ended := by
    constructor
    · intro h
      cases h
    · rintro ⟨before, call, rest, h, -⟩
      exact absurd h (by simp)

/-- Past the last character a look changes nothing but that it was made. -/
theorem Stands.past {call : Call} (h : Stands gs failure calls r) (hlooks : call.looks)
    (hnil : r.rest = []) : Stands gs failure (calls ++ [call]) { r with rest := [], ended := true } := by
  have hle : gs.length ≤ consumed calls := by
    rw [h.rest] at hnil
    exact List.drop_eq_nil_iff.1 hnil
  have hle' : gs.length ≤ consumed (calls ++ [call]) := by
    rw [consumed_concat]
    omega
  refine ⟨?_, ?_, h.failure, ?_⟩
  · rw [List.drop_eq_nil_of_le hle']
  · rw [List.take_of_length_le hle', ← List.take_of_length_le hle]
    exact h.pos
  · rw [overran_concat]
    exact ⟨fun _ => .inr ⟨hlooks, hle⟩, fun _ => rfl⟩

/-- Before it, a look is no news for the failure. -/
theorem overran_of_cons {call : Call} {g : Glyph} {rest : List Glyph}
    (h : gs.drop (consumed calls) = g :: rest) :
    Overran gs.length (calls ++ [call]) ↔ Overran gs.length calls := by
  have hlt : ¬ gs.length ≤ consumed calls := by
    intro hle
    rw [List.drop_eq_nil_of_le hle] at h
    cases h
  rw [overran_concat]
  exact ⟨fun h => h.resolve_right fun h => hlt h.2, .inl⟩

/-- A call that asks for no character changes nothing. -/
theorem Stands.unmoved {call : Call} (h : Stands gs failure calls r) (hlooks : ¬ call.looks) :
    Stands gs failure (calls ++ [call]) r := by
  have hcount : consumed (calls ++ [call]) = consumed calls := by
    rw [consumed_concat, if_neg fun hnext => hlooks (.inr hnext)]
    rfl
  refine ⟨by rw [hcount]; exact h.rest, by rw [hcount]; exact h.pos, h.failure, ?_⟩
  rw [overran_concat]
  exact h.ended.trans ⟨.inl, fun h => h.resolve_right fun h => hlooks h.1⟩

/-- What one call does. -/
theorem Stands.answer (h : Stands gs failure calls r) (call : Call) :
    Stands gs failure (calls ++ [call]) (r.answer call).2 := by
  cases call with
  | peek =>
    have hcount : consumed (calls ++ [.peek]) = consumed calls := consumed_concat calls .peek
    unfold Reader.answer Reader.peek
    cases hr : r.rest with
    | nil => exact h.past (.inl rfl) hr
    | cons g rest =>
      refine ⟨by rw [hcount]; exact h.rest, by rw [hcount]; exact h.pos, h.failure, ?_⟩
      rw [overran_of_cons (h.rest.symm.trans hr)]
      exact h.ended
  | next =>
    have hcount : consumed (calls ++ [.next]) = consumed calls + 1 := consumed_concat calls .next
    unfold Reader.answer Reader.next
    cases hr : r.rest with
    | nil => exact h.past (.inr rfl) hr
    | cons g rest =>
      -- the glyph at the number of those consumed moves from what is left to what was read
      have hdrop := h.rest.symm.trans hr
      have hget : gs[consumed calls]? = some g := by
        rw [← List.head?_drop, hdrop]
        rfl
      refine ⟨?_, ?_, h.failure, ?_⟩
      · rw [hcount, ← List.drop_drop, hdrop]
        rfl
      · rw [hcount, List.take_add_one, hget, Position.after_append, ← h.pos]
        rfl
      · rw [overran_of_cons hdrop]
        exact h.ended
  | position => exact h.unmoved (by simp [Call.looks])
  | error => exact h.unmoved (by simp [Call.looks])

/-- What all calls come to. -/
theorem stands_after (bytes : List UInt8) (failure : Option String) (calls : List Call) :
    Stands (Glyph.decode bytes) failure calls ((ofBytes bytes failure).after calls) := by
  induction calls using List.reverseRecOn with
  | nil => exact stands_ofBytes bytes failure
  | append_singleton calls call ih =>
    rw [after_concat]
    exact ih.answer call

theorem Stands.head (h : Stands gs failure calls r) : r.rest.head? = gs[consumed calls]? := by
  rw [h.rest, List.head?_drop]

/-- A look shows the character that is to come, left or consumed. -/
theorem Stands.character {call : Call} (h : Stands gs failure calls r) (hlooks : call.looks) :
    (r.answer call).1 = .character (gs[consumed calls]?.map Glyph.char) := by
  rw [← h.head]
  obtain rfl | rfl := hlooks
  · unfold Reader.answer Reader.peek
    cases r.rest <;> rfl
  · unfold Reader.answer Reader.next
    cases r.rest <;> rfl

theorem Stands.expects (h : Stands gs failure calls r) (call : Call) :
    Expects gs failure calls call (r.answer call).1 := by
  cases call with
  | peek =>
    rw [h.character (.inl rfl)]
    exact .peek
  | next =>
    rw [h.character (.inr rfl)]
    exact .next
  | position =>
    rw [Reader.answer, h.pos, Position.start_after_eq]
    exact .position
  | error =>
    rw [Reader.answer, Reader.error?, h.failure]
    by_cases hended : r.ended = true
    · rw [if_pos hended]
      exact .failed (h.ended.1 hended)
    · rw [if_neg hended]
      exact .silent fun hover => hended (h.ended.2 hover)

theorem getElem?_replies (r : Reader) (before : List Call) (call : Call) (rest : List Call) :
    (r.replies (before ++ call :: rest))[before.length]? = some ((r.after before).answer call).1 := by
  rw [replies_append, List.getElem?_append_right (Nat.le_of_eq (length_replies r before)), length_replies,
    Nat.sub_self]
  rfl

theorem consumed_peek {between : List Call} (before : List Call) (h : .next ∉ between) :
    consumed (before ++ .peek :: between) = consumed before := by
  unfold consumed
  rw [List.count_append, List.count_cons_of_ne (by decide), List.count_eq_zero.2 h]
  rfl

theorem pos_peek (r : Reader) : r.peek.2.pos = r.pos := by
  unfold peek
  cases r.rest <;> rfl

/-- Whatever calls are made, in whatever order, on a reader of some bytes that end normally or by a failure:
the answer to each is what the text that the bytes spell and the calls before it determine. A peek shows
what the next call for a character will get, whatever else is asked in between, and moves nothing. -/
theorem replies_ofBytes (bytes : List UInt8) (failure : Option String) :
    ∃ gs, (∀ gs', Glyph.Spelled bytes gs' ↔ gs' = gs) ∧
      (∀ before call rest, ∃ reply,
        ((ofBytes bytes failure).replies (before ++ call :: rest))[before.length]? = some reply ∧
        Expects gs failure before call reply) ∧
      (∀ before between rest, .next ∉ between →
        let replies := (ofBytes bytes failure).replies (before ++ .peek :: between ++ .next :: rest)
        replies[before.length]? = replies[(before ++ .peek :: between).length]?) ∧
      ∀ before, ((ofBytes bytes failure).after (before ++ [.peek])).pos =
        ((ofBytes bytes failure).after before).pos := by
  have hstands := stands_after bytes failure
  refine ⟨Glyph.decode bytes, Glyph.spelled_iff bytes, ?_, ?_, ?_⟩
  · intro before call rest
    exact ⟨_, getElem?_replies _ before call rest, (hstands before).expects call⟩
  · intro before between rest hnext
    have hpeek := getElem?_replies (ofBytes bytes failure) before .peek (between ++ .next :: rest)
    have hgot := getElem?_replies (ofBytes bytes failure) (before ++ .peek :: between) .next rest
    rw [(hstands before).character (.inl rfl), ← List.cons_append, ← List.append_assoc] at hpeek
    rw [(hstands _).character (.inr rfl), consumed_peek before hnext] at hgot
    exact hpeek.trans hgot.symm
  · intro before
    rw [after_concat]
    exact pos_peek _

/-- A letter, a newline, a byte that starts no character and one that a failure cuts off. -/
def broken : List UInt8 := [0x61, 0x0A, 0xFF, 0xE2]

/-- A peek at the cut, two other calls, and the character that was shown. -/
theorem replies_ofBytes_broken :
    (ofBytes broken (some "gone")).replies
        [.next, .next, .next, .peek, .position, .error, .next, .peek, .error] =
      [.character (some 'a'), .character (some '\n'), .character (some '�'), .character (some '�'),
        .place ⟨2, 2, 3⟩, .failure none, .character (some '�'), .character none, .failure (some "gone")] ∧
    .next ∉ [Call.position, .error] ∧
    let replies := (ofBytes broken (some "gone")).replies
      ([.next, .next, .next] ++ .peek :: [.position, .error] ++ .next :: [.peek, .error])
    replies[3]? = replies[6]? := by
  refine ⟨by decide +kernel, by decide, ?_⟩
  obtain ⟨gs, -, -, hshown, -⟩ := replies_ofBytes broken (some "gone")
  exact hshown [.next, .next, .next] [.position, .error] [.peek, .error] (by decide)

end Reader

end ScalarLang
