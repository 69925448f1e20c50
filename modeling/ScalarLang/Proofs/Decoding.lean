import Mathlib.Data.List.Induction
import Mathlib.Tactic.Tauto
import ScalarLang.Text.Glyph
/-!
# Bytes, glyphs and places

`decode_ofList`: the UTF-8 of a text is read as the characters of the text. `decode_take`: bytes can be
cut between two glyphs, well-formed or not, and both parts are read as before. So a place that was
reached glyph by glyph is the place of its offset (`start_after`), which `Position.ofOffset` finds in the
bytes before it. Newlines can be counted in the bytes (`countP_decode_newline`).
-/
namespace ScalarLang

/-! ## Well-formed sequences -/

namespace Glyph

theorem isTail_iff (b : UInt8) : isTail b = true ↔ 0x80 ≤ b.toNat ∧ b.toNat ≤ 0xBF := by
  simp [isTail, UInt8.le_iff_toNat_le]

theorem isSecond_iff (a b : UInt8) : isSecond a b = true ↔ (0x80 ≤ b.toNat ∧ b.toNat ≤ 0xBF) ∧
    (a.toNat = 0xE0 → 0xA0 ≤ b.toNat) ∧ (a.toNat = 0xED → b.toNat ≤ 0x9F) ∧
    (a.toNat = 0xF0 → 0x90 ≤ b.toNat) ∧ (a.toNat = 0xF4 → b.toNat ≤ 0x8F) := by
  simp only [isSecond, Bool.and_eq_true, isTail_iff, Bool.or_eq_true, bne_iff_ne, decide_eq_true_eq,
    UInt8.le_iff_toNat_le, ne_eq, ← UInt8.toNat_inj, UInt8.reduceToNat, ← imp_iff_not_or]
  tauto

section

variable {a b c d : UInt8} (rest : List UInt8)

theorem first_one (h : a.toNat < 0x80) : first a rest = ⟨Char.ofNat a.toNat, 1⟩ :=
  if_pos (UInt8.lt_iff_toNat_lt.2 h)

theorem first_two (ha : 0xC2 ≤ a.toNat ∧ a.toNat ≤ 0xDF) (hb : isSecond a b = true) :
    first a (b :: rest) = ⟨Char.ofNat (a.toNat % 0x20 * 0x40 + b.toNat % 0x40), 2⟩ := by
  have h₁ : ¬ a < 0x80 := by simp only [UInt8.lt_iff_toNat_lt, UInt8.reduceToNat]; omega
  have h₂ : 0xC2 ≤ a ∧ a ≤ 0xDF := by simpa [UInt8.le_iff_toNat_le] using ha
  simp only [first, h₁, h₂, hb, decide_true, Bool.and_self, ↓reduceIte]
  rfl

theorem first_three (ha : 0xE0 ≤ a.toNat ∧ a.toNat ≤ 0xEF) (hb : isSecond a b = true)
    (hc : isTail c = true) :
    first a (b :: c :: rest) =
      ⟨Char.ofNat ((a.toNat % 0x10 * 0x40 + b.toNat % 0x40) * 0x40 + c.toNat % 0x40), 3⟩ := by
  have h₁ : ¬ a < 0x80 := by simp only [UInt8.lt_iff_toNat_lt, UInt8.reduceToNat]; omega
  have h₂ : ¬ a ≤ 0xDF := by simp only [UInt8.le_iff_toNat_le, UInt8.reduceToNat]; omega
  have h₃ : 0xE0 ≤ a ∧ a ≤ 0xEF := by simpa [UInt8.le_iff_toNat_le] using ha
  simp only [first, h₁, h₂, h₃, hb, hc, decide_true, decide_false, Bool.and_self, Bool.and_false,
    Bool.false_eq_true, ↓reduceIte]
  rfl

theorem first_four (ha : 0xF0 ≤ a.toNat ∧ a.toNat ≤ 0xF4) (hb : isSecond a b = true)
    (hc : isTail c = true) (hd : isTail d = true) :
    first a (b :: c :: d :: rest) =
      ⟨Char.ofNat (((a.toNat % 0x08 * 0x40 + b.toNat % 0x40) * 0x40 + c.toNat % 0x40) * 0x40
        + d.toNat % 0x40), 4⟩ := by
  have h₁ : ¬ a < 0x80 := by simp only [UInt8.lt_iff_toNat_lt, UInt8.reduceToNat]; omega
  have h₂ : ¬ a ≤ 0xDF := by simp only [UInt8.le_iff_toNat_le, UInt8.reduceToNat]; omega
  have h₃ : ¬ a ≤ 0xEF := by simp only [UInt8.le_iff_toNat_le, UInt8.reduceToNat]; omega
  have h₄ : 0xF0 ≤ a ∧ a ≤ 0xF4 := by simpa [UInt8.le_iff_toNat_le] using ha
  simp only [first, h₁, h₂, h₃, h₄, hb, hc, hd, decide_true, decide_false, Bool.and_self,
    Bool.and_false, Bool.false_eq_true, ↓reduceIte]
  rfl

end

/-! ## Characters as bytes -/

/-- A character with the number of bytes that UTF-8 spells it with. -/
def ofChar (c : Char) : Glyph := ⟨c, c.utf8Size⟩

theorem ofChar_eq {c : Char} {n w : Nat} (hn : n = c.val.toNat) (hw : c.utf8Size = w) :
    (⟨Char.ofNat n, w⟩ : Glyph) = ofChar c := by
  have hchar : Char.ofNat n = c := by
    rw [hn]
    exact Char.ofNat_toNat c
  rw [hchar, ← hw]
  rfl

/-- The bytes of a character are read as that character, whatever follows them. -/
theorem first_utf8EncodeChar (c : Char) (rest : List UInt8) :
    ∃ a more, String.utf8EncodeChar c = a :: more ∧ first a (more ++ rest) = ofChar c := by
  obtain ⟨v, hv⟩ : ∃ v, v = c.val.toNat := ⟨_, rfl⟩
  have hvalid : v < 0xD800 ∨ 0xDFFF < v ∧ v < 0x110000 := hv ▸ c.valid
  have hbyte {n : Nat} (h : n < 256) : (UInt8.ofNat n).toNat = n := by
    rw [UInt8.toNat_ofNat']
    exact Nat.mod_eq_of_lt h
  unfold String.utf8EncodeChar
  simp only [← hv]
  -- one byte, two, three or four: each bound of `v` puts the first byte into its range
  split
  · have hsize : c.utf8Size = 1 := Char.utf8Size_eq_one_iff.2 (by
      simp only [UInt32.le_iff_toNat_le, ← hv]; assumption)
    refine ⟨_, _, rfl, ?_⟩
    rw [first_one _ (by rw [hbyte] <;> omega), hbyte (by omega)]
    exact ofChar_eq hv hsize
  split
  · have hsize : c.utf8Size = 2 := Char.utf8Size_eq_two_iff.2 (by
      simp only [UInt32.lt_iff_toNat_lt, UInt32.le_iff_toNat_le, ← hv, UInt32.reduceToNat]; omega)
    refine ⟨_, _, rfl, ?_⟩
    rw [List.cons_append, first_two, hbyte (by omega), hbyte (by omega)]
    · exact ofChar_eq (by omega) hsize
    · rw [hbyte (by omega)]
      omega
    · rw [isSecond_iff, hbyte (by omega), hbyte (by omega)]
      omega
  split
  · have hsize : c.utf8Size = 3 := Char.utf8Size_eq_three_iff.2 (by
      simp only [UInt32.lt_iff_toNat_lt, UInt32.le_iff_toNat_le, ← hv, UInt32.reduceToNat]; omega)
    refine ⟨_, _, rfl, ?_⟩
    rw [List.cons_append, List.cons_append, first_three, hbyte (by omega), hbyte (by omega),
      hbyte (by omega)]
    · exact ofChar_eq (by omega) hsize
    · rw [hbyte (by omega)]
      omega
    · rw [isSecond_iff, hbyte (by omega), hbyte (by omega)]
      omega
    · rw [isTail_iff, hbyte (by omega)]
      omega
  · have hsize : c.utf8Size = 4 := Char.utf8Size_eq_four_iff.2 (by
      simp only [UInt32.lt_iff_toNat_lt, ← hv, UInt32.reduceToNat]; omega)
    refine ⟨_, _, rfl, ?_⟩
    rw [List.cons_append, List.cons_append, List.cons_append, first_four, hbyte (by omega),
      hbyte (by omega), hbyte (by omega), hbyte (by omega)]
    · exact ofChar_eq (by omega) hsize
    · rw [hbyte (by omega)]
      omega
    · rw [isSecond_iff, hbyte (by omega), hbyte (by omega)]
      omega
    · rw [isTail_iff, hbyte (by omega)]
      omega
    · rw [isTail_iff, hbyte (by omega)]
      omega

theorem decode_nil : decode [] = [] := by rw [decode]

theorem decode_utf8EncodeChar (c : Char) (rest : List UInt8) :
    decode (String.utf8EncodeChar c ++ rest) = ofChar c :: decode rest := by
  obtain ⟨a, more, hbytes, hfirst⟩ := first_utf8EncodeChar c rest
  have hlength : (ofChar c).width - 1 = more.length := by
    have hsize := String.length_utf8EncodeChar c
    rw [hbytes, List.length_cons] at hsize
    show c.utf8Size - 1 = _
    omega
  rw [hbytes, List.cons_append, decode, hfirst, hlength, List.drop_left]

/-- The loop has passed the first `i` bytes and holds them in reverse. -/
theorem toList_loop (bytes : ByteArray) (i : Nat) (r : List UInt8) :
    ByteArray.toList.loop bytes i r = r.reverse ++ bytes.data.toList.drop i := by
  have hsize : bytes.size = bytes.data.toList.length := Array.length_toList.symm
  induction hn : bytes.size - i generalizing i r with
  | zero =>
    rw [ByteArray.toList.loop.eq_def, if_neg (by omega), List.drop_eq_nil_of_le (by omega),
      List.append_nil]
  | succ n ih =>
    have hi : i < bytes.data.toList.length := by omega
    have hget : bytes.get! i = bytes.data.toList[i] := getElem!_pos bytes.data i (by simpa using hi)
    rw [ByteArray.toList.loop.eq_def, if_pos (by omega), ih _ _ (by omega),
      List.drop_eq_getElem_cons hi, hget]
    simp

theorem toList_toUTF8 (cs : List Char) :
    (String.ofList cs).toUTF8.toList = cs.flatMap String.utf8EncodeChar := by
  show ByteArray.toList.loop (List.flatMap String.utf8EncodeChar cs).toByteArray 0 [] = _
  rw [toList_loop, List.toList_data_toByteArray]
  rfl

/-- The bytes of a text are read as its characters. -/
theorem decode_ofList (cs : List Char) : decode (String.ofList cs).toUTF8.toList = cs.map ofChar := by
  rw [toList_toUTF8]
  induction cs with
  | nil => exact decode_nil
  | cons c cs ih => rw [List.flatMap_cons, decode_utf8EncodeChar, ih, List.map_cons]

/-! ## Cutting bytes between glyphs -/

/-- The number of bytes that spell some glyphs. -/
def widths : List Glyph → Nat
  | [] => 0
  | g :: gs => g.width + widths gs

@[simp] theorem widths_nil : widths [] = 0 := rfl

@[simp] theorem widths_cons (g : Glyph) (gs : List Glyph) : widths (g :: gs) = g.width + widths gs := rfl

@[simp] theorem widths_append (gs hs : List Glyph) : widths (gs ++ hs) = widths gs + widths hs := by
  induction gs with
  | nil => simp
  | cons g gs ih => rw [List.cons_append, widths_cons, widths_cons, ih, Nat.add_assoc]

theorem length_toUTF8 (cs : List Char) :
    (String.ofList cs).toUTF8.toList.length = widths (cs.map ofChar) := by
  rw [toList_toUTF8]
  induction cs with
  | nil => rfl
  | cons c cs ih =>
    rw [List.flatMap_cons, List.length_append, ih, String.length_utf8EncodeChar]
    rfl

/-- A glyph takes at least one byte, and no more than there are. -/
theorem width_first (a : UInt8) (rest : List UInt8) :
    0 < (first a rest).width ∧ (first a rest).width ≤ rest.length + 1 := by
  unfold first
  repeat' split
  all_goals simp [replacement]

/-- What follows a glyph does not matter. -/
theorem first_of_append (a : UInt8) (bs more : List UInt8)
    (h : (first a (bs ++ more)).width ≤ bs.length + 1) : first a bs = first a (bs ++ more) := by
  unfold first at *
  split
  · rfl
  split
  · rcases bs with _ | ⟨b, bs⟩
    · rcases more with _ | ⟨b, more⟩ <;> grind
    · rfl
  split
  · rcases bs with _ | ⟨b, _ | ⟨c, bs⟩⟩
    · rcases more with _ | ⟨b, _ | ⟨c, more⟩⟩ <;> grind
    · rcases more with _ | ⟨c, more⟩ <;> grind
    · rfl
  split
  · rcases bs with _ | ⟨b, _ | ⟨c, _ | ⟨d, bs⟩⟩⟩
    · rcases more with _ | ⟨b, _ | ⟨c, _ | ⟨d, more⟩⟩⟩ <;> grind
    · rcases more with _ | ⟨c, _ | ⟨d, more⟩⟩ <;> grind
    · rcases more with _ | ⟨d, more⟩ <;> grind
    · rfl
  · rfl

/-- Bytes that are cut between two glyphs are read as before on both sides. -/
theorem decode_take {bytes : List UInt8} {pre post : List Glyph} (h : decode bytes = pre ++ post) :
    decode (bytes.take (widths pre)) = pre ∧ decode (bytes.drop (widths pre)) = post ∧
      widths pre ≤ bytes.length := by
  induction pre generalizing bytes with
  | nil => exact ⟨decode_nil, by simpa using h, Nat.zero_le _⟩
  | cons g pre ih =>
    cases bytes with
    | nil =>
      rw [decode_nil] at h
      cases h
    | cons a rest =>
      rw [decode, List.cons_append, List.cons.injEq] at h
      obtain ⟨rfl, h⟩ := h
      obtain ⟨htake, hdrop, hle⟩ := ih h
      obtain ⟨hpos, hwidth⟩ := width_first a rest
      -- the first glyph of the bytes before the cut has all its bytes there
      have hcut : (first a rest).width + widths pre = ((first a rest).width - 1 + widths pre) + 1 := by
        omega
      rw [List.length_drop] at hle
      have hfirst : first a (rest.take ((first a rest).width - 1 + widths pre)) = first a rest := by
        have happend := first_of_append a (rest.take ((first a rest).width - 1 + widths pre))
          (rest.drop ((first a rest).width - 1 + widths pre))
        rw [List.take_append_drop, List.length_take] at happend
        exact happend (by omega)
      rw [widths_cons, hcut, List.take_succ_cons, List.drop_succ_cons]
      refine ⟨?_, ?_, by rw [List.length_cons]; omega⟩
      · rw [decode, hfirst, List.drop_take, Nat.add_sub_cancel_left, htake]
      · rw [← List.drop_drop, hdrop]

theorem widths_decode (bytes : List UInt8) : widths (decode bytes) = bytes.length := by
  fun_induction decode bytes with
  | case1 => rfl
  | case2 a rest ih =>
    obtain ⟨hpos, hwidth⟩ := width_first a rest
    rw [widths_cons, ih, List.length_drop, List.length_cons]
    omega

theorem width_pos_of_mem_decode {bytes : List UInt8} {g : Glyph} (h : g ∈ decode bytes) :
    0 < g.width := by
  fun_induction decode bytes with
  | case1 => cases h
  | case2 a rest ih =>
    rcases List.mem_cons.1 h with rfl | h
    · exact (width_first a rest).1
    · exact ih h

/-! ## Newlines -/

theorem ofNat_eq_newline_iff {n : Nat} : Char.ofNat n = '\n' ↔ n = 10 := by
  constructor
  · intro h
    by_cases hvalid : n.isValidChar
    · have haux : Char.ofNat n = Char.ofNatAux n hvalid := dif_pos hvalid
      rw [haux] at h
      exact congrArg (fun c : Char => c.val.toNat) h
    · have hzero : Char.ofNat n = '\x00' := dif_neg hvalid
      rw [hzero] at h
      cases h
  · rintro rfl
    rfl

/-- A glyph of several bytes is no newline, and none of its bytes is one. -/
theorem first_of_large {a : UInt8} (ha : 0x80 ≤ a.toNat) (rest : List UInt8) :
    (first a rest).char ≠ '\n' ∧ ∀ b ∈ rest.take ((first a rest).width - 1), isTail b = true := by
  have hchar {n : Nat} (hn : 0x80 ≤ n) : Char.ofNat n ≠ '\n' := by
    rw [ne_eq, ofNat_eq_newline_iff]
    omega
  have hreplacement : replacement.char ≠ '\n' ∧
      ∀ b ∈ rest.take (replacement.width - 1), isTail b = true := by
    simp [replacement]
  unfold first
  split
  · rename_i hsmall
    exact absurd (UInt8.lt_iff_toNat_lt.1 hsmall) (by simpa using ha)
  split
  · rename_i hrange
    split
    · rename_i b _
      split
      · rename_i hb
        simp only [isSecond_iff, Bool.and_eq_true, decide_eq_true_eq, UInt8.le_iff_toNat_le,
          UInt8.reduceToNat, tailBits] at *
        exact ⟨hchar (by omega), by simp [isTail_iff]; omega⟩
      · exact hreplacement
    · exact hreplacement
  split
  · rename_i hrange
    split
    · rename_i b c _
      split
      · rename_i hb
        simp only [isSecond_iff, isTail_iff, Bool.and_eq_true, decide_eq_true_eq,
          UInt8.le_iff_toNat_le, UInt8.reduceToNat, tailBits] at *
        exact ⟨hchar (by omega), by simp; omega⟩
      · exact hreplacement
    · exact hreplacement
  split
  · rename_i hrange
    split
    · rename_i b c d _
      split
      · rename_i hb
        simp only [isSecond_iff, isTail_iff, Bool.and_eq_true, decide_eq_true_eq,
          UInt8.le_iff_toNat_le, UInt8.reduceToNat, tailBits] at *
        exact ⟨hchar (by omega), by simp; omega⟩
      · exact hreplacement
    · exact hreplacement
  · exact hreplacement

/-- Newlines are single bytes, and no other glyph has that byte in it. -/
theorem countP_decode_newline (bytes : List UInt8) :
    (decode bytes).countP (·.char = '\n') = bytes.count 10 := by
  fun_induction decode bytes with
  | case1 => rfl
  | case2 a rest ih =>
    have hsplit := List.take_append_drop ((first a rest).width - 1) rest
    rw [List.countP_cons, ih, List.count_cons]
    by_cases ha : a.toNat < 0x80
    · simp [first_one rest ha, ofNat_eq_newline_iff, ← UInt8.toNat_inj]
    · obtain ⟨hne, htail⟩ := first_of_large (Nat.not_lt.1 ha) rest
      have hnone : (rest.take ((first a rest).width - 1)).count 10 = 0 := by
        refine List.count_eq_zero.2 fun hmem => ?_
        cases htail 10 hmem
      have ha : (a == 10) = false := by
        simp only [beq_eq_false_iff_ne, ne_eq, ← UInt8.toNat_inj, UInt8.reduceToNat]
        omega
      conv_rhs => rw [← hsplit, List.count_append, hnone]
      simp [hne, ha]

end Glyph

/-! ## Places -/

namespace Position

/-- The place of the byte at `offset`: its line has one more than the newlines before it, and its column
one more than the glyphs since the last of them. -/
def ofOffset (bytes : List UInt8) (offset : Nat) : Position :=
  let before := Glyph.decode (bytes.take offset)
  ⟨1 + before.countP (·.char = '\n'), 1 + (before.reverse.takeWhile (·.char ≠ '\n')).length, offset⟩

theorem after_append (p : Position) (gs hs : List Glyph) :
    p.after (gs ++ hs) = (p.after gs).after hs := List.foldl_append

theorem offset_after (p : Position) (gs : List Glyph) :
    (p.after gs).offset = p.offset + Glyph.widths gs := by
  induction gs generalizing p with
  | nil => simp [after]
  | cons g gs ih =>
    have hstep : (p.advance g).offset = p.offset + g.width := by
      unfold advance
      split <;> rfl
    show ((p.advance g).after gs).offset = _
    rw [ih, hstep, Glyph.widths_cons]
    omega

/-- Lines and columns after some glyphs from the start of a text. -/
theorem start_after_eq (gs : List Glyph) :
    start.after gs = ⟨1 + gs.countP (·.char = '\n'),
      1 + (gs.reverse.takeWhile (·.char ≠ '\n')).length, Glyph.widths gs⟩ := by
  induction gs using List.reverseRecOn with
  | nil => rfl
  | append_singleton gs g ih =>
    rw [after_append, ih]
    show advance _ g = _
    unfold advance
    by_cases hg : g.char = '\n'
    · simp [hg, Glyph.widths]; omega
    · simp [hg, Glyph.widths]; omega

/-- The place after the first glyphs of a text is that of their bytes. -/
theorem start_after {bytes : List UInt8} {pre post : List Glyph}
    (h : Glyph.decode bytes = pre ++ post) : start.after pre = ofOffset bytes (Glyph.widths pre) := by
  rw [start_after_eq, ofOffset, (Glyph.decode_take h).1]

end Position

end ScalarLang
