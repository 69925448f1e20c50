import ScalarLang.Text.Position
/-!
# Code points as they stand in a text

`Glyph.decode` reads bytes as UTF-8; a byte that starts no well-formed sequence is read alone, as the
replacement character.
-/
namespace ScalarLang

/-- A code point and the number of bytes that spell it. -/
structure Glyph where
  char : Char
  width : Nat
  deriving DecidableEq, Repr

namespace Glyph

/-- What a byte that belongs to no well-formed sequence is read as. -/
def replacement : Glyph := ⟨'�', 1⟩

/-- The bytes that continue a sequence. -/
def isTail (b : UInt8) : Bool := 0x80 ≤ b && b ≤ 0xBF

/-- The six bits that a continuation byte carries. -/
def tailBits (b : UInt8) : Nat := b.toNat % 0x40

/-- Whether `b` may follow the first byte `a` of a sequence. After E0 and F0 the low values would be
overlong, after ED come the surrogates, and after F4 what lies above the last code point. -/
def isSecond (a b : UInt8) : Bool :=
  isTail b && (a != 0xE0 || 0xA0 ≤ b) && (a != 0xED || b ≤ 0x9F)
    && (a != 0xF0 || 0x90 ≤ b) && (a != 0xF4 || b ≤ 0x8F)

/-- The glyph that starts with the byte `a`, before the bytes `rest`. -/
def first (a : UInt8) (rest : List UInt8) : Glyph :=
  if a < 0x80 then ⟨Char.ofNat a.toNat, 1⟩
  else if 0xC2 ≤ a && a ≤ 0xDF then
    match rest with
    | b :: _ =>
      if isSecond a b then ⟨Char.ofNat (a.toNat % 0x20 * 0x40 + tailBits b), 2⟩ else replacement
    | _ => replacement
  else if 0xE0 ≤ a && a ≤ 0xEF then
    match rest with
    | b :: c :: _ =>
      if isSecond a b && isTail c then
        ⟨Char.ofNat ((a.toNat % 0x10 * 0x40 + tailBits b) * 0x40 + tailBits c), 3⟩
      else replacement
    | _ => replacement
  else if 0xF0 ≤ a && a ≤ 0xF4 then
    match rest with
    | b :: c :: d :: _ =>
      if isSecond a b && isTail c && isTail d then
        ⟨Char.ofNat (((a.toNat % 0x08 * 0x40 + tailBits b) * 0x40 + tailBits c) * 0x40
          + tailBits d), 4⟩
      else replacement
    | _ => replacement
  else replacement

/-- The glyphs of a text, in order. -/
def decode : List UInt8 → List Glyph
  | [] => []
  | a :: rest => first a rest :: decode (rest.drop ((first a rest).width - 1))
termination_by bytes => bytes.length
decreasing_by simp only [List.length_drop, List.length_cons]; omega

/-- Whether all bytes belong to well-formed sequences. -/
def isWellFormed (bytes : List UInt8) : Bool := (decode bytes).all (· ≠ replacement)

/-- The characters of some glyphs, as text. -/
def text (glyphs : List Glyph) : String := String.ofList (glyphs.map Glyph.char)

end Glyph

namespace Position

/-- The place after `g`: a new line starts after a newline, and every other glyph takes one
column. -/
def advance (p : Position) (g : Glyph) : Position :=
  if g.char = '\n' then ⟨p.line + 1, 1, p.offset + g.width⟩
  else ⟨p.line, p.column + 1, p.offset + g.width⟩

/-- The place after all of `glyphs`. -/
def after (p : Position) (glyphs : List Glyph) : Position := glyphs.foldl advance p

end Position

end ScalarLang
