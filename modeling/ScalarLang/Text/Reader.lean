import ScalarLang.Text.Glyph
/-!
# Reading a text one code point at a time

A reader knows its place and how its text ends: normally, or by a failure, which shows only once a look
has gone past the last byte.
-/
namespace ScalarLang

/-- A text that is being read. -/
structure Reader where
  /-- What has not been read yet. -/
  rest : List Glyph
  pos : Position
  /-- The failure that ends the text, if it does not end normally. -/
  failure : Option String
  /-- Whether a look has gone past the last byte. -/
  ended : Bool
  deriving DecidableEq, Repr

namespace Reader

/-- Nothing was read yet. -/
def ofBytes (bytes : List UInt8) (failure : Option String) : Reader :=
  ⟨Glyph.decode bytes, .start, failure, false⟩

/-- The next code point, left unread. -/
def peek (r : Reader) : Option Char × Reader :=
  match r.rest with
  | [] => (none, { r with ended := true })
  | g :: _ => (some g.char, r)

/-- The next code point, read. -/
def next (r : Reader) : Option Char × Reader :=
  match r.rest with
  | [] => (none, { r with ended := true })
  | g :: rest => (some g.char, { r with rest, pos := r.pos.advance g })

/-- The failure met so far. -/
def error? (r : Reader) : Option String := if r.ended then r.failure else none

end Reader

end ScalarLang
