import ScalarLang.Text.Glyph
import ScalarLang.Text.Line
/-!
# The history of a session

What was entered in earlier sessions and in this one, the latest last.
-/
namespace ScalarLang

/-- Texts that were entered, the latest last. -/
structure History where
  entries : List (List UInt8)
  deriving DecidableEq, Repr

namespace History

/-- How many entries are kept. -/
def limit : Nat := 1000

/-- The latest of some entries. -/
def latest (entries : List (List UInt8)) : History := ⟨entries.drop (entries.length - limit)⟩

/-- The entries of a file, one to a line, up to a line that is too long or not well-formed. -/
def ofBytes (bytes : List UInt8) : History :=
  let readable := (Text.Line.split bytes).takeWhile fun l => !l.cut && Glyph.isWellFormed l.bytes
  latest (readable.map Text.Line.bytes)

/-- Adds an entry, unless it repeats the one before. -/
def add (h : History) (entry : List UInt8) : History :=
  if h.entries.getLast? = some entry then h else latest (h.entries ++ [entry])

/-- The file that a history is kept in. -/
def toBytes (h : History) : List UInt8 := h.entries.flatMap (· ++ [Text.Line.lineFeed])

end History

end ScalarLang
