/-!
# Places in a source text

A place has a line, a column and a byte offset. Lines and columns count from one, so a place whose line
is not positive lies in no text.
-/
namespace ScalarLang

/-- A place, given in three ways. -/
structure Position where
  line : Int
  column : Int
  offset : Int
  deriving DecidableEq, Repr, Inhabited

namespace Position

/-- Where the first character of a text stands. -/
def start : Position := ⟨1, 1, 0⟩

/-- The place of what was not read from a text. -/
def unknown : Position := ⟨0, 0, 0⟩

/-- Whether a place lies in a text. -/
def isKnown (p : Position) : Bool := decide (0 < p.line)

/-- `line:column`, or a dash for a place in no text. -/
protected def toString (p : Position) : String :=
  if p.isKnown then s!"{p.line}:{p.column}" else "-"

instance : ToString Position := ⟨Position.toString⟩

end Position

end ScalarLang
