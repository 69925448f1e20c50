/-!
# Lines of bytes

A line ends at a line feed, or at a carriage return and a line feed, or where the bytes end. A line that
is longer than `Line.capacity` is cut into several.
-/
namespace ScalarLang.Text

/-- A line as it was read. -/
structure Line where
  bytes : List UInt8
  /-- Whether the line was too long to be read at once. -/
  cut : Bool
  deriving DecidableEq, Repr

namespace Line

/-- How many bytes are read at once. -/
def capacity : Nat := 4096

/-- The byte that ends a line. -/
def lineFeed : UInt8 := 10

/-- The byte that may stand before a line feed. -/
def carriageReturn : UInt8 := 13

/-- Bytes without a carriage return at their end. -/
def trimReturn (bytes : List UInt8) : List UInt8 :=
  if bytes.getLast? = some carriageReturn then bytes.dropLast else bytes

/-- The first line and the bytes after it. A carriage return is not cut from its line feed. -/
def next? (bytes : List UInt8) : Option (Line × List UInt8) :=
  let window := bytes.take capacity
  let line := window.takeWhile (· ≠ lineFeed)
  if line.length < window.length then some (⟨trimReturn line, false⟩, bytes.drop (line.length + 1))
  else if bytes.isEmpty then none
  else if window.length < capacity then some (⟨line, false⟩, [])
  else
    let piece := trimReturn line
    some (⟨piece, true⟩, bytes.drop piece.length)

theorem length_trimReturn_pos {bytes : List UInt8} (h : 1 < bytes.length) :
    0 < (trimReturn bytes).length := by
  unfold trimReturn
  split
  · simp only [List.length_dropLast]
    omega
  · omega

theorem length_next?_lt {bytes rest : List UInt8} {line : Line} (h : next? bytes = some (line, rest)) :
    rest.length < bytes.length := by
  unfold next? at h
  simp only at h
  split at h
  · rename_i hl
    simp only [Option.some.injEq, Prod.mk.injEq] at h
    have := List.length_take_le capacity bytes
    have := List.length_take_le' capacity bytes
    rw [← h.2, List.length_drop]
    omega
  · split at h
    · simp at h
    · rename_i hl he
      have hpos : 0 < bytes.length := by
        cases bytes with
        | nil => simp at he
        | cons b bs => simp
      split at h
      · simp only [Option.some.injEq, Prod.mk.injEq] at h
        rw [← h.2]
        exact hpos
      · rename_i hc
        simp only [Option.some.injEq, Prod.mk.injEq] at h
        rw [← h.2, List.length_drop]
        have : 1 < ((bytes.take capacity).takeWhile (· ≠ lineFeed)).length := by
          have : capacity = 4096 := rfl
          omega
        have := length_trimReturn_pos this
        omega

/-- All lines. -/
def split (bytes : List UInt8) : List Line :=
  match _h : next? bytes with
  | none => []
  | some (line, rest) => line :: split rest
termination_by bytes.length
decreasing_by exact length_next?_lt _h

end Line

end ScalarLang.Text
