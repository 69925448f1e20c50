import ScalarLang.Number.Numeral
/-!
# The shortest decimal of a double

A decimal reads back as a finite double exactly if it lies in the interval of numbers that round to it;
of the decimals there, `Binary64.shortest` takes the nearest one on the coarsest grid of a power of ten.
-/
namespace ScalarLang

namespace Shortest

/-- A positive double and the interval that rounds to it, over one denominator. -/
structure Window where
  low : Nat
  value : Nat
  high : Nat
  den : Nat
  /-- Whether the ends round to the double too: a tie goes to the even significand. -/
  closed : Bool

/-- The window of the double `m * 2 ^ unit`. Below a power of two the neighbour is at half the
distance, unless the units are the smallest already. -/
def Window.of (m : Nat) (unit : Int) : Window :=
  let below := if m = Binary64.exponentWeight ∧ -1074 < unit then 1 else 2
  let up := (unit - 2).toNat
  ⟨(4 * m - below) <<< up, (4 * m) <<< up, (4 * m + 2) <<< up, 1 <<< (2 - unit).toNat, m % 2 = 0⟩

/-- The window in units of `10 ^ p`. -/
def Window.inUnits (w : Window) (p : Int) : Window :=
  let factor := Numeral.tenTo (-p).toNat
  { w with
    low := w.low * factor, value := w.value * factor, high := w.high * factor,
    den := w.den * Numeral.tenTo p.toNat }

/-- Whether the integer `n` lies in the window. -/
def Window.contains (w : Window) (n : Nat) : Bool :=
  if w.closed then decide (w.low ≤ n * w.den ∧ n * w.den ≤ w.high)
  else decide (w.low < n * w.den ∧ n * w.den < w.high)

/-- The integer of the window that is nearest to its value, and of two equally near the even one. -/
def Window.nearest? (w : Window) : Option Nat :=
  let n := w.value / w.den
  match w.contains n, w.contains (n + 1) with
  | true, true => some (Binary64.roundQuotient w.value w.den)
  | true, false => some n
  | false, true => some (n + 1)
  | false, false => none

/-- The first of the grids `10 ^ p`, `10 ^ (p - 1)`, ... with an integer in the window. -/
def search (w : Window) : Nat → Int → Nat × Int
  | 0, p => ((w.inUnits p).value / (w.inUnits p).den, p)
  | steps + 1, p =>
    match (w.inUnits p).nearest? with
    | some n => (n, p)
    | none => search w steps (p - 1)

/-- A power of ten above a number below `2 ^ e`, and by less than two places. -/
def ceiling (e : Int) : Int := e * 30103 / 100000 + 1

/-- Seventeen digits always suffice, and the search starts at most three places too high. -/
def steps : Nat := 20

end Shortest

/-- The shortest decimal that reads back as a finite double. -/
def Binary64.shortest (x : Binary64) : Numeral.Decimal :=
  if x.isZero then ⟨x.isNegative, 0, 0⟩
  else
    let m := x.significand
    let (digits, exponent) := Shortest.search (Shortest.Window.of m x.unit) Shortest.steps
      (Shortest.ceiling (m.log2 + 1 + x.unit))
    ⟨x.isNegative, digits, exponent⟩

end ScalarLang
