import ScalarLang.Number.Layout
import ScalarLang.Number.Shortest
/-!
# Constants in the text of code

An integer is written in hexadecimal where that shows a regularity that the decimal digits hide; a double
is written as a decimal where that is its exact value, and else by its bits.
-/
namespace ScalarLang.IR

namespace Constant

/-! ## Integers -/

/-- How varied digits in a base are: different digits per digit that could be different. -/
def variety (base : Nat) (digits : List Char) : Float :=
  Float.ofNat digits.eraseDups.length / Float.ofNat (min digits.length base)

/-- How many different digits a regular hexadecimal number of `n` digits has at most. -/
def regular (n : Nat) : Nat := if n ≤ 6 then 2 else if n ≤ 10 then 3 else 4

/-- Whether a number is written in hexadecimal: its hexadecimal digits are few, and clearly less
varied than its decimal ones. -/
def prefersHex (n : Nat) : Bool :=
  let hex := Nat.toDigits 16 n
  let sparse := variety 16 hex
  decide (4096 ≤ n) &&
    decide (sparse ≤ Float.ofNat (regular hex.length) / Float.ofNat hex.length + 0.01) &&
    decide (sparse + 0.2 ≤ variety 10 (Nat.toDigits 10 n))

/-- Hexadecimal digits with capital letters. -/
def upperHex (n : Nat) : String := String.ofList ((Nat.toDigits 16 n).map Char.toUpper)

/-- An integer as it stands in code. Only one that is not negative can be in hexadecimal. -/
def integerText (v : Int64) : String :=
  if 0 ≤ v.toInt ∧ prefersHex v.toInt.toNat then "u0x" ++ upperHex v.toInt.toNat
  else toString v.toInt

/-! ## Doubles -/

/-- Whether a decimal is a finite double, and not only near it. -/
def isExact (x : Binary64) (d : Numeral.Decimal) : Bool :=
  x.significand <<< x.unit.toNat * Numeral.tenTo (-d.exponent).toNat
    == d.digits * Numeral.tenTo d.exponent.toNat <<< (-x.unit).toNat

/-- Decimals of constants always show a fraction. -/
def layout : Numeral.Layout := ⟨true⟩

/-- What is not a number has one text, whatever its bits. -/
def floatText (x : Binary64) : String :=
  if x.isNaN then "0x7FF8000000000000"
  else if x.isFinite && isExact x x.shortest then layout.text x.shortest
  else "0x" ++ upperHex x.bits.toNat

end Constant

end ScalarLang.IR
