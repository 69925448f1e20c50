import ScalarLang.Number.Numeral
/-!
# Decimals as text

Numbers whose first digit stands at a place from the fourth after the point to the sixth before it are
written out, and all others get an exponent.
-/
namespace ScalarLang.Numeral

/-- The decimal digits of a number. -/
def digitChars (n : Nat) : List Char := Nat.toDigits 10 n

/-- The texts that show a decimal: whether a fraction is always shown before an exponent too. -/
structure Layout where
  fractionBeforeExponent : Bool

/-- The power of ten of a decimal's first digit. -/
def Decimal.leading (d : Decimal) : Int := d.exponent + ((digitChars d.digits).length - 1 : Nat)

/-- Whether a first digit at the power `x` of ten asks for an exponent. -/
def needsExponent (x : Int) : Bool := decide (x < -4 ∨ 6 ≤ x)

/-- An exponent has a sign and at least two digits. -/
def exponentText (x : Int) : String :=
  let digits := digitChars x.natAbs
  let padded := if digits.length < 2 then '0' :: digits else digits
  String.ofList ('e' :: (if x < 0 then '-' else '+') :: padded)

/-- Digits with a point after the first `n` of them, and zeros where places are missing. -/
def withPoint (digits : List Char) (n : Nat) : String :=
  let whole := if n = 0 then ['0'] else digits.take n ++ List.replicate (n - digits.length) '0'
  let fraction := if digits.length ≤ n then ['0'] else digits.drop n
  String.ofList (whole ++ '.' :: fraction)

/-- The digits of a decimal, written out with a fraction or with an exponent. -/
def Layout.unsigned (layout : Layout) (d : Decimal) : String :=
  let digits := digitChars d.digits
  let x := d.leading
  if needsExponent x then
    let mantissa :=
      if digits.length = 1 ∧ !layout.fractionBeforeExponent then String.ofList digits
      else withPoint digits 1
    mantissa ++ exponentText x
  else if x < 0 then withPoint (List.replicate (-x - 1).toNat '0' ++ digits) 0
  else withPoint digits (x.toNat + 1)

/-- A decimal with its sign. -/
def Layout.text (layout : Layout) (d : Decimal) : String :=
  if d.negative then "-" ++ layout.unsigned d else layout.unsigned d

/-- A number of at least `width` hexadecimal digits, from the digits `0` to `f`. -/
def hexDigits (width n : Nat) : List Char :=
  let digits := Nat.toDigits 16 n
  List.replicate (width - digits.length) '0' ++ digits

end ScalarLang.Numeral
