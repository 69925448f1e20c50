import ScalarLang.Number.Numeral
/-!
# Powers of doubles

`Binary64.pow` splits the exponent into a whole number and a fraction. The base is squared once for each
binary digit of the whole number, with its power of two kept apart, so that no square overflows before
the result does. The fraction goes through the logarithm and the exponential, which are polynomials
around an exact reduction by powers of two. All of it is written out in the order in which it is rounded,
for the last place of a power depends on that order.
-/
namespace ScalarLang.Binary64

instance : Add Binary64 := ⟨add⟩

instance : Sub Binary64 := ⟨sub⟩

instance : Mul Binary64 := ⟨mul⟩

instance : Div Binary64 := ⟨div⟩

instance : Neg Binary64 := ⟨neg⟩

/-- A decimal that is written in a definition stands for the double nearest to it. -/
instance : OfScientific Binary64 where
  ofScientific digits negative exponent :=
    (Numeral.Decimal.toBinary64? ⟨false, digits, if negative then -exponent else exponent⟩).getD zero

/-- The infinity with a sign. -/
def infinite (negative : Bool) : Binary64 := ofMagnitude negative infinity

/-- A double without its sign. -/
def abs (x : Binary64) : Binary64 := ofMagnitude false x.magnitude

/-- The square root, rounded once. -/
def sqrt (x : Binary64) : Binary64 := ofFloat x.toFloat.sqrt

/-! ## Powers of two -/

/-- The double nearest to plus or minus `n * 2 ^ e`. -/
def ofScaled (negative : Bool) (n : Nat) (e : Int) : Binary64 :=
  let (num, den) := scale n e 1
  (ofRatio? negative num den).getD (infinite negative)

/-- The double nearest to `x * 2 ^ k`. -/
def scaleB (x : Binary64) (k : Int) : Binary64 :=
  if x.isFinite then ofScaled x.isNegative x.significand (x.unit + k) else x

/-- A finite number other than zero as a double between a half and one, with its sign, and a power of two. -/
def frExp (x : Binary64) : Binary64 × Int :=
  let lead := x.significand.log2
  (ofMagnitude x.isNegative (1021 * exponentWeight + x.significand <<< (52 - lead)), x.unit + lead + 1)

/-- A finite number in units of `2 ^ e`, where `e` is at most its own unit. -/
def inUnits (x : Binary64) (e : Int) : Int :=
  let n := x.significand <<< (x.unit - e).toNat
  if x.isNegative then -n else n

/-- `x * y + z`, rounded once. -/
def mulAdd (x y z : Binary64) : Binary64 :=
  let unit := min (x.unit + y.unit) z.unit
  let sum := x.inUnits (unit - y.unit) * y.inUnits y.unit + z.inUnits unit
  -- a sum that is zero has the sign that it gets step by step
  if x.isFinite && y.isFinite && z.isFinite && sum ≠ 0 then ofScaled (sum < 0) sum.natAbs unit
  else x * y + z

/-! ## Whole numbers -/

/-- The integer nearest to a finite number, a half to the even one. -/
def nearestInt (x : Binary64) : Int :=
  let (num, den) := scale x.significand x.unit 1
  if x.isNegative then -(roundQuotient num den) else roundQuotient num den

/-- The integral part of a number without its sign. -/
def whole (x : Binary64) : Nat :=
  let (num, den) := scale x.significand x.unit 1
  num / den

/-- What the integral part of a number leaves, without its sign. -/
def fraction (x : Binary64) : Binary64 :=
  let (num, den) := scale x.significand x.unit 1
  (ofRatio? false (num % den) den).getD zero

/-- Holds of the integers that are odd. -/
def isOddInteger (x : Binary64) : Bool := x.isFinite && x.fraction.isZero && x.whole % 2 == 1

/-! ## Logarithm and exponential -/

/-- The natural logarithm of a positive number. The number is `(1 + f) * 2 ^ k` with `1 + f` between the
square roots of a half and of two, and `log (1 + f)` is a series in `f / (2 + f)`. -/
def log (x : Binary64) : Binary64 :=
  let (half, e) := x.frExp
  let (root, k) := if half.lt 7.07106781186547524401e-01 then (half * 2.0, e - 1) else (half, e)
  let f := root - 1.0
  let k := ofInt64 (.ofInt k)
  let s := f / (2.0 + f)
  let s2 := s * s
  let s4 := s2 * s2
  let odd := s2 * (6.666666666666735130e-01 + s4 * (2.857142874366239149e-01 +
    s4 * (1.818357216161805012e-01 + s4 * 1.479819860511658591e-01)))
  let even := s4 * (3.999999999940941908e-01 + s4 * (2.222219843214978396e-01 +
    s4 * 1.531383769920937332e-01))
  let square := 0.5 * f * f
  k * 6.93147180369123816490e-01 -
    ((square - (s * (square + (odd + even)) + k * 1.90821492927058770002e-10)) - f)

/-- The coefficients of the series for `(exp r - 1) / r`, the last one first. -/
def expCoefficients : List Binary64 :=
  [1.9841269841269841270e-4, 1.3888888888888888889e-3, 8.3333333333333333333e-3,
    4.1666666666666666667e-2, 1.6666666666666666667e-1, 0.5, 1.0]

/-- The exponential of a number whose exponential is neither very large nor very small. The number is `n`
times the logarithm of two and a rest. A sixteenth of the rest goes through the series, and since
`exp (2 * r) - 1` is `(exp r - 1) * (exp r - 1 + 2)`, four such products undo the division. -/
def exp (x : Binary64) : Binary64 :=
  let n := (1.4426950408889634073599246810018920 * x).nearestInt
  let k := ofInt64 (.ofInt n)
  let rest := mulAdd k (-0.69314718055966295651160180568695068359375) x
  let rest := mulAdd k (-0.28235290563031577122588448175013436025525412068e-12) rest
  let r := rest * 0.0625
  let series := expCoefficients.foldl (fun sum c => mulAdd sum r c) 2.4801587301587301587e-5
  let double (f : Binary64) := f * (f + 2.0)
  let f := double (double (double (r * series)))
  scaleB (mulAdd f (f + 2.0) 1.0) n

/-! ## Powers -/

/-- The number `value * 2 ^ exponent`. -/
structure Scaled where
  value : Binary64
  exponent : Int
  deriving Repr

namespace Scaled

/-- The product of the values, with the sum of the exponents. -/
def times (a b : Scaled) : Scaled := ⟨a.value * b.value, a.exponent + b.exponent⟩

/-- The value of a square is brought back to at least a half. -/
def square (a : Scaled) : Scaled :=
  let v := a.value * a.value
  if v.lt 0.5 then ⟨v + v, 2 * a.exponent - 1⟩ else ⟨v, 2 * a.exponent⟩

/-- One over a number. -/
def inverse (a : Scaled) : Scaled := ⟨1.0 / a.value, -a.exponent⟩

/-- The double nearest to the number. -/
def round (a : Scaled) : Binary64 := a.value.scaleB a.exponent

/-- Above this exponent a power is sure to be too large or too small. -/
def widest : Int := 4096

/-- The number `a` times the `n`-th power of `base`. A base that is out of range decides the result. -/
def timesPower (a base : Scaled) (n : Nat) : Scaled :=
  if n = 0 then a
  else if base.exponent < -widest ∨ widest < base.exponent then
    { a with exponent := a.exponent + base.exponent }
  else timesPower (if n % 2 = 1 then a.times base else a) base.square (n / 2)

end Scaled

/-- A power of zero. Only an odd integer keeps the sign of the zero. -/
def powerOfZero (negative : Bool) (y : Binary64) : Binary64 :=
  ofMagnitude (negative && y.isOddInteger) (if y.isNegative then infinity else 0)

/-- The power with a huge exponent. -/
def hugePower (x y : Binary64) : Binary64 :=
  if x = -1.0 then 1.0
  else if x.abs.lt 1.0 = !y.isNegative then zero
  else infinite false

/-- The power of a finite number other than zero, with an exponent in the range of integers. Fractions
above a half are taken from the next integer. -/
def finitePower (x y : Binary64) : Binary64 :=
  let part := y.fraction
  let up := (0.5 : Binary64).lt part
  let root := if part.isZero then 1.0 else ((if up then part - 1.0 else part) * x.log).exp
  let (half, e) := x.frExp
  let power := Scaled.timesPower ⟨root, 0⟩ ⟨half, e⟩ (if up then y.whole + 1 else y.whole)
  (if y.isNegative then power.inverse else power).round

/-- Exponents of this size are even integers. -/
def hugeExponent : Nat := 0x8000000000000000

/-- The power of two doubles. -/
def pow (x y : Binary64) : Binary64 :=
  if y.isZero || x = 1.0 then 1.0
  else if y = 1.0 then x
  else if x.isNaN || y.isNaN then nan
  else if x.isZero then powerOfZero x.isNegative y
  else if hugeExponent ≤ y.whole then hugePower x y
  else if x.isInfinite then powerOfZero x.isNegative y.neg
  else if y = 0.5 then x.sqrt
  else if y = -0.5 then 1.0 / x.sqrt
  else if x.isNegative && !y.fraction.isZero then nan
  else finitePower x y

end ScalarLang.Binary64
