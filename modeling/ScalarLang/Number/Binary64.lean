/-!
# Double-precision numbers

A double is kept as the 64 bits of its encoding: a finite number is `significand * 2 ^ unit` with a sign.
`Binary64.ofRatio?` rounds a quotient of natural numbers to the nearest double, and the order of doubles
is the order of an integer rank.
-/
namespace ScalarLang

/-- A double, given by its encoding. -/
structure Binary64 where
  bits : UInt64
  deriving DecidableEq, Repr, Inhabited

namespace Binary64

/-! ## Fields -/

/-- The weight of the sign in the encoding. -/
def signWeight : Nat := 0x8000000000000000

/-- The weight of the exponent in the encoding, which is also that of the leading bit of a
significand. -/
def exponentWeight : Nat := 0x10000000000000

/-- Set for negative numbers and for minus zero. -/
def isNegative (x : Binary64) : Bool := decide (signWeight ≤ x.bits.toNat)

/-- The encoding without its sign. A larger finite number has a larger magnitude. -/
def magnitude (x : Binary64) : Nat := x.bits.toNat % signWeight

/-- The magnitude of the infinities. What lies above it is not a number. -/
def infinity : Nat := 0x7FF0000000000000

/-- What lies above the infinities is not a number. -/
def isNaN (x : Binary64) : Bool := decide (infinity < x.magnitude)

/-- The two infinities. -/
def isInfinite (x : Binary64) : Bool := x.magnitude == infinity

/-- All other numbers. -/
def isFinite (x : Binary64) : Bool := decide (x.magnitude < infinity)

/-- Zero with either sign. -/
def isZero (x : Binary64) : Bool := x.magnitude == 0

/-- The digits of a finite number, as an integer. Only the smallest numbers lack the leading bit. -/
def significand (x : Binary64) : Nat :=
  if x.magnitude < exponentWeight then x.magnitude
  else exponentWeight + x.magnitude % exponentWeight

/-- The exponent of the last place of the significand. -/
def unit (x : Binary64) : Int := (max 1 (x.magnitude / exponentWeight) : Nat) - 1075

/-- The double with a sign and a magnitude. -/
def ofMagnitude (negative : Bool) (magnitude : Nat) : Binary64 :=
  ⟨UInt64.ofNat (if negative then signWeight + magnitude else magnitude)⟩

/-- Zero without a sign. -/
def zero : Binary64 := ⟨0⟩

/-- The encoding that is chosen for what is not a number. -/
def nan : Binary64 := ⟨0x7FF8000000000001⟩

/-! ## Rounding -/

/-- `num / den` to the nearest integer, a half to the even one. -/
def roundQuotient (num den : Nat) : Nat :=
  let q := num / den
  let r := num % den
  if 2 * r < den then q else if den < 2 * r then q + 1 else q + q % 2

/-- `n * 2 ^ e` against `d`, cleared of negative exponents. -/
def scale (n : Nat) (e : Int) (d : Nat) : Nat × Nat :=
  if 0 ≤ e then (n <<< e.toNat, d) else (n, d <<< (-e).toNat)

/-- The largest `e` with `2 ^ e ≤ num / den`. -/
def floorLog2 (num den : Nat) : Int :=
  let e : Int := num.log2 - den.log2
  let (d, n) := scale den e num
  if d ≤ n then e else e - 1

/-- The magnitude nearest to `num / den`, ties to even, if it is finite. The significand is rounded
at the unit of its binade, and a carry out of it moves to the next binade by itself. -/
def roundMagnitude? (num den : Nat) : Option Nat :=
  if num = 0 then some 0
  else
    let unit := max (floorLog2 num den - 52) (-1074)
    let (n, d) := scale num (-unit) den
    let magnitude := (unit + 1074).toNat * exponentWeight + roundQuotient n d
    if magnitude < infinity then some magnitude else none

/-- The double nearest to plus or minus `num / den`, if it is finite. -/
def ofRatio? (negative : Bool) (num den : Nat) : Option Binary64 :=
  (roundMagnitude? num den).map (ofMagnitude negative)

/-- The double nearest to a 64-bit integer. -/
def ofInt64 (i : Int64) : Binary64 :=
  (ofRatio? (decide (i.toInt < 0)) i.toInt.natAbs 1).getD zero

/-! ## Order -/

/-- An integer that orders the numbers: both zeros have rank zero. -/
def rank (x : Binary64) : Int := if x.isNegative then -x.magnitude else x.magnitude

/-- Nothing is below or above what is not a number. -/
def lt (x y : Binary64) : Bool := !x.isNaN && !y.isNaN && decide (x.rank < y.rank)

/-! ## Arithmetic -/

/-- The double that the machine computes with. -/
def toFloat (x : Binary64) : Float := Float.ofBits x.bits

/-- The encoding of what the machine has computed. -/
def ofFloat (f : Float) : Binary64 := ⟨f.toBits⟩

/-- The number with its sign changed. -/
def neg (x : Binary64) : Binary64 := ofMagnitude (!x.isNegative) x.magnitude

/-- The sum, rounded once. -/
def add (x y : Binary64) : Binary64 := ofFloat (x.toFloat + y.toFloat)

/-- The difference, rounded once. -/
def sub (x y : Binary64) : Binary64 := ofFloat (x.toFloat - y.toFloat)

/-- The product, rounded once. -/
def mul (x y : Binary64) : Binary64 := ofFloat (x.toFloat * y.toFloat)

/-- The quotient, rounded once. -/
def div (x y : Binary64) : Binary64 := ofFloat (x.toFloat / y.toFloat)

end Binary64

end ScalarLang
