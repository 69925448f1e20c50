import ScalarLang.Number.Binary64
/-!
# Numbers as text

An integer is read only if 64 bits hold it. A number with a point is read as the nearest double, if that
is finite; it is written in decimal, or in hexadecimal with a power of two. The infinities and what is
not a number have names.
-/
namespace ScalarLang.Numeral

/-! ## Digits -/

/-- The decimal digits. -/
def isDigit (c : Char) : Bool := '0' ≤ c && c ≤ '9'

/-- The digits of base sixteen have letters of either case. -/
def isHexDigit (c : Char) : Bool := isDigit c || ('a' ≤ c.toLower && c.toLower ≤ 'f')

/-- What a digit counts, in any base up to sixteen. -/
def digitValue (c : Char) : Nat :=
  if isDigit c then c.toNat - '0'.toNat else c.toLower.toNat - 'a'.toNat + 10

/-- The natural number that a run of digits spells. -/
def value (base : Nat) (digits : List Char) : Nat :=
  digits.foldl (fun n c => base * n + digitValue c) 0

/-- A sign, if there is one, and what follows it. The sign is true for minus. -/
def splitSign : List Char → Bool × List Char
  | '-' :: cs => (true, cs)
  | '+' :: cs => (false, cs)
  | cs => (false, cs)

/-! ## Integers -/

/-- The number that a non-empty run of digits spells. -/
def natural? (cs : List Char) : Option Nat :=
  if !cs.isEmpty && cs.all isDigit then some (value 10 cs) else none

/-- The integer that digits after an optional sign spell. -/
def integer? (cs : List Char) : Option Int :=
  let (negative, digits) := splitSign cs
  (natural? digits).map fun n => if negative then -(n : Int) else n

/-- The integer that a text spells, if 64 bits hold it. -/
def int64? (text : String) : Option Int64 :=
  match integer? text.toList with
  | some i => if Int64.minValue.toInt ≤ i ∧ i ≤ Int64.maxValue.toInt then some (Int64.ofInt i) else none
  | none => none

/-! ## Parts of a number with a point -/

/-- Whether every underscore stands between two digits. `afterDigit` tells of what comes before. -/
def isGrouped (isDigit : Char → Bool) (afterDigit : Bool) : List Char → Bool
  | [] => true
  | '_' :: cs => afterDigit && cs.head?.any isDigit && isGrouped isDigit false cs
  | c :: cs => isGrouped isDigit (isDigit c) cs

/-- The text without the underscores that group its digits, if they do nothing else. -/
def ungrouped? (isDigit : Char → Bool) (afterDigit : Bool) (cs : List Char) : Option (List Char) :=
  if isGrouped isDigit afterDigit cs then some (cs.filter (· ≠ '_')) else none

/-- Digits with at most one point among them, and what follows. -/
structure Mantissa where
  whole : List Char
  fraction : List Char
  rest : List Char
  deriving DecidableEq, Repr

namespace Mantissa

/-- Reads digits and a point from the front of a text. -/
def split (isDigit : Char → Bool) (cs : List Char) : Mantissa :=
  match cs.dropWhile isDigit with
  | '.' :: more => ⟨cs.takeWhile isDigit, more.takeWhile isDigit, more.dropWhile isDigit⟩
  | rest => ⟨cs.takeWhile isDigit, [], rest⟩

/-- All digits, without the point. -/
def digits (m : Mantissa) : List Char := m.whole ++ m.fraction

end Mantissa

/-- An exponent that has reached this size grows no further. -/
def exponentLimit : Nat := 10000

/-- The size of an exponent. Digits that follow after the limit is reached are passed over, so that
an exponent of any length stays small. -/
def exponentSize (digits : List Char) : Nat :=
  digits.foldl (fun e c => if e < exponentLimit then 10 * e + digitValue c else e) 0

/-- An exponent is a mark in either case, an optional sign and digits. -/
def exponent? (mark : Char) : List Char → Option Int
  | [] => none
  | c :: cs =>
    let (negative, digits) := splitSign cs
    if c.toLower = mark ∧ !digits.isEmpty ∧ digits.all isDigit then
      some (if negative then -(exponentSize digits : Int) else exponentSize digits)
    else none

/-! ## Decimal -/

/-- The number `digits * 10 ^ exponent` with a sign. -/
structure Decimal where
  negative : Bool
  digits : Nat
  exponent : Int
  deriving DecidableEq, Repr

/-- The decimal that digits with at most one point among them and an optional exponent spell. -/
def decimal? (negative : Bool) (cs : List Char) : Option Decimal :=
  let m := Mantissa.split isDigit cs
  if m.digits.isEmpty then none
  else (if m.rest.isEmpty then some 0 else exponent? 'e' m.rest).map fun e =>
    ⟨negative, value 10 m.digits, e - m.fraction.length⟩

/-- A power of ten. -/
def tenTo (n : Nat) : Nat := Nat.pow 10 n

/-- Above this power of ten every decimal overflows, and below its negative every decimal rounds to
zero. -/
def widest : Int := 400

/-- The double nearest to a decimal, if it is finite. Powers of ten far outside the range are not
computed. -/
def Decimal.toBinary64? (d : Decimal) : Option Binary64 :=
  if d.digits = 0 then some (Binary64.ofMagnitude d.negative 0)
  else if widest < d.exponent then none
  else if d.exponent + (d.digits.log2 + 1 : Nat) < -widest then
    some (Binary64.ofMagnitude d.negative 0)
  else if 0 ≤ d.exponent then
    Binary64.ofRatio? d.negative (d.digits * tenTo d.exponent.toNat) 1
  else Binary64.ofRatio? d.negative d.digits (tenTo (-d.exponent).toNat)

/-! ## Hexadecimal -/

/-- The number `digits * 2 ^ exponent` with a sign. -/
structure Dyadic where
  negative : Bool
  digits : Nat
  exponent : Int
  deriving DecidableEq, Repr

/-- What follows the mark of base sixteen. -/
def afterHexMark? : List Char → Option (List Char)
  | '0' :: c :: cs => if c.toLower = 'x' then some cs else none
  | _ => none

/-- The number that digits of base sixteen with at most one point among them spell. The power of two
after them is not optional. -/
def dyadic? (negative : Bool) (cs : List Char) : Option Dyadic :=
  let m := Mantissa.split isHexDigit cs
  if m.digits.isEmpty then none
  else (exponent? 'p' m.rest).map fun e => ⟨negative, value 16 m.digits, e - 4 * m.fraction.length⟩

/-- The double nearest to a dyadic number, if it is finite. -/
def Dyadic.toBinary64? (d : Dyadic) : Option Binary64 :=
  let (num, den) := Binary64.scale d.digits d.exponent 1
  Binary64.ofRatio? d.negative num den

/-! ## Doubles -/

/-- An infinity, or what is not a number, by its name in either case. Only an infinity has a sign. -/
def named? (cs : List Char) : Option Binary64 :=
  let (negative, name) := splitSign cs
  let isNamed (names : List String) := (String.ofList (name.map Char.toLower)) ∈ names
  if isNamed ["inf", "infinity"] then some (.ofMagnitude negative Binary64.infinity)
  else if isNamed ["nan"] ∧ name = cs then some .nan
  else none

/-- The double nearest to the number after a sign, if it is finite. -/
def unsigned? (negative : Bool) (cs : List Char) : Option Binary64 :=
  match afterHexMark? cs with
  | some cs => ((ungrouped? isHexDigit true cs).bind (dyadic? negative)).bind Dyadic.toBinary64?
  | none => ((ungrouped? isDigit false cs).bind (decimal? negative)).bind Decimal.toBinary64?

/-- The double that a text names or spells. -/
def binary64? (text : String) : Option Binary64 :=
  let (negative, cs) := splitSign text.toList
  named? text.toList <|> unsigned? negative cs

end ScalarLang.Numeral
