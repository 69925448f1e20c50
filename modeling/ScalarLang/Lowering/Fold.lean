import ScalarLang.IR.Basic
import ScalarLang.Number.Power
/-!
# Arithmetic on constants

Integers wrap around at 64 bits. An operation without a result, or with one that is infinite or not a
number, is left to be done when the code runs.
-/
namespace ScalarLang.IR

namespace Arithmetic

/-- The quotient of integers is rounded towards zero, and is left alone if it divides by zero or
overflows. -/
def onIntegers? : Arithmetic → Int64 → Int64 → Option Int64
  | add, a, b => some (a + b)
  | sub, a, b => some (a - b)
  | mul, a, b => some (a * b)
  | div, a, b => if b = 0 ∨ (a = Int64.minValue ∧ b = -1) then none else some (a / b)

/-- An operation on doubles, rounded once. -/
def onFloats : Arithmetic → Binary64 → Binary64 → Binary64
  | add => Binary64.add
  | sub => Binary64.sub
  | mul => Binary64.mul
  | div => Binary64.div

/-- An operation on doubles is left alone if it divides by zero or its result is not finite. -/
def onFloats? (op : Arithmetic) (a b : Binary64) : Option Binary64 :=
  if op = div ∧ b.isZero then none
  else
    let r := op.onFloats a b
    if r.isFinite then some r else none

end Arithmetic

/-- Whether a comparison holds of two numbers in this order. -/
def Comparison.holds : Comparison → Ordering → Bool
  | less, o => o.isLT
  | greater, o => o.isGT
  | lessEqual, o => o.isLE
  | greaterEqual, o => o.isGE
  | equal, o => o.isEq

namespace Operand

/-- What a constant counts as in arithmetic: one that is not a number counts as zero. -/
def counted (x : Binary64) : Binary64 := if x.isNaN then .zero else x

/-- The order of two integers. -/
def orderOfIntegers (a b : Int64) : Ordering :=
  if a < b then .lt else if b < a then .gt else .eq

/-- The order of two doubles that are numbers. -/
def orderOfFloats (a b : Binary64) : Ordering :=
  if a.lt b then .lt else if b.lt a then .gt else .eq

/-- The arithmetic of two constants of one kind. -/
def foldArith? (op : Arithmetic) : Operand → Operand → Option Operand
  | integer a, integer b => (op.onIntegers? a b).map integer
  | float a, float b => (op.onFloats? (counted a) (counted b)).map float
  | _, _ => none

/-- The comparison of two constants of one kind is one if it holds and zero if not. -/
def foldCompare? (op : Comparison) : Operand → Operand → Option Operand
  | integer a, integer b => some (integer (if op.holds (orderOfIntegers a b) then 1 else 0))
  | float a, float b =>
    some (integer (if op.holds (orderOfFloats (counted a) (counted b)) then 1 else 0))
  | _, _ => none

/-- The power of two constant doubles. -/
def foldPower? : Operand → Operand → Option Operand
  | float a, float b =>
    let r := (counted a).pow (counted b)
    if r.isFinite then some (float r) else none
  | _, _ => none

/-- A constant with its sign changed. -/
def foldNegate? : Operand → Option Operand
  | integer a => some (integer (-a))
  | float a => some (float (counted a).neg)
  | _ => none

end Operand

end ScalarLang.IR
