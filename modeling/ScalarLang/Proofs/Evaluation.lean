import ScalarLang.Number.Power
import ScalarLang.Tree.Basic
/-!
# What programs mean

Expressions are evaluated eagerly, from left to right, in an environment of lexical scopes. Functions are
an oracle: what a call answers may depend on all calls before it. A run therefore has the calls it makes
as its state, and ends with a value or halts.
-/
namespace ScalarLang

/-- A number that a program computes with. -/
inductive Value where
  | integer (value : Int64)
  | float (value : Binary64)
  deriving DecidableEq, Repr

/-- A call of a function. All arguments are doubles. -/
structure Call where
  callee : String
  args : List Binary64
  deriving DecidableEq, Repr

/-- Why a run ends without a value. -/
inductive Halt where
  /-- A quotient of integers that is no integer of 64 bits. -/
  | division
  /-- A call that did not return. -/
  | callee
  /-- An expression without meaning, or code that is not well typed. -/
  | stuck
  deriving DecidableEq, Repr

/-- A computation that makes calls. Its state holds the calls made so far, the last one first. -/
abbrev Run := EStateM Halt (List Call)

/-- What functions answer: the result of a call after the calls made before it, if it returns. -/
abbrev Callees := List Call → Call → Option Binary64

/-- Makes a call. -/
def Run.call (callees : Callees) (c : Call) : Run Binary64 := fun made =>
  match callees made c with
  | none => .error .callee (c :: made)
  | some v => .ok v (c :: made)

/-! ## Numbers -/

namespace Binary64

/-- Nothing is equal to what is not a number, and the zeros are equal. -/
def eq (x y : Binary64) : Bool := !x.isNaN && !y.isNaN && decide (x.rank = y.rank)

/-- The order of doubles. It does not hold of what is not a number. -/
def le (x y : Binary64) : Bool := x.lt y || x.eq y

end Binary64

/-- The quotient of integers, rounded towards zero. -/
def quotient (a b : Int64) : Run Int64 :=
  if b = 0 ∨ (a = Int64.minValue ∧ b = -1) then throw .division else pure (a / b)

namespace Value

/-- A value as a double. -/
def toFloat : Value → Binary64
  | integer v => .ofInt64 v
  | float v => v

/-- Comparisons answer with the integers one and zero. -/
def truth (b : Bool) : Value := .integer (if b then 1 else 0)

/-- A value with its sign changed. -/
def negate : Value → Value
  | integer v => .integer (-v)
  | float v => .float v.neg

/-- Arithmetic on integers if both numbers are integers, and on doubles if not. -/
def arithmetic (onIntegers : Int64 → Int64 → Run Int64)
    (onFloats : Binary64 → Binary64 → Binary64) : Value → Value → Run Value
  | integer a, integer b => integer <$> onIntegers a b
  | x, y => pure (float (onFloats x.toFloat y.toFloat))

/-- The comparison of integers if both numbers are integers, and of doubles if not. -/
def comparison (onIntegers : Int64 → Int64 → Bool) (onFloats : Binary64 → Binary64 → Bool) :
    Value → Value → Value
  | integer a, integer b => truth (onIntegers a b)
  | x, y => truth (onFloats x.toFloat y.toFloat)

/-- A double among the operands makes the arithmetic one on doubles. -/
theorem arithmetic_of_mixed {onIntegers : Int64 → Int64 → Run Int64}
    {onFloats : Binary64 → Binary64 → Binary64} {v w : Value}
    (h : ∀ a b, v = .integer a → w ≠ .integer b) :
    v.arithmetic onIntegers onFloats w = pure (.float (onFloats v.toFloat w.toFloat)) := by
  cases v with
  | float a => rfl
  | integer a =>
    cases w with
    | float b => rfl
    | integer b => exact absurd rfl (h a b rfl)

theorem comparison_of_mixed {onIntegers : Int64 → Int64 → Bool}
    {onFloats : Binary64 → Binary64 → Bool} {v w : Value}
    (h : ∀ a b, v = .integer a → w ≠ .integer b) :
    v.comparison onIntegers onFloats w = truth (onFloats v.toFloat w.toFloat) := by
  cases v with
  | float a => rfl
  | integer a =>
    cases w with
    | float b => rfl
    | integer b => exact absurd rfl (h a b rfl)

end Value

/-- What a binary operator computes. Integers wrap around at 64 bits, and powers are doubles. -/
def Operator.eval (op : Operator) (x y : Value) : Run Value :=
  match op with
  | .add => x.arithmetic (fun a b => pure (a + b)) Binary64.add y
  | .sub => x.arithmetic (fun a b => pure (a - b)) Binary64.sub y
  | .mul => x.arithmetic (fun a b => pure (a * b)) Binary64.mul y
  | .div => x.arithmetic quotient Binary64.div y
  | .pow => pure (.float (x.toFloat.pow y.toFloat))
  | .less => pure (x.comparison (fun a b => a < b) Binary64.lt y)
  | .greater => pure (x.comparison (fun a b => b < a) (fun a b => b.lt a) y)
  | .lessEqual => pure (x.comparison (fun a b => a ≤ b) Binary64.le y)
  | .greaterEqual => pure (x.comparison (fun a b => b ≤ a) (fun a b => b.le a) y)
  | .equal => pure (x.comparison (fun a b => a = b) Binary64.eq y)
  | .assign | .other _ => throw .stuck

/-! ## Trees -/

/-- The values of the names in scope, the innermost first. -/
abbrev Environment := List (String × Value)

mutual

/-- The meaning of an expression: its operands from left to right, and then the operation itself. -/
def Expr.eval (callees : Callees) (env : Environment) : Expr → Run Value
  | .integer v _ => pure (.integer v)
  | .float v _ => pure (.float v)
  | .name id _ =>
    match env.lookup id with
    | some v => pure v
    | none => throw .stuck
  | .bind id init body _ => do
    let v ← init.eval callees env
    body.eval callees ((id, v) :: env)
  | .unary op x _ => do
    let v ← x.eval callees env
    match op with
    | .add => pure v
    | .sub => pure v.negate
    | _ => throw .stuck
  | .binary op x y _ => do
    let v ← x.eval callees env
    let w ← y.eval callees env
    op.eval v w
  | .call callee args _ => do
    let vs ← evalArguments callees env args
    .float <$> Run.call callees ⟨callee, vs⟩
  | .missing => throw .stuck

/-- The values of arguments, as doubles. -/
def evalArguments (callees : Callees) (env : Environment) : List Expr → Run (List Binary64)
  | [] => pure []
  | e :: es => do
    let v ← e.eval callees env
    let vs ← evalArguments callees env es
    pure (v.toFloat :: vs)

end

namespace Item

/-- The parameters of the function that an item stands for. -/
def params : Item → List String
  | external p _ | define p _ _ => p.params
  | evaluate .. => []

/-- What a call of the function gives. A function with a name gives a double. -/
def eval (callees : Callees) (args : List Binary64) : Item → Run Value
  | external .. => throw .stuck
  | define p body _ => do
    let v ← body.eval callees (p.params.zip (args.map .float))
    pure (.float v.toFloat)
  | evaluate body _ => body.eval callees []

end Item

end ScalarLang
