/-!
# Operators and how tightly they bind

Every binary operator has a level and a side; of two operators around one operand, the one with the
higher level takes it, and on one level the side decides.
-/
namespace ScalarLang

/-- The operators of the language. -/
inductive Operator where
  | add
  | sub
  | mul
  | div
  | pow
  | less
  | greater
  | lessEqual
  | greaterEqual
  | equal
  | assign
  /-- A spelling that is no operator of the language; only a tree made by hand holds one. -/
  | other (spelling : String)
  deriving DecidableEq, Repr

namespace Operator

/-- The operators of the language. -/
def all : List Operator :=
  [.add, .sub, .mul, .div, .pow, .less, .greater, .lessEqual, .greaterEqual, .equal, .assign]

/-- An operator as it is written. -/
def spelling : Operator → String
  | add => "+"
  | sub => "-"
  | mul => "*"
  | div => "/"
  | pow => "^"
  | less => "<"
  | greater => ">"
  | lessEqual => "<="
  | greaterEqual => ">="
  | equal => "=="
  | assign => "="
  | other s => s

/-- The operator of the language that is spelled `s`. -/
def ofSpelling? (s : String) : Option Operator := all.find? (·.spelling == s)

/-- The operator that is spelled `s`, of the language or not. -/
def ofSpelling (s : String) : Operator := (ofSpelling? s).getD (.other s)

/-- The operators whose answer is one or zero. -/
def isComparison : Operator → Bool
  | less | greater | lessEqual | greaterEqual | equal => true
  | _ => false

/-- The operators that may stand before an operand. -/
def isSign : Operator → Bool
  | add | sub => true
  | _ => false

end Operator

/-- Which of two operators on one level takes the operand between them. -/
inductive Associativity where
  | left
  | right
  deriving DecidableEq, Repr

namespace Associativity

/-- A side as it is shown. -/
def name : Associativity → String
  | left => "left"
  | right => "right"

/-- The side with number `n`: one is right, and every other number left. -/
def ofNumber (n : Int) : Associativity := if n = 1 then right else left

end Associativity

/-- How tightly an operator binds. -/
structure Precedence where
  level : Int
  side : Associativity
  deriving DecidableEq, Repr

/-- Whether `next` takes the operand between `cur` and `next`. -/
def Precedence.bindsTighter (next cur : Precedence) : Bool :=
  if next.level ≠ cur.level then decide (cur.level < next.level) else next.side = .right

/-- The precedence of a binary operator; assignment is none. -/
def Operator.precedence? : Operator → Option Precedence
  | less | greater | lessEqual | greaterEqual | equal => some ⟨10, .left⟩
  | add | sub => some ⟨20, .left⟩
  | mul | div => some ⟨40, .left⟩
  | pow => some ⟨60, .right⟩
  | assign | other _ => none

end ScalarLang
