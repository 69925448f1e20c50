import ScalarLang.Number.Binary64
/-!
# Intermediate code

A module is a list of functions, and a function with a body has one block of straight-line code: every
instruction has a result, and operands are constants, parameters and results of instructions before.
-/
namespace ScalarLang.IR

/-- The types of values. Programs compute with doubles and 64-bit integers; the others come from
comparing and printing. -/
inductive Ty where
  | double
  | i64
  | i32
  | i1
  deriving DecidableEq, Repr

/-- The kinds of numbers that programs compute with. -/
inductive Scalar where
  | integer
  | float
  deriving DecidableEq, Repr

/-- The type of the numbers of a kind. -/
def Scalar.ty : Scalar → Ty
  | integer => .i64
  | float => .double

/-- The operations that have an instruction for both kinds of numbers. -/
inductive Arithmetic where
  | add
  | sub
  | mul
  | div
  deriving DecidableEq, Repr

/-- The comparisons of two numbers. -/
inductive Comparison where
  | less
  | greater
  | lessEqual
  | greaterEqual
  | equal
  deriving DecidableEq, Repr

/-- What a function is called by. -/
inductive Symbol where
  /-- A function of the program or of the library. -/
  | named (name : String)
  /-- The expression that was evaluated as number `n`. -/
  | expression (n : Nat)
  /-- The power of two doubles. -/
  | power
  deriving DecidableEq, Repr

/-- The texts that the library functions print with. -/
inductive Format where
  /-- A number on a line of its own. -/
  | number
  /-- A single character. -/
  | character
  deriving DecidableEq, Repr

/-- What an instruction works on. -/
inductive Operand where
  | integer (value : Int64)
  | float (value : Binary64)
  | param (index : Nat)
  /-- The result of the instruction at `index`. -/
  | result (ty : Ty) (index : Nat)
  deriving DecidableEq, Repr

/-- Parameters are doubles. -/
def Operand.ty : Operand → Ty
  | integer _ => .i64
  | float _ | param _ => .double
  | result ty _ => ty

/-- The instructions. Each of them has a result, which later ones refer to by its place in the code. -/
inductive Instr where
  | arith (op : Arithmetic) (on : Scalar) (left right : Operand)
  | negate (operand : Operand)
  /-- The answer is a single bit. -/
  | compare (op : Comparison) (on : Scalar) (left right : Operand)
  /-- A single bit as an integer. -/
  | widen (operand : Operand)
  /-- An integer as a double. -/
  | promote (operand : Operand)
  /-- A double as a character code. -/
  | truncate (operand : Operand)
  | call (callee : Symbol) (args : List Operand)
  | print (format : Format) (operand : Operand)
  deriving DecidableEq, Repr

/-- The type of the result. -/
def Instr.ty : Instr → Ty
  | arith _ on .. => on.ty
  | negate _ | promote _ | call .. => .double
  | compare .. => .i1
  | widen _ => .i64
  | truncate _ | print .. => .i32

/-- Straight-line code that ends by returning a value. -/
structure Block where
  label : Option String
  code : List Instr
  /-- What the function returns. -/
  value : Operand
  deriving DecidableEq, Repr

/-- A function of a module. All parameters are doubles. -/
structure Function where
  symbol : Symbol
  params : List String
  returns : Ty
  /-- A function without a body is declared only. -/
  body? : Option Block
  deriving DecidableEq, Repr

/-- The functions of a program, in the order in which they were first put there. -/
structure Module where
  functions : List Function
  deriving DecidableEq, Repr

namespace Function

/-- The number of parameters. -/
def arity (f : Function) : Nat := f.params.length

/-- The power function, which is supplied when code is run. -/
def power : Function := ⟨.power, ["x", "y"], .double, none⟩

/-- Prints a number. -/
def printNumber : Function :=
  ⟨.named "printd", ["x"], .double,
    some ⟨none, [.print .number (.param 0)], .float .zero⟩⟩

/-- Prints the character with a given code. -/
def printCharacter : Function :=
  ⟨.named "putchard", ["x"], .double,
    some ⟨none, [.truncate (.param 0), .print .character (.result .i32 0)], .float .zero⟩⟩

end Function

namespace Module

/-- The functions that every program can call. -/
def library : Module := ⟨[.printNumber, .printCharacter]⟩

/-- The function that is called by a symbol. -/
def find? (m : Module) (s : Symbol) : Option Function := m.functions.find? (·.symbol = s)

/-- Puts a function in the place of the one with its symbol, or at the end. -/
def put (m : Module) (f : Function) : Module :=
  if (m.find? f.symbol).isSome then
    ⟨m.functions.map fun g => if g.symbol = f.symbol then f else g⟩
  else ⟨m.functions ++ [f]⟩

end Module

end ScalarLang.IR
