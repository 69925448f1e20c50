import ScalarLang.IR.Constant
import ScalarLang.IR.Name
/-!
# Code as text

Results are numbered as they come; a parameter or block without a name takes a number as well.
-/
namespace ScalarLang.IR

/-- A type as it stands in code. -/
def Ty.text : Ty → String
  | double => "double"
  | i64 => "i64"
  | i32 => "i32"
  | i1 => "i1"

/-- The name of an instruction, which depends on the kind of numbers. -/
def Arithmetic.mnemonic : Arithmetic → Scalar → String
  | add, .integer => "add"
  | sub, .integer => "sub"
  | mul, .integer => "mul"
  | div, .integer => "sdiv"
  | add, .float => "fadd"
  | sub, .float => "fsub"
  | mul, .float => "fmul"
  | div, .float => "fdiv"

/-- The name of a comparison. Comparisons of doubles do not hold of what is not a number. -/
def Comparison.mnemonic : Comparison → Scalar → String
  | less, .integer => "icmp slt"
  | greater, .integer => "icmp sgt"
  | lessEqual, .integer => "icmp sle"
  | greaterEqual, .integer => "icmp sge"
  | equal, .integer => "icmp eq"
  | less, .float => "fcmp olt"
  | greater, .float => "fcmp ogt"
  | lessEqual, .float => "fcmp ole"
  | greaterEqual, .float => "fcmp oge"
  | equal, .float => "fcmp oeq"

/-! ## Formats -/

/-- The constant that holds a format: its name, its bytes and how it is written. -/
structure Format.Storage where
  name : String
  size : Nat
  text : String

/-- The constants of the two formats. -/
def Format.storage : Format → Format.Storage
  | number => ⟨".fmt.printd", 4, "%f\\0A\\00"⟩
  | character => ⟨".fmt.putchard", 3, "%c\\00"⟩

/-- The line that defines the constant of a format. -/
def Format.definition (f : Format) : String :=
  s!"@{f.storage.name} = constant [{f.storage.size} x i8] c\"{f.storage.text}\"\n"

/-- Where the first byte of a format is. -/
def Format.address (f : Format) : String :=
  let array := s!"[{f.storage.size} x i8]"
  s!"getelementptr ({array}, {array}* @{f.storage.name}, i64 0, i64 0)"

/-! ## Functions -/

namespace Function

/-- How many of the first `n` parameters have no name. -/
def unnamed (f : Function) (n : Nat) : Nat := (f.params.take n).countP (· = "")

/-- A parameter by its name, or by its number if it has none. -/
def paramText (f : Function) (i : Nat) : String :=
  match f.params[i]? with
  | some "" | none => s!"%{f.unnamed i}"
  | some name => "%" ++ Name.text name

/-- The number of the first result. -/
def firstResult (f : Function) : Nat :=
  let labelled := f.body?.any (·.label.isSome)
  f.unnamed f.arity + if labelled then 0 else 1

/-- An operand without its type. -/
def operandText (f : Function) : Operand → String
  | .integer v => Constant.integerText v
  | .float v => Constant.floatText v
  | .param i => f.paramText i
  | .result _ i => s!"%{f.firstResult + i}"

/-- An operand after its type. -/
def typedText (f : Function) (x : Operand) : String := x.ty.text ++ " " ++ f.operandText x

/-- An instruction without its result. -/
def instrText (f : Function) : Instr → String
  | .arith op on x y => s!"{op.mnemonic on} {on.ty.text} {f.operandText x}, {f.operandText y}"
  | .negate x => s!"fneg {f.typedText x}"
  | .compare op on x y => s!"{op.mnemonic on} {on.ty.text} {f.operandText x}, {f.operandText y}"
  | .widen x => s!"zext {f.typedText x} to i64"
  | .promote x => s!"sitofp {f.typedText x} to double"
  | .truncate x => s!"fptosi {f.typedText x} to i32"
  | .call callee args =>
    "call double " ++ callee.text ++ "(" ++ ", ".intercalate (args.map f.typedText) ++ ")"
  | .print format x => s!"call i32 (i8*, ...) @printf(i8* {format.address}, {f.typedText x})"

/-- A function's head: what it returns, its name and its parameters. -/
def head (f : Function) : String :=
  let params := (List.range f.arity).map fun i => "double " ++ f.paramText i
  f.returns.text ++ " " ++ f.symbol.text ++ "(" ++ ", ".intercalate params ++ ")"

/-- The label of a block, which is a number if the block has none. -/
def labelText (f : Function) (b : Block) : String :=
  match b.label with
  | some label => Name.text label
  | none => toString (f.unnamed f.arity)

/-- A declaration, or a definition with its code. -/
def text (f : Function) : String :=
  match f.body? with
  | none => "declare " ++ f.head
  | some b =>
    let code := b.code.mapIdx fun i instr => s!"\t%{f.firstResult + i} = {f.instrText instr}\n"
    "define " ++ f.head ++ " \x7b\n" ++ f.labelText b ++ ":\n" ++ String.join code
      ++ "\tret " ++ f.typedText b.value ++ "\n\x7d"

end Function

/-- A function as a value: its type and its name. -/
def Symbol.valueText (s : Symbol) (arity : Nat) (returns : Ty) : String :=
  let params := ", ".intercalate (List.replicate arity Ty.double.text)
  returns.text ++ " (" ++ params ++ ")* " ++ s.text

/-! ## Modules -/

namespace Module

/-- The function that the library prints with. It takes any number of arguments, and programs cannot
call it. -/
def printerName : String := "printf"

/-- What stands before the functions. -/
def preamble : String :=
  Format.number.definition ++ Format.character.definition ++ "\n" ++
    s!"declare i32 @{printerName}(i8* %format, ...)\n"

/-- The whole text of a module. -/
def text (m : Module) : String :=
  preamble ++ String.join (m.functions.map fun f => "\n" ++ f.text ++ "\n")

/-- The names of all functions of a module. -/
def labels (m : Module) : List String := printerName :: m.functions.map (·.symbol.label)

end Module

end ScalarLang.IR
