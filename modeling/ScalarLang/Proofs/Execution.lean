import ScalarLang.Lowering.Fold
import ScalarLang.Proofs.Evaluation
/-!
# What code does

The instructions of a block run in order, and each adds its result to the results before it. An operand
is read with its type; code that reads a word of another type, or a result that is not there yet, is
stuck.
-/
namespace ScalarLang.IR

/-- A word of the machine. -/
inductive Word where
  | i64 (value : Int64)
  | double (value : Binary64)
  | i1 (value : Bool)
  deriving DecidableEq, Repr

/-- The type that a word has. -/
def Word.ty : Word → Ty
  | i64 _ => .i64
  | double _ => .double
  | i1 _ => .i1

/-- A word of a given type. -/
def Word.ofTy? (ty : Ty) (w : Word) : Option Word := if w.ty = ty then some w else none

/-- The word for a number. -/
def Word.ofValue : Value → Word
  | .integer v => .i64 v
  | .float v => .double v

/-! ## Operands -/

namespace Operand

/-- The word that an operand stands for, after the results of the instructions before. -/
def word? (args : List Binary64) (results : List Word) : Operand → Option Word
  | integer v => some (.i64 v)
  | float v => some (.double v)
  | param i => args[i]?.map .double
  | result ty i => results[i]?.bind (Word.ofTy? ty)

/-- The word that an operand stands for. -/
def read (args : List Binary64) (results : List Word) (x : Operand) : Run Word :=
  match x.word? args results with
  | some w => pure w
  | none => throw .stuck

/-- An operand that has to be an integer. -/
def readInteger (args : List Binary64) (results : List Word) (x : Operand) : Run Int64 := do
  match ← x.read args results with
  | .i64 v => pure v
  | _ => throw .stuck

/-- An operand that has to be a double. -/
def readFloat (args : List Binary64) (results : List Word) (x : Operand) : Run Binary64 := do
  match ← x.read args results with
  | .double v => pure v
  | _ => throw .stuck

/-- An operand that has to be a single bit. -/
def readBit (args : List Binary64) (results : List Word) (x : Operand) : Run Bool := do
  match ← x.read args results with
  | .i1 b => pure b
  | _ => throw .stuck

end Operand

/-! ## Instructions -/

/-- Integers wrap around, and a division without a quotient halts. -/
def Arithmetic.onIntegers : Arithmetic → Int64 → Int64 → Run Int64
  | add, a, b => pure (a + b)
  | sub, a, b => pure (a - b)
  | mul, a, b => pure (a * b)
  | div, a, b => quotient a b

/-- Whether a comparison of integers holds. -/
def Comparison.onIntegers : Comparison → Int64 → Int64 → Bool
  | less, a, b => a < b
  | greater, a, b => b < a
  | lessEqual, a, b => a ≤ b
  | greaterEqual, a, b => b ≤ a
  | equal, a, b => a = b

/-- No comparison holds with what is not a number. -/
def Comparison.onFloats : Comparison → Binary64 → Binary64 → Bool
  | less, a, b => a.lt b
  | greater, a, b => b.lt a
  | lessEqual, a, b => a.le b
  | greaterEqual, a, b => b.le a
  | equal, a, b => a.eq b

/-- The result of an instruction. Only the library prints, and it is not run here. -/
def Instr.run (callees : Callees) (args : List Binary64) (results : List Word) : Instr → Run Word
  | arith op .integer x y => do
    let a ← x.readInteger args results
    let b ← y.readInteger args results
    .i64 <$> op.onIntegers a b
  | arith op .float x y => do
    let a ← x.readFloat args results
    let b ← y.readFloat args results
    pure (.double (op.onFloats a b))
  | negate x => do
    let a ← x.readFloat args results
    pure (.double a.neg)
  | compare op .integer x y => do
    let a ← x.readInteger args results
    let b ← y.readInteger args results
    pure (.i1 (op.onIntegers a b))
  | compare op .float x y => do
    let a ← x.readFloat args results
    let b ← y.readFloat args results
    pure (.i1 (op.onFloats a b))
  | widen x => do
    let b ← x.readBit args results
    pure (.i64 (if b then 1 else 0))
  | promote x => do
    let a ← x.readInteger args results
    pure (.double (.ofInt64 a))
  | call (.named callee) xs => do
    let vs ← xs.mapM (Operand.readFloat args results)
    .double <$> Run.call callees ⟨callee, vs⟩
  | call .power [x, y] => do
    let a ← x.readFloat args results
    let b ← y.readFloat args results
    pure (.double (a.pow b))
  | call .. | truncate _ | print .. => throw .stuck

/-- Runs instructions in order. -/
def runCode (callees : Callees) (args : List Binary64) :
    List Instr → (results : List Word) → Run (List Word)
  | [], results => pure results
  | i :: is, results => do
    let w ← i.run callees args results
    runCode callees args is (results ++ [w])

/-- Runs a block and gives what it returns. -/
def Block.run (callees : Callees) (args : List Binary64) (b : Block) : Run Word := do
  let results ← runCode callees args b.code []
  b.value.read args results

end ScalarLang.IR
