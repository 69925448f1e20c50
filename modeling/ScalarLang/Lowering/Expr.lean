import ScalarLang.Lowering.Error
import ScalarLang.Lowering.Fold
import ScalarLang.Scope
/-!
# Code for expressions

Operands are computed from left to right, each into a draft of a block; an operation on an integer and a
double takes the integer as a double, and what constants decide needs no code. Lowering that fails keeps
the draft as it is then.
-/
namespace ScalarLang

/-- A block that is being written. -/
structure Draft where
  scope : Scope IR.Operand
  code : Array IR.Instr
  /-- Whether the power function has been called. -/
  usesPower : Bool

/-- An action that writes to a draft or fails. -/
abbrev Lowering := EStateM LoweringError Draft

namespace Lowering

/-- Writes an instruction and gives its result. -/
def emit (i : IR.Instr) : Lowering IR.Operand :=
  modifyGet fun d => (.result i.ty d.code.size, { d with code := d.code.push i })

/-- A value as a double. -/
def promote (v : IR.Operand) : Lowering IR.Operand :=
  if v.ty = .double then pure v
  else
    match v with
    | .integer k => pure (.float (.ofInt64 k))
    | v => emit (.promote v)

/-- The value of a name in scope. -/
def lookup (id : String) (pos : Position) : Lowering IR.Operand := do
  match (← get).scope.get? id with
  | some v => pure v
  | none => throw ⟨.undefinedName id, pos⟩

/-- Runs `act` in a frame of its own that binds `names` in turn. The frame is dropped afterwards,
also when `act` fails. -/
def within {α : Type} (names : List (String × IR.Operand)) (act : Lowering α) : Lowering α := fun d =>
  let inner := names.foldl (fun s (id, v) => s.set id v) d.scope.push
  match act { d with scope := inner } with
  | .ok a d => .ok a { d with scope := d.scope.pop }
  | .error e d => .error e { d with scope := d.scope.pop }

/-- A value with its sign changed. Integers are taken from zero. -/
def negate (v : IR.Operand) : Lowering IR.Operand :=
  match v.foldNegate? with
  | some k => pure k
  | none =>
    if v.ty = .double then emit (.negate v) else emit (.arith .sub .integer (.integer 0) v)

/-- Two values as numbers of one kind: doubles if one of them is a double. -/
def balance (x y : IR.Operand) : Lowering (IR.Scalar × IR.Operand × IR.Operand) := do
  if x.ty = .double ∨ y.ty = .double then
    let x ← promote x
    let y ← promote y
    pure (.float, x, y)
  else pure (.integer, x, y)

/-- An operation on two values, done at once if they are constants. -/
def arith (op : IR.Arithmetic) (x y : IR.Operand) : Lowering IR.Operand := do
  let (on, x, y) ← balance x y
  match IR.Operand.foldArith? op x y with
  | some k => pure k
  | none => emit (.arith op on x y)

/-- A comparison gives the integer one or zero. -/
def compare (op : IR.Comparison) (x y : IR.Operand) : Lowering IR.Operand := do
  let (on, x, y) ← balance x y
  match IR.Operand.foldCompare? op x y with
  | some k => pure k
  | none =>
    let bit ← emit (.compare op on x y)
    emit (.widen bit)

/-- The power of two values is computed in doubles. -/
def power (x y : IR.Operand) : Lowering IR.Operand := do
  let x ← promote x
  let y ← promote y
  match IR.Operand.foldPower? x y with
  | some k => pure k
  | none =>
    modify fun d => { d with usesPower := true }
    emit (.call .power [x, y])

/-- The code of a binary operator, if it is one. -/
def binary? : Operator → Option (IR.Operand → IR.Operand → Lowering IR.Operand)
  | .add => some (arith .add)
  | .sub => some (arith .sub)
  | .mul => some (arith .mul)
  | .div => some (arith .div)
  | .pow => some power
  | .less => some (compare .less)
  | .greater => some (compare .greater)
  | .lessEqual => some (compare .lessEqual)
  | .greaterEqual => some (compare .greaterEqual)
  | .equal => some (compare .equal)
  | .assign | .other _ => none

mutual

/-- The value of an expression, where `arity?` tells how many arguments the known functions take. -/
def expression (arity? : String → Option Nat) : Expr → Lowering IR.Operand
  | .integer v _ => pure (.integer v)
  | .float v _ => pure (.float v)
  | .name id pos => lookup id pos
  | .bind id init body _ => do
    let v ← expression arity? init
    within [(id, v)] (expression arity? body)
  | .unary op x pos => do
    let v ← expression arity? x
    match op with
    | .add => pure v
    | .sub => negate v
    | op => throw ⟨.notSign op, pos⟩
  | .binary op x y pos => do
    let x ← expression arity? x
    let y ← expression arity? y
    match binary? op with
    | some compute => compute x y
    | none => throw ⟨.notBinary op, pos⟩
  | .call callee args pos =>
    match arity? callee with
    | none => throw ⟨.undefinedFunction callee, pos⟩
    | some n =>
      if args.length = n then do
        let vs ← arguments arity? args
        emit (.call (.named callee) vs)
      else throw ⟨.wrongArity callee n args.length, pos⟩
  | .missing => throw ⟨.missingExpression, .unknown⟩

/-- The values of arguments, as doubles. -/
def arguments (arity? : String → Option Nat) : List Expr → Lowering (List IR.Operand)
  | [] => pure []
  | e :: es => do
    let v ← expression arity? e
    let v ← promote v
    let vs ← arguments arity? es
    pure (v :: vs)

end

end Lowering

end ScalarLang
