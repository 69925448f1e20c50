import ScalarLang.Event
import ScalarLang.IR.Printer
import ScalarLang.Lowering.Expr
/-!
# Code for items

A generator holds the module so far and a registry of the functions that calls can name; each item adds a
function to them, or completes one that was declared before. An item that fails adds no function, but a
power function that it called stays.
-/
namespace ScalarLang

/-- What is known of a function by its name. -/
structure Signature where
  arity : Nat
  defined : Bool
  deriving DecidableEq, Repr

/-- The functions that calls can name. -/
structure Registry where
  entries : List (String × Signature)
  deriving DecidableEq, Repr

namespace Registry

/-- What is known of a name. -/
def get? (r : Registry) (name : String) : Option Signature := r.entries.lookup name

/-- Puts a function in the place of the one with its name. -/
def insert (r : Registry) (name : String) (s : Signature) : Registry :=
  ⟨(name, s) :: r.entries.filter (·.1 ≠ name)⟩

/-- The number of parameters that calls have to give. -/
def arity? (r : Registry) (name : String) : Option Nat := (r.get? name).map Signature.arity

end Registry

/-- What has been generated so far. Between items no names are in scope. -/
structure Generator where
  module : IR.Module
  registry : Registry
  scope : Scope IR.Operand
  /-- How many expressions have been evaluated. -/
  evaluated : Nat
  deriving DecidableEq, Repr

/-- What came of an item. -/
structure Generated where
  result : Except LoweringError IR.Symbol
  events : List Event
  generator : Generator

namespace Generator

/-- Only the library is known. -/
def initial : Generator :=
  ⟨.library, ⟨[("printd", ⟨1, true⟩), ("putchard", ⟨1, true⟩)]⟩, .empty, 0⟩

/-! ## Bodies -/

/-- Every block that is written for a program has this label. -/
def entry : String := "entry"

/-- The value of a body with its parameters in scope. A function with a name returns a double. -/
def bodyValue (registry : Registry) (params : List String) (body : Expr) (promoted : Bool) :
    Lowering IR.Operand :=
  .within (params.mapIdx fun i name => (name, .param i)) do
    let v ← Lowering.expression registry.arity? body
    if promoted then Lowering.promote v else pure v

/-- The block of a body, and whether it calls the power function. -/
structure Lowered where
  block : Except LoweringError IR.Block
  usesPower : Bool
  scope : Scope IR.Operand

/-- Lowers a body into a block of its own. -/
def lowerBody (g : Generator) (registry : Registry) (params : List String) (body : Expr)
    (promoted : Bool) : Lowered :=
  match bodyValue registry params body promoted ⟨g.scope, #[], false⟩ with
  | .ok v d => ⟨.ok ⟨entry, d.code.toList, v⟩, d.usesPower, d.scope⟩
  | .error e d => ⟨.error e, d.usesPower, d.scope⟩

/-- Adds the power function if it is called. -/
def withPower (m : IR.Module) (usesPower : Bool) : IR.Module :=
  if usesPower then m.put .power else m

/-! ## Declarations -/

/-- The first name that stands in a list for the second time. -/
def firstRepeated? : (seen : List String) → List String → Option String
  | _, [] => none
  | seen, name :: names =>
    if name ∈ seen then some name else firstRepeated? (name :: seen) names

/-- Names that programs cannot give to functions. -/
def isReserved (name : String) : Bool :=
  name = IR.Module.printerName || IR.expressionMark.isPrefixOf name

/-- What is wrong with a prototype, whether or not its function gets a body. -/
def prototypeFault? (g : Generator) (p : Prototype) : Option LoweringFault :=
  if isReserved p.name then some (.reservedName p.name)
  else
    match firstRepeated? [] p.params with
    | some param => some (.repeatedParameter param p.name)
    | none =>
      match g.registry.get? p.name with
      | some known =>
        if known.arity = p.params.length then none
        else some (.otherArity p.name p.params.length known.arity)
      | none => none

/-- A function that is declared by a prototype, with a body or without. -/
def functionOf (p : Prototype) (body? : Option IR.Block) : IR.Function :=
  ⟨.named p.name, p.params, .double, body?⟩

/-- An item that is refused leaves everything as it is. -/
def refuse (g : Generator) (fault : LoweringFault) (pos : Position) : Generated :=
  ⟨.error ⟨fault, pos⟩, [], g⟩

/-- Declares a function, unless it is known already. -/
def declare (g : Generator) (p : Prototype) : Generated :=
  match g.prototypeFault? p with
  | some fault => g.refuse fault p.pos
  | none =>
    if (g.registry.get? p.name).isSome then ⟨.ok (.named p.name), [], g⟩
    else
      ⟨.ok (.named p.name), [.declared p.name p.params.length],
        { g with
          module := g.module.put (functionOf p none)
          registry := g.registry.insert p.name ⟨p.params.length, false⟩ }⟩

/-! ## Definitions -/

/-- Whether a failed definition is struck from the registry, which it is under the name that lists
of functions show. A name that spells an integer is shown in another way, so it stays taken. -/
def isStruck (name : String) : Bool := (IR.Symbol.named name).label = name

/-- Defines a function. If its body fails, a function that was declared before stays declared, with
the names of its parameters from here. -/
def define (g : Generator) (p : Prototype) (body : Expr) : Generated :=
  let known := g.registry.get? p.name
  if known.any Signature.defined then g.refuse (.alreadyDefined p.name) p.pos
  else
    match g.prototypeFault? p with
    | some fault => g.refuse fault p.pos
    | none =>
      let arity := p.params.length
      let declared := if known.isSome then [] else [Event.declared p.name arity]
      let lowered := g.lowerBody (g.registry.insert p.name ⟨arity, false⟩) p.params body true
      match lowered.block with
      | .ok block =>
        ⟨.ok (.named p.name), declared ++ [.defined p.name],
          { g with
            module := withPower (g.module.put (functionOf p (some block))) lowered.usesPower
            registry := g.registry.insert p.name ⟨arity, true⟩
            scope := lowered.scope }⟩
      | .error e =>
        let module := if known.isSome then g.module.put (functionOf p none) else g.module
        let registry :=
          if known.isSome || isStruck p.name then g.registry
          else g.registry.insert p.name ⟨arity, true⟩
        ⟨.error e, declared,
          { g with
            module := withPower module lowered.usesPower
            registry := registry
            scope := lowered.scope }⟩

/-- Puts an expression into a function of its own, which returns what the expression gives. The
number of the function is used up also when the expression fails. -/
def evaluate (g : Generator) (body : Expr) : Generated :=
  let symbol := IR.Symbol.expression g.evaluated
  let lowered := g.lowerBody g.registry [] body false
  let next := { g with scope := lowered.scope, evaluated := g.evaluated + 1 }
  match lowered.block with
  | .ok block =>
    let function : IR.Function := ⟨symbol, [], block.value.ty, some block⟩
    ⟨.ok symbol, [.defined symbol.name],
      { next with module := withPower (g.module.put function) lowered.usesPower }⟩
  | .error e => ⟨.error e, [], { next with module := withPower g.module lowered.usesPower }⟩

/-! ## Items -/

/-- Generates the code of an item. A definition without a name is evaluated. -/
def item (g : Generator) : Item → Generated
  | .external p _ => g.declare p
  | .define p body _ => if p.isAnonymous then g.evaluate body else g.define p body
  | .evaluate body _ => g.evaluate body

/-- An item, or a prototype alone, which declares its function. -/
def node (g : Generator) : Node → Generated
  | .item i => g.item i
  | .prototype p => g.declare p
  | .headless kind _ => g.refuse (.noPrototype kind) .unknown
  | .expr e =>
    match e.kind? with
    | some kind => g.refuse (.notAnItem kind) e.pos
    | none => g.refuse .nothing .unknown

/-- The function that is registered under a name. -/
def function? (g : Generator) (name : String) : Option IR.Function :=
  if (g.registry.get? name).isSome then g.module.find? (.named name) else none

end Generator

end ScalarLang
