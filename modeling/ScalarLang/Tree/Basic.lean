import ScalarLang.Number.Binary64
import ScalarLang.Operator
import ScalarLang.Text.Position
/-!
# Programs as trees

A program is a list of items: an item declares a function, defines one, or is an expression to be
evaluated. `Node` holds any part of a tree, also one put together by hand with parts left out.
-/
namespace ScalarLang

/-- The name of case `n`, where `names` lists the cases from number `first` on. A number that names no
case is shown with the label of its family. -/
def Text.numbered (label : String) (first : Int) (names : List String) (n : Int) : String :=
  match if n < first then none else names[(n - first).toNat]? with
  | some name => name
  | none => s!"{label}({n})"

/-- An expression, with the place of each part. -/
inductive Expr where
  | integer (value : Int64) (pos : Position)
  | float (value : Binary64) (pos : Position)
  | name (id : String) (pos : Position)
  /-- `body` with the value of `init` under the name `id`. -/
  | bind (id : String) (init body : Expr) (pos : Position)
  | unary (op : Operator) (operand : Expr) (pos : Position)
  | binary (op : Operator) (left right : Expr) (pos : Position)
  | call (callee : String) (args : List Expr) (pos : Position)
  /-- The place of an expression that was left out. -/
  | missing
  deriving Repr, Inhabited

/-- The name of a function and of its parameters. -/
structure Prototype where
  name : String
  params : List String
  pos : Position
  deriving DecidableEq, Repr

/-- A part of a program that stands by itself. -/
inductive Item where
  /-- A function known by its prototype only. -/
  | external (proto : Prototype) (pos : Position)
  | define (proto : Prototype) (body : Expr) (pos : Position)
  | evaluate (body : Expr) (pos : Position)
  deriving Repr

/-- A function without a name, which is evaluated where it stands. -/
def Prototype.isAnonymous (p : Prototype) : Bool := p.name = ""

/-- The kinds of parts that messages tell apart. -/
inductive NodeKind where
  | integer
  | float
  | name
  | bind
  | unary
  | binary
  | call
  | prototype
  | external
  | define
  deriving DecidableEq, Repr

namespace NodeKind

/-- The kinds, by number from one on. -/
def all : List NodeKind :=
  [.integer, .float, .name, .bind, .unary, .binary, .call, .prototype, .external, .define]

/-- The kind as messages show it. -/
def label : NodeKind → String
  | integer => "IntegerLiteral"
  | float => "FloatLiteral"
  | name => "Identifier"
  | bind => "VariableExpr"
  | unary => "UnaryExpr"
  | binary => "BinaryExpr"
  | call => "FuncCall"
  | prototype => "Prototype"
  | external => "ExternDecl"
  | define => "FuncDecl"

/-- The kind that messages show as `s`. -/
def ofLabel? (s : String) : Option NodeKind := all.find? (·.label == s)

end NodeKind

/-- A part of a tree. Nothing at all is the missing expression. -/
inductive Node where
  | expr (e : Expr)
  | prototype (p : Prototype)
  | item (i : Item)
  /-- A prototype, declaration or definition whose prototype was left out. -/
  | headless (kind : NodeKind) (pos : Position)
  deriving Repr

namespace Expr

/-- The kind of an expression, unless it was left out. -/
def kind? : Expr → Option NodeKind
  | integer .. => some .integer
  | float .. => some .float
  | name .. => some .name
  | bind .. => some .bind
  | unary .. => some .unary
  | binary .. => some .binary
  | call .. => some .call
  | missing => none

/-- Where an expression stands. -/
def pos : Expr → Position
  | integer _ p | float _ p | name _ p | bind _ _ _ p | unary _ _ p | binary _ _ _ p
  | call _ _ p => p
  | missing => .unknown

end Expr

namespace Item

/-- An expression to be evaluated counts as the definition of a function without a name. -/
def kind : Item → NodeKind
  | external .. => .external
  | define .. | evaluate .. => .define

/-- Where an item stands. -/
def pos : Item → Position
  | external _ p | define _ _ p | evaluate _ p => p

end Item

namespace Node

/-- The kind of a part, unless it is a missing expression. -/
def kind? : Node → Option NodeKind
  | expr e => e.kind?
  | prototype _ => some .prototype
  | item i => some i.kind
  | headless k _ => some k

/-- Where a part stands. -/
def pos : Node → Position
  | expr e => e.pos
  | prototype p => p.pos
  | item i => i.pos
  | headless _ p => p

end Node

end ScalarLang
