import ScalarLang.Tree.Basic
/-!
# Why a tree has no code

Most causes are faults of the program; the others come only from trees put together by hand, and
reporting one is a fault of the compiler.
-/
namespace ScalarLang

/-- What is wrong with a tree. -/
inductive LoweringFault where
  | undefinedName (name : String)
  | undefinedFunction (name : String)
  | wrongArity (name : String) (takes given : Nat)
  | reservedName (name : String)
  | repeatedParameter (param function : String)
  | otherArity (name : String) (given previous : Nat)
  | alreadyDefined (name : String)
  | nothing
  | noPrototype (kind : NodeKind)
  | notAnItem (kind : NodeKind)
  | missingExpression
  | notSign (op : Operator)
  | notBinary (op : Operator)
  /-- Another kind of node was wanted. -/
  | wrongKind (wanted : NodeKind) (found : Option NodeKind)
  deriving DecidableEq, Repr

/-- The kinds of faults that messages tell apart. -/
inductive LoweringErrorKind where
  | undefinedName
  | undefinedFunction
  | arityMismatch
  | redefinition
  | wrongNodeKind
  deriving DecidableEq, Repr

namespace LoweringErrorKind

/-- A kind as messages show it. -/
def name : LoweringErrorKind → String
  | undefinedName => "undefined name"
  | undefinedFunction => "undefined function"
  | arityMismatch => "arity mismatch"
  | redefinition => "redefinition"
  | wrongNodeKind => "wrong node kind"

/-- The kinds, by number. -/
def all : List LoweringErrorKind :=
  [.undefinedName, .undefinedFunction, .arityMismatch, .redefinition, .wrongNodeKind]

end LoweringErrorKind

namespace LoweringFault

/-- All faults that only a tree made by hand has are of one kind. -/
def kind : LoweringFault → LoweringErrorKind
  | undefinedName _ => .undefinedName
  | undefinedFunction _ => .undefinedFunction
  | wrongArity .. => .arityMismatch
  | reservedName _ | repeatedParameter .. | otherArity .. | alreadyDefined _ => .redefinition
  | nothing | noPrototype _ | notAnItem _ | missingExpression | notSign _ | notBinary _
  | wrongKind .. => .wrongNodeKind

/-- The name that a fault is about, if it is about one. -/
def name : LoweringFault → String
  | undefinedName name | undefinedFunction name | wrongArity name .. | reservedName name
  | repeatedParameter name _ | otherArity name .. | alreadyDefined name => name
  | nothing | noPrototype _ | notAnItem _ | missingExpression | notSign _ | notBinary _
  | wrongKind .. => ""

/-- A fault in words. -/
def text : LoweringFault → String
  | undefinedName name => s!"undefined name '{name}'"
  | undefinedFunction name => s!"undefined function '{name}'"
  | wrongArity name takes given => s!"'{name}' takes {takes} arguments, {given} given"
  | reservedName name => s!"'{name}' is a reserved name"
  | repeatedParameter param function => s!"parameter '{param}' of '{function}' is declared twice"
  | otherArity name given previous =>
    s!"'{name}' redeclared with {given} parameters, previously {previous}"
  | alreadyDefined name => s!"function '{name}' is already defined"
  | nothing => "nothing to generate"
  | noPrototype kind => s!"{kind.label} has no prototype"
  | notAnItem kind => s!"{kind.label} is not a top-level item"
  | missingExpression => "missing expression"
  | notSign op => s!"'{op.spelling}' is not a prefix operator"
  | notBinary op => s!"'{op.spelling}' is not a binary operator"
  | wrongKind wanted none => s!"expected {wanted.label} node, found nothing"
  | wrongKind wanted (some found) => s!"expected {wanted.label} node, found {found.label}"

end LoweringFault

/-- A fault and the place that it is reported at. -/
structure LoweringError where
  fault : LoweringFault
  pos : Position
  deriving DecidableEq, Repr

namespace LoweringError

/-- The kind of the fault. -/
def kind (e : LoweringError) : LoweringErrorKind := e.fault.kind

/-- The name that the fault is about, if it is about one. -/
def name (e : LoweringError) : String := e.fault.name

/-- The fault in words. -/
def text (e : LoweringError) : String := e.fault.text

/-- The fault in words, with its place. -/
def message (e : LoweringError) : String := s!"{e.pos} codegen error: {e.text}"

/-- Whether the compiler is at fault and not the program. -/
def isInternal (e : LoweringError) : Bool := e.kind = .wrongNodeKind

end LoweringError

/-- The node itself if it is of the kind that is wanted. -/
def Node.narrow (n : Node) (wanted : NodeKind) : Except LoweringError Node :=
  if n.kind? = some wanted then .ok n else .error ⟨.wrongKind wanted n.kind?, n.pos⟩

end ScalarLang
