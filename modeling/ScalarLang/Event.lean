import ScalarLang.Tree.Basic
/-!
# Events of a compilation

What a compilation reports of its progress.
-/
namespace ScalarLang

/-- One step of a compilation. -/
inductive Event where
  | compiling (source : String)
  | compiled (source : String) (errors : Nat)
  | readExternal (name : String)
  | readFunction (name : String)
  | readExpression (pos : Position)
  | declared (name : String) (arity : Nat)
  | defined (name : String)
  deriving DecidableEq, Repr

/-- An event in words. -/
def Event.message : Event → String
  | compiling source => s!"compiling {source}"
  | compiled source errors => s!"compiled {source} with {errors} error(s)"
  | readExternal name => s!"parsed extern {name}"
  | readFunction name => s!"parsed function {name}"
  | readExpression pos => s!"parsed top-level expression at {pos}"
  | declared name arity => s!"declared {name}/{arity}"
  | defined name => s!"defined {name}"

/-- What is reported when an item has been read. -/
def Item.event : Item → Event
  | external p _ => .readExternal p.name
  | define p .. => .readFunction p.name
  | evaluate _ pos => .readExpression pos

end ScalarLang
