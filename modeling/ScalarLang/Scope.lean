/-!
# Names in scope

A scope is a stack of frames, and a name has the value of the innermost frame that binds it. There is
always an outermost frame.
-/
namespace ScalarLang

/-- The bindings of one block, the newest first. -/
abbrev Frame (α : Type) := List (String × α)

/-- A stack of frames, which is never empty. -/
structure Scope (α : Type) where
  innermost : Frame α
  enclosing : List (Frame α)
  deriving DecidableEq, Repr

namespace Scope

variable {α : Type}

/-- The outermost frame alone, without names. -/
def empty : Scope α := ⟨[], []⟩

/-- Opens a frame. -/
def push (s : Scope α) : Scope α := ⟨[], s.innermost :: s.enclosing⟩

/-- Drops the innermost frame, unless it is the outermost one too. -/
def pop (s : Scope α) : Scope α :=
  match s.enclosing with
  | [] => s
  | f :: fs => ⟨f, fs⟩

/-- Binds a name in the innermost frame. -/
def set (s : Scope α) (id : String) (value : α) : Scope α :=
  { s with innermost := (id, value) :: s.innermost }

/-- The value of a name in the innermost frame that binds it. -/
def get? (s : Scope α) (id : String) : Option α :=
  (s.innermost :: s.enclosing).findSome? (·.lookup id)

/-- Whether the innermost frame binds a name. -/
def declares (s : Scope α) (id : String) : Bool := (s.innermost.lookup id).isSome

theorem pop_push (s : Scope α) : s.push.pop = s := rfl

theorem pop_set_push (s : Scope α) (id : String) (value : α) : (s.push.set id value).pop = s := rfl

end Scope

end ScalarLang
