import ScalarLang.Lowering.Generator
import ScalarLang.Tree.Recovery
/-!
# From source text to code

The items of a source are read and lowered one after another; what is wrong with one of them is reported,
and compilation stops there or goes on with the next. A session compiles fragments into one module, so
that a fragment can call what an earlier one defined.
-/
namespace ScalarLang

/-- What is wrong with a program. -/
inductive CompileError where
  | lexical (error : LexError)
  | grammar (error : ParseError)
  | lowering (error : LoweringError)
  deriving DecidableEq, Repr

namespace CompileError

/-- Where an error is reported. -/
def pos : CompileError → Position
  | lexical e => e.pos
  | grammar e => e.pos
  | lowering e => e.pos

/-- Whether the compiler is at fault and not the program. -/
def isInternal : CompileError → Bool
  | lowering e => e.isInternal
  | lexical _ | grammar _ => false

/-- The kind of an error, as reports to the user name it. -/
def kindText : CompileError → String
  | lexical e => e.kind.name
  | grammar e => e.kind.name
  | lowering e => if e.isInternal then "internal compiler error" else e.kind.name

/-- What is wrong, in words. -/
def text : CompileError → String
  | lexical e => e.text
  | grammar e => e.text
  | lowering e => e.text

/-- An error with the source that it is in. -/
def report (source : String) (e : CompileError) : String :=
  s!"{source}:{e.pos}: {e.kindText}: {e.text}"

end CompileError

/-- Why the rest of a source was not read. -/
inductive Interruption where
  | unreadable (pos : Position) (cause : String)
  /-- The lookahead had no room. -/
  | overfull
  deriving DecidableEq, Repr

/-- The reason in words. -/
def Interruption.message : Interruption → String
  | unreadable pos cause => (ScanError.unreadable pos cause).message
  | overfull => "lookahead is full"

/-- What a failure to read an item is: the program is wrong, or reading cannot go on. -/
def Failure.diagnose : Failure ScanError → Except Interruption CompileError
  | stream (.lexical e) => .ok (.lexical e)
  | stream (.unreadable pos cause) => .error (.unreadable pos cause)
  | grammar e => .ok (.grammar e)
  | overfull => .error .overfull

/-- What compiling a source gives. -/
structure Compilation where
  /-- The functions that were declared or defined, in order. -/
  symbols : List IR.Symbol
  errors : List CompileError
  interruption? : Option Interruption
  events : List Event
  generator : Generator

namespace Compilation

/-- Nothing is compiled. -/
def stop (g : Generator) : Compilation := ⟨[], [], none, [], g⟩

/-- Whether a program is wrong. -/
def failed (c : Compilation) : Bool := !c.errors.isEmpty

/-- Compiles the items of a source. An error ends the compilation unless it is to keep going, and
an internal error always ends it. -/
def ofResults (keepGoing : Bool) (g : Generator) :
    List (Except (Failure ScanError) Item) → Compilation
  | [] => stop g
  | .error f :: rest =>
    match f.diagnose with
    | .error i => { stop g with interruption? := some i }
    | .ok e =>
      let c := if keepGoing then ofResults keepGoing g rest else stop g
      { c with errors := e :: c.errors }
  | .ok i :: rest =>
    let step := g.item i
    match step.result with
    | .ok symbol =>
      let c := ofResults keepGoing step.generator rest
      { c with symbols := symbol :: c.symbols, events := i.event :: step.events ++ c.events }
    | .error e =>
      let c :=
        if keepGoing && !e.isInternal then ofResults keepGoing step.generator rest
        else stop step.generator
      { c with errors := .lowering e :: c.errors, events := i.event :: step.events ++ c.events }

/-- Compiles the items of a token stream. -/
def ofStream (keepGoing : Bool) (g : Generator) (stream : TokenStream ScanError) : Compilation :=
  ofResults keepGoing g (Parse.results (.ofStream stream))

/-- Compiles a whole source, which cannot be read past its bytes if there is a failure. -/
def ofSource (keepGoing : Bool) (name : String) (bytes : List UInt8) (failure : Option String) :
    Compilation :=
  let c := ofStream keepGoing .initial (.ofBytes bytes failure)
  let last := if c.interruption?.isSome then [] else [Event.compiled name c.errors.length]
  { c with events := .compiling name :: c.events ++ last }

/-- The texts of the functions that were declared or defined, as they are in the end. -/
def texts (c : Compilation) : List String :=
  c.symbols.filterMap fun s => (c.generator.module.find? s).map IR.Function.text

end Compilation

/-- Fragments compiled one after another into one module. -/
structure Session where
  generator : Generator

namespace Session

/-- No fragment was compiled yet. -/
def initial : Session := ⟨.initial⟩

/-- Compiles a fragment and keeps going after errors. -/
def eval (s : Session) (fragment : List UInt8) : Compilation × Session :=
  let c := Compilation.ofStream true s.generator (.ofBytes fragment none)
  (c, ⟨c.generator⟩)

end Session

end ScalarLang
