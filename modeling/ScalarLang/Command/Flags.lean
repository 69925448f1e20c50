import ScalarLang.Command.Basic
/-!
# The flags of a build

A flag starts with one or two hyphens, and its value stands after an equals sign or, for a text, in the
next argument. Flags end at the first argument that is none, or after two hyphens alone; of two values
for one flag the last counts.
-/
namespace ScalarLang

/-- What the flags of a build say. -/
structure BuildOptions where
  /-- The file that the code is written to, or nothing. -/
  output : String
  keepGoing : Bool
  verbose : Bool
  deriving DecidableEq, Repr

namespace Flags

/-- The flags of a build, as they are explained. -/
def usage : String :=
  "Usage of build:\n" ++
  "  -keep-going\n    \treport every error instead of stopping at the first\n" ++
  "  -o string\n    \twrite the IR to this file instead of stdout\n" ++
  "  -v\tlog compiler events to stderr\n"

/-- Why flags cannot be read. -/
inductive Fault where
  | malformed (argument : String)
  | unknown (name : String)
  | noValue (name : String)
  | notBoolean (name value : String)
  /-- How to call the program was asked for. -/
  | help
  deriving DecidableEq, Repr

/-- A fault in words. For help there is no more than the explanation of the flags. -/
def Fault.message : Fault → String
  | malformed argument => s!"bad flag syntax: {argument}\n"
  | unknown name => s!"flag provided but not defined: -{name}\n"
  | noValue name => s!"flag needs an argument: -{name}\n"
  | notBoolean name value => s!"invalid boolean value {Text.quote value} for -{name}: parse error\n"
  | help => ""

/-- What is printed in place of a build. -/
def Fault.output (f : Fault) : Output := .failure 2 (f.message ++ usage)

/-- An argument as it stands among flags. -/
inductive Argument where
  | plain
  | terminator
  | malformed
  | flag (name : String) (value? : Option String)
  deriving DecidableEq, Repr

/-- A name and the value after the first equals sign, which is not looked for at the front. -/
def splitValue (body : List Char) : String × Option String :=
  match body with
  | [] => ("", none)
  | c :: cs =>
    let name := String.ofList (c :: cs.takeWhile (· ≠ '='))
    match cs.dropWhile (· ≠ '=') with
    | _ :: value => (name, some (String.ofList value))
    | [] => (name, none)

/-- What follows the hyphens is a flag, unless it is empty or starts with a hyphen or an equals sign. -/
def Argument.ofBody (body : List Char) : Argument :=
  match body with
  | [] | '-' :: _ | '=' :: _ => .malformed
  | body => let (name, value?) := splitValue body; .flag name value?

/-- How an argument is understood. -/
def Argument.of (argument : String) : Argument :=
  match argument.toList with
  | ['-', '-'] => .terminator
  | '-' :: '-' :: body => .ofBody body
  | '-' :: c :: body => .ofBody (c :: body)
  | _ => .plain

/-- The texts that stand for on and off. -/
def boolean? (value : String) : Option Bool :=
  if value ∈ ["1", "t", "T", "true", "TRUE", "True"] then some true
  else if value ∈ ["0", "f", "F", "false", "FALSE", "False"] then some false
  else none

/-- Sets a flag that is either on or off; without a value it is on. -/
def switch (name : String) (value? : Option String) : Except Fault Bool :=
  match value? with
  | none => .ok true
  | some value =>
    match boolean? value with
    | some b => .ok b
    | none => .error (.notBoolean name value)

/-- The options that flags set, and the arguments after them. -/
def read (o : BuildOptions) : List String → Except Fault (BuildOptions × List String)
  | [] => .ok (o, [])
  | argument :: rest =>
    match Argument.of argument with
    | .plain => .ok (o, argument :: rest)
    | .terminator => .ok (o, rest)
    | .malformed => .error (.malformed argument)
    | .flag "o" (some value) => read { o with output := value } rest
    | .flag "o" none =>
      match rest with
      | [] => .error (.noValue "o")
      | value :: rest => read { o with output := value } rest
    | .flag "keep-going" value? => do
      let b ← switch "keep-going" value?
      read { o with keepGoing := b } rest
    | .flag "v" value? => do
      let b ← switch "v" value?
      read { o with verbose := b } rest
    | .flag name _ => if name = "h" ∨ name = "help" then .error .help else .error (.unknown name)

end Flags

/-- The options without any flag. -/
def BuildOptions.default : BuildOptions := ⟨"", false, false⟩

end ScalarLang
