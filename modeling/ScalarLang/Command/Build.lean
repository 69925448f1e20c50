import ScalarLang.Command.Flags
import ScalarLang.Compilation
/-!
# Building a source

A source is compiled, and its module is printed or goes to a file if nothing is wrong.
-/
namespace ScalarLang.Build

/-- An event as a line; one that ends with a line feed already gets no other. -/
def logLine (e : Event) : String :=
  let line := s!"{Output.program}: {e.message}"
  if line.endsWith "\n" then line else line ++ "\n"

/-- The events of a compilation, if they are asked for. -/
def log (o : BuildOptions) (c : Compilation) : String :=
  if o.verbose then String.join (c.events.map logLine) else ""

/-- The errors of a source, one to a line. -/
def reports (source : String) (errors : List CompileError) : String :=
  String.join (errors.map fun e => e.report source ++ "\n")

/-- What a build leaves once its source was compiled: code, errors, or the reason why there are neither.
-/
def compiled (o : BuildOptions) (source : String) (c : Compilation) : Output :=
  match c.interruption? with
  | some i => .failure 1 (log o c ++ Output.complaint i.message)
  | none =>
    if c.failed then .failure 1 (log o c ++ reports source c.errors)
    else
      let code := c.generator.module.text
      if o.output = "" then ⟨0, code, log o c, none⟩
      else ⟨0, "", log o c, some (o.output, code.toUTF8.toList)⟩

/-- What a build leaves before its file is written. -/
def output (o : BuildOptions) (source : String) : Except FileError Contents → Output
  | .error e => .failure 1 (Output.refusal source e)
  | .ok f => compiled o source (.ofSource o.keepGoing source f.bytes f.failure)

/-- What is left of a build whose file cannot be written. -/
def unwritten (o : Output) (path : String) (e : FileError) : Output :=
  { o with exit := 1, stderr := o.stderr ++ Output.refusal path e, file? := none }

end ScalarLang.Build
