import ScalarLang.Command.Directory
import ScalarLang.Command.Repl
import ScalarLang.Text.Json
/-!
# The command line

`Command.parse` tells what the arguments ask for, and `Command.run` does it in a directory that is held
in memory.
-/
namespace ScalarLang

/-! ## Tokens as a listing -/

/-- The fields of a place, by name. -/
def Position.toJson (p : Position) : Text.Json :=
  .object [("line", .number p.line), ("column", .number p.column), ("offset", .number p.offset)]

/-- The fields of a token, by name. -/
def Token.toJson (t : Token) : Text.Json :=
  .object [("type", .string t.kind.name), ("value", .string t.text), ("pos", t.pos.toJson)]

/-- A list of tokens, one field to a line. -/
def Token.listing (tokens : List Token) : String :=
  (Text.Json.list (tokens.map Token.toJson)).indented "" ++ "\n"

/-- The report on a source that cannot be listed. -/
def Tokens.report (source : String) : ScanError → String
  | .lexical e => (CompileError.lexical e).report source ++ "\n"
  | e@(.unreadable ..) => s!"{source}: {e.message}\n"

/-- The tokens of a source, up to its first error. -/
def Tokens.output (source : String) : Except FileError Contents → Output
  | .error e => .failure 1 (Output.refusal source e)
  | .ok f =>
    match (TokenStream.ofBytes f.bytes f.failure).tokens with
    | .ok tokens => .printed (Token.listing tokens)
    | .error e => .failure 1 (Tokens.report source e)

/-! ## Commands -/

/-- What the program can be asked to do. -/
inductive Command where
  | build (options : BuildOptions) (source : String)
  | tokens (source : String)
  | repl
  deriving DecidableEq, Repr

namespace Command

/-- The arguments of a build: flags, and one source behind them. -/
def parseBuild (args : List String) : Except Output Command :=
  match Flags.read .default args with
  | .error f => .error f.output
  | .ok (o, [source]) => .ok (.build o source)
  | .ok _ => .error (.misuse "")

/-- What the arguments ask for, or what is printed if that is nothing. -/
def parse : List String → Except Output Command
  | [] => .error (.misuse "")
  | "build" :: args => parseBuild args
  | ["tokens", source] => .ok (.tokens source)
  | "tokens" :: _ => .error (.misuse "")
  | "repl" :: _ => .ok .repl
  | name :: _ =>
    if name ∈ ["-h", "--help", "help"] then .error ⟨0, "", Output.usage, none⟩
    else .error (.misuse (Output.complaint ("unknown command " ++ Text.quote name)))

/-- The earlier entries, if the history can be read. -/
def historyOf : Except FileError Contents → History
  | .ok f => .ofBytes f.bytes
  | .error _ => ⟨[]⟩

/-- What a command leaves behind before its file is written. -/
def output (d : Directory) (stdin : List UInt8) : Command → Output
  | build o source => Build.output o source (d.read source)
  | tokens source => Tokens.output source (d.read source)
  | repl =>
    (Repl.start (historyOf (d.read Repl.historyFile))).run
      ((Text.Line.split stdin).map Text.Line.bytes)

/-- What becomes of an output whose file cannot be written: a build says so, and a session goes
without its history. -/
def unwritten (c : Command) (o : Output) (path : String) (e : FileError) : Output :=
  match c with
  | repl => { o with file? := none }
  | build .. | tokens _ => Build.unwritten o path e

/-- A whole run: what it leaves, and the directory with the file that it has written. -/
def run (args : List String) (d : Directory) (stdin : List UInt8) : Output × Directory :=
  match parse args with
  | .error o => (o, d)
  | .ok c =>
    let o := c.output d stdin
    match o.file? with
    | none => (o, d)
    | some (path, bytes) =>
      match d.write path bytes with
      | .ok d => (o, d)
      | .error e => (c.unwritten o path e, d)

end Command

end ScalarLang
