import ScalarLang.Command.Run
/-!
# The program

It reads what a command needs, prints what it gives, and writes its file.
-/
namespace ScalarLang.Main

/-- The causes that are told apart by the number of the error. -/
def fileError : IO.Error → FileError
  | .noFileOrDirectory .. => .missing
  | .inappropriateType _ 20 _ => .notDirectory
  | .inappropriateType _ 21 _ => .isDirectory
  | .invalidArgument _ 36 _ => .longName
  | e => .other (toString e)

/-- A file that can be opened, with what can be read of it. -/
def readFile (path : String) : IO (Except FileError Contents) := do
  match ← (IO.FS.Handle.mk path .read).toBaseIO with
  | .error e => pure (.error (fileError e))
  | .ok h =>
    match ← h.readBinToEnd.toBaseIO with
    | .ok bytes => pure (.ok ⟨bytes.toList, none⟩)
    | .error e => pure (.ok ⟨[], some s!"read {path}: {(fileError e).cause}"⟩)

/-- Writes a file, or says why it cannot be written. -/
def writeFile (path : String) (bytes : List UInt8) : IO (Option FileError) := do
  match ← (IO.FS.writeBinFile path (ByteArray.mk bytes.toArray)).toBaseIO with
  | .ok _ => pure none
  | .error e => pure (some (fileError e))

/-- Prints what an output has for the two streams. -/
def put (o : Output) : IO Unit := do
  (← IO.getStdout).putStr o.stdout
  (← IO.getStdout).flush
  (← IO.getStderr).putStr o.stderr

/-- Prints an output after its file was written. -/
def finish (c : Command) (o : Output) : IO UInt32 := do
  let o ← match o.file? with
    | none => pure o
    | some (path, bytes) =>
      match ← writeFile path bytes with
      | none => pure o
      | some e => pure (c.unwritten o path e)
  put o
  pure o.exit.toUInt32

/-- The next line of the input, after the bytes that were read already. -/
partial def nextLine (input : IO.FS.Stream) (ahead : List UInt8) :
    IO (Option (List UInt8 × List UInt8)) := do
  if ahead.length < Text.Line.capacity && !ahead.contains Text.Line.lineFeed then
    let more ← input.read (Text.Line.capacity - ahead.length).toUSize
    if !more.isEmpty then
      return ← nextLine input (ahead ++ more.toList)
  pure ((Text.Line.next? ahead).map fun (line, rest) => (line.bytes, rest))

/-- Prompts for lines until the input ends. -/
partial def converse (input : IO.FS.Stream) (ahead : List UInt8) (r : Repl) : IO Repl := do
  put (.printed r.prompt)
  match ← nextLine input ahead with
  | none =>
    put (.printed Repl.farewell)
    pure r
  | some (line, rest) =>
    let (o, next) := r.enter line
    put o
    converse input rest next

/-- The history is in the home directory. -/
def historyPath : IO String := do
  match ← IO.getEnv "HOME" with
  | some home => pure (if home = "" then Repl.historyFile else s!"{home}/{Repl.historyFile}")
  | none => pure Repl.historyFile

/-- Does what a command asks for. -/
def run (c : Command) : IO UInt32 := do
  match c with
  | .build o source => finish c (Build.output o source (← readFile source))
  | .tokens source => finish c (Tokens.output source (← readFile source))
  | .repl =>
    let path ← historyPath
    let r ← converse (← IO.getStdin) [] (.start (Command.historyOf (← readFile path)))
    finish c ⟨0, "", "", some (path, r.history.toBytes)⟩

end ScalarLang.Main

/-- Understands the arguments and runs the command. -/
def main (args : List String) : IO UInt32 := do
  match ScalarLang.Command.parse args with
  | .error o =>
    ScalarLang.Main.put o
    pure o.exit.toUInt32
  | .ok c => ScalarLang.Main.run c
