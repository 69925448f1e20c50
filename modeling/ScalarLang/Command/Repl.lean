import ScalarLang.Command.Build
import ScalarLang.Command.History
/-!
# The interactive session

Lines are gathered until they are more than the start of a program, and then compiled together.
-/
namespace ScalarLang

/-- The state of an interactive session. -/
structure Repl where
  session : Session
  /-- The lines that are waiting for more. -/
  pending : List UInt8
  history : History

namespace Repl

/-- Where the history is kept. -/
def historyFile : String := ".kaleido_history"

/-- The name of the source in reports. -/
def sourceName : String := "<stdin>"

/-- A session that has had no line yet. -/
def start (history : History) : Repl := ⟨.initial, [], history⟩

/-- What asks for the next line. -/
def prompt (r : Repl) : String := if r.pending.isEmpty then "ready> " else "...... "

/-- Whether a text is wrong only because it ends too early. -/
def isUnfinished (text : List UInt8) : Bool :=
  match Parse.program (.ofStream (.ofBytes text none)) with
  | .error (.grammar e) => e.kind = .unexpectedEnd
  | _ => false

/-- Whether a text is white space all over. -/
def isBlank (text : List UInt8) : Bool := (Glyph.decode text).all (Text.isBlank ·.char)

/-- A text in one line. -/
def oneLine (text : List UInt8) : List UInt8 :=
  text.map fun b => if b = Text.Line.lineFeed then ' '.toUInt8 else b

/-- Compiles a text and prints its functions and errors. -/
def eval (r : Repl) (text : List UInt8) : Output × Repl :=
  let (c, session) := r.session.eval text
  (⟨0, String.join (c.texts.map (· ++ "\n")), Build.reports sourceName c.errors, none⟩,
    ⟨session, [], r.history.add (oneLine text)⟩)

/-- Takes in a line. -/
def enter (r : Repl) (line : List UInt8) : Output × Repl :=
  let text := if r.pending.isEmpty then line else r.pending ++ Text.Line.lineFeed :: line
  if isUnfinished text then (.printed "", { r with pending := text })
  else if isBlank text then (.printed "", { r with pending := [] })
  else r.eval text

/-- What is printed at the end of the input. -/
def farewell : String := "\n"

/-- The whole session: a prompt before each line, and the history as a file at the end. -/
def run (r : Repl) : List (List UInt8) → Output
  | [] => ⟨0, r.prompt ++ farewell, "", some (historyFile, r.history.toBytes)⟩
  | line :: lines =>
    let (o, next) := r.enter line
    let rest := next.run lines
    { rest with stdout := r.prompt ++ o.stdout ++ rest.stdout, stderr := o.stderr ++ rest.stderr }

end Repl

end ScalarLang
