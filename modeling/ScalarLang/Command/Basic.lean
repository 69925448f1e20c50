import ScalarLang.Text.Quoted
/-!
# What a run leaves behind

A run of the program leaves an exit code, two texts, and at most one file.
-/
namespace ScalarLang

/-- Why a file cannot be opened. -/
inductive FileError where
  | missing
  | notDirectory
  | isDirectory
  | longName
  | other (cause : String)
  deriving DecidableEq, Repr

/-- The cause in the words of the system. -/
def FileError.cause : FileError → String
  | missing => "no such file or directory"
  | notDirectory => "not a directory"
  | isDirectory => "is a directory"
  | longName => "file name too long"
  | other cause => cause

/-- What can be read of an open file, and why reading stops before the end. -/
structure Contents where
  bytes : List UInt8
  failure : Option String
  deriving DecidableEq, Repr

/-- What a run leaves behind. -/
structure Output where
  exit : Nat
  stdout : String
  stderr : String
  /-- A file to be written, by its path. -/
  file? : Option (String × List UInt8)
  deriving DecidableEq, Repr

namespace Output

/-- The name that messages start with. -/
def program : String := "kaleido"

/-- A message of the program on a line of its own. -/
def complaint (message : String) : String := s!"{program}: {message}\n"

/-- The message for a file that cannot be opened. -/
def refusal (path : String) (e : FileError) : String := complaint s!"open {path}: {e.cause}"

/-- A run that succeeds and prints. -/
def printed (stdout : String) : Output := ⟨0, stdout, "", none⟩

/-- A run that fails with a message. -/
def failure (exit : Nat) (stderr : String) : Output := ⟨exit, "", stderr, none⟩

/-- How the program is called. -/
def usage : String :=
  s!"usage:\n  {program} build [-o out.ll] [-keep-going] [-v] file\n" ++
    s!"  {program} tokens file\n  {program} repl\n"

/-- A command line that the program does not understand. -/
def misuse (message : String) : Output := failure 2 (message ++ usage)

end Output

end ScalarLang
