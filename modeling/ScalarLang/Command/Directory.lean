import ScalarLang.Command.Basic
/-!
# A directory in memory

A working directory that is held in memory, with the rules of paths: a path is followed name by name,
through directories only. Of the files outside, only those that every system has are known.
-/
namespace ScalarLang

/-- Files by the names on the way to them. A directory is there if a file is in it. -/
structure Directory where
  files : List (List String × List UInt8)
  deriving DecidableEq, Repr

namespace Directory

/-- Files by their paths from the directory. -/
def ofFiles (files : List (String × List UInt8)) : Directory :=
  ⟨files.map fun (path, bytes) => (path.splitOn "/", bytes)⟩

/-- What a path can lead to. -/
inductive Entry where
  | file (bytes : List UInt8)
  | directory
  deriving DecidableEq, Repr

/-- The root of all directories. -/
def root : String := "/"

/-- The name that leads out of a directory. -/
def upward : String := ".."

/-- The names of a path; the root is the first of a path that starts there. -/
def names (path : String) : List String :=
  match path.splitOn root with
  | "" :: rest => root :: rest
  | names => names

/-- A file that is always empty, whatever is written to it. -/
def nullDevice : List String := [root, "dev", "null"]

/-- The directories that every system has. -/
def systemDirectories : List (List String) := [[root], [root, "dev"], [root, "tmp"]]

/-- What is at a place. Of what is outside, only the directories on the way up and what every system
has are known. -/
def entry? (d : Directory) (place : List String) : Option Entry :=
  match d.files.lookup place with
  | some bytes => some (.file bytes)
  | none =>
    if place = nullDevice then some (.file [])
    else if place ∈ systemDirectories ∨ place.all (· = upward)
        ∨ d.files.any fun (p, _) => place.isPrefixOf p then
      some .directory
    else none

/-- The most bytes that a name can have. -/
def nameLimit : Nat := 255

/-- The most bytes that a path can have. -/
def pathLimit : Nat := 4095

/-- Looks at a place. A last name that is too long is refused before anything is looked for. -/
def look (d : Directory) (place : List String) : Except FileError Entry :=
  if place.getLast?.any (nameLimit < ·.utf8ByteSize) then .error .longName
  else match d.entry? place with
    | some e => .ok e
    | none => .error .missing

/-- The place above a place. -/
def above (place : List String) : List String :=
  if place = [root] then place
  else if place.all (· = upward) then place ++ [upward]
  else place.dropLast

/-- Goes on from a place by one name. -/
def step (d : Directory) (place : List String) (name : String) : Except FileError (List String) :=
  match d.look place with
  | .error e => .error e
  | .ok (.file _) => .error .notDirectory
  | .ok .directory =>
    if name = "" ∨ name = "." then .ok place
    else if name = upward then .ok (above place)
    else if name = root then .ok [root]
    else .ok (place ++ [name])

/-- The place that names lead to. -/
def follow (d : Directory) (names : List String) : Except FileError (List String) :=
  names.foldlM d.step []

/-- Refuses a path that nothing can have. -/
def check (path : String) : Except FileError Unit :=
  if path = "" then .error .missing
  else if pathLimit < path.utf8ByteSize then .error .longName
  else .ok ()

/-- Opens a file to read it. A directory can be opened, but not read. -/
def read (d : Directory) (path : String) : Except FileError Contents := do
  check path
  match ← d.look (← d.follow (names path)) with
  | .file bytes => pure ⟨bytes, none⟩
  | .directory => pure ⟨[], some s!"read {path}: {FileError.isDirectory.cause}"⟩

/-- Puts a file in the place of the one that is there, or adds it. -/
def put (d : Directory) (place : List String) (bytes : List UInt8) : Directory :=
  if (d.files.lookup place).isSome then
    ⟨d.files.map fun (p, old) => if p = place then (p, bytes) else (p, old)⟩
  else ⟨d.files ++ [(place, bytes)]⟩

/-- Whether a path can only be one of a directory, by its last name. -/
def endsInDirectory (path : String) : Bool :=
  match (names path).getLast? with
  | some name => name = "" || name = "." || name = upward || name = root
  | none => true

/-- Writes a file. -/
def write (d : Directory) (path : String) (bytes : List UInt8) : Except FileError Directory := do
  check path
  if endsInDirectory path then
    let _ ← d.follow ((names path).reverse.dropWhile (· = "")).reverse
    throw .isDirectory
  let place ← d.follow (names path)
  match d.look place with
  | .ok .directory => throw .isDirectory
  | .ok (.file _) | .error .missing => pure (if place = nullDevice then d else d.put place bytes)
  | .error e => throw e

/-- Whether a place is inside the directory. -/
def isInside (place : List String) : Bool :=
  match place with
  | name :: _ => name ≠ root && name ≠ upward
  | [] => true

/-- The files inside that are new or different in `after`. -/
def changes (before after : Directory) : List (String × List UInt8) :=
  (after.files.filter fun (p, bytes) => isInside p && before.files.lookup p ≠ some bytes).map
    fun (p, bytes) => (root.intercalate p, bytes)

end Directory

end ScalarLang
