/-
Files as the command line sees them.

A place is a file with its bytes, a file that may not be read, or a directory; the
working directory, the directories above it and the root are there in any case.
Paths that lead to one place are one file.

* `Files.read` — the text of a file, or why it has none;
* `Files.write` — the files after one was written;
* `Files.changes` — the files that differ from how they were.
-/
import ReversibleGrammar.CommandLine.Path

namespace ReversibleGrammar

/-- What is at a place. -/
inductive FileEntry where
  | file (bytes : ByteArray)
  /-- A file that may not be read. -/
  | sealed
  | directory
  deriving Inhabited

/-- Why a file has no text. -/
inductive FileError where
  | missing
  | sealed
  /-- Its bytes are no text. -/
  | notText
  | isDirectory
  /-- Its path leads through a file. -/
  | notDirectory
  deriving DecidableEq, Repr, Inhabited

/-- The message of an error at a path. -/
def FileError.message (path : String) : FileError → String
  | missing => "cannot find file '" ++ path ++ "'"
  | sealed => "permission denied reading '" ++ path ++ "'"
  | notText => "'" ++ path ++ "' contains invalid UTF-8 data"
  | isDirectory => "error reading '" ++ path ++ "': Is a directory (os error 21)"
  | notDirectory => "error reading '" ++ path ++ "': Not a directory (os error 20)"

/-- Places and what is at them. -/
structure Files where
  entries : List (List String × FileEntry)
  deriving Inhabited

namespace Files

/-- No files. -/
def empty : Files := ⟨[]⟩

/-- What is at a place. -/
def entry? (files : Files) (place : List String) : Option FileEntry :=
  if place.all (· == Path.above) ∨ place = [Path.root] then some .directory
  else (files.entries.find? (·.1 == place)).map (·.2)

/-- The files with an entry at a place, instead of the one that was there. -/
def put (files : Files) (place : List String) (entry : FileEntry) : Files :=
  if files.entries.any (·.1 == place) then
    ⟨files.entries.map fun e => if e.1 == place then (place, entry) else e⟩
  else ⟨files.entries ++ [(place, entry)]⟩

/-- The files with a file at a path, and the directories on the way to it. -/
def add (files : Files) (path : String) (bytes : ByteArray) : Files :=
  let places := Path.placesFrom [] (Path.components path)
  let files := places.dropLast.foldl (fun files place => files.put place .directory) files
  files.put (places.getLast?.getD []) (.file bytes)

/-- The place that the components lead to from a place; all places on the way are directories. -/
def resolve (files : Files) (place : List String) : List String → Except FileError (List String)
  | [] => .ok place
  | component :: rest =>
    match files.entry? place with
    | some .directory => files.resolve (Path.follow place component) rest
    | some _ => .error .notDirectory
    | none => .error .missing

/-- The place of a path. -/
def place (files : Files) (path : String) : Except FileError (List String) :=
  if path.isEmpty then .error .missing else files.resolve [] (Path.components path)

/-- The text of an entry. -/
def textOf : Option FileEntry → Except FileError String
  | none => .error .missing
  | some .directory => .error .isDirectory
  | some .sealed => .error .sealed
  | some (.file bytes) =>
    match String.fromUTF8? bytes with
    | some text => .ok text
    | none => .error .notText

/-- The text of the file at a path. -/
def read (files : Files) (path : String) : Except FileError String := do
  textOf (files.entry? (← files.place path))

/-- The files with a text at a path. -/
def write (files : Files) (path text : String) : Files :=
  match files.place path with
  | .ok place => files.put place (.file text.toUTF8)
  | .error _ => files

/-- The files that are not as they were, by path. -/
def changes (before after : Files) : List (String × ByteArray) :=
  after.entries.filterMap fun e =>
    match e.2, before.entry? e.1 with
    | .file bytes, some (.file old) =>
      if bytes.data == old.data then none else some (Path.ofPlace e.1, bytes)
    | .file bytes, _ => some (Path.ofPlace e.1, bytes)
    | _, _ => none

end Files

end ReversibleGrammar
