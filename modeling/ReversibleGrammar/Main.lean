/-
The command line as a program: reads the files that the arguments name, runs, and
writes the streams and the files that changed.
-/
import ReversibleGrammar.CommandLine.Run

namespace ReversibleGrammar

/-- The paths that a path passes through, the path itself last. -/
def pathsAlong (path : String) : List String :=
  let components := Path.components path
  (List.range components.length).map fun n => Path.ofPlace (components.take (n + 1))

/-- What is at a path. -/
def entryAt (path : String) : IO (Option FileEntry) := do
  try
    pure (some (.file (← IO.FS.readBinFile path)))
  catch
    | .permissionDenied .. => pure (some .sealed)
    | .inappropriateType _ 21 _ => pure (some .directory)
    | _ => pure none

/-- The files with what is on the way to a path. -/
def gather (files : Files) (path : String) : IO Files :=
  (pathsAlong path).foldlM
    (fun files path => do
      let place := (Path.components path).foldl Path.follow []
      match ← entryAt path with
      | some entry => pure (files.put place entry)
      | none => pure files)
    files

end ReversibleGrammar

open ReversibleGrammar in
/-- Runs on the files that the arguments name. -/
def main (arguments : List String) : IO UInt32 := do
  let paths := match Options.read (arguments.drop 1) with
    | .ok options => options.files
    | .error _ => []
  let files ← paths.foldlM gather Files.empty
  let outcome := CommandLine.run arguments files
  IO.print outcome.output
  IO.eprint outcome.errors
  for (path, bytes) in files.changes outcome.files do
    IO.FS.writeBinFile path bytes
  pure outcome.exit.toUInt32
