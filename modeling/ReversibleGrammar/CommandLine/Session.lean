/-
A run of the command line: the files, and what was written to the two streams.

A document ends before the trailing white space of its file.  Commands go on after
a file that failed and tell in the end whether none did.

* `Session.load` — the document and the language of a file;
* `Session.showFiles`, `Session.formatFiles` — the commands on files.
-/
import ReversibleGrammar.CommandLine.Files
import ReversibleGrammar.CommandLine.Options
import ReversibleGrammar.CommandLine.View
import ReversibleGrammar.Text.Blank

namespace ReversibleGrammar

/-- The text of a file and its language. -/
structure Document where
  path : String
  text : String
  language : Language

/-- What is parsed: the text without its trailing white space. -/
def Document.source (d : Document) : String := Text.trimEnd d.text

/-- An answer about a document, with the text of its report if it is none. -/
def Document.explain (d : Document) (answer : Except Report α) : Except String α :=
  answer.mapError (·.write d.path d.source)

/-- The files and the streams. -/
structure Session where
  files : Files
  output : String := ""
  errors : String := ""
  deriving Inhabited

/-- What became of a file to be formatted. -/
inductive FormatResult where
  | unchanged
  | formatted
  /-- It differs from its formatted text, and is left as it is. -/
  | wouldFormat
  | failed
  deriving DecidableEq, Repr, Inhabited

namespace Session

/-- Writes to the output. -/
def put (text : String) (s : Session) : Session := { s with output := s.output ++ text }

/-- Writes to the errors. -/
def complain (text : String) (s : Session) : Session := { s with errors := s.errors ++ text }

/-- A message of the command line itself. -/
def complaint (message : String) : String := "error: " ++ message ++ "\n"

/-- The document in the file at a path, or what to complain. -/
def load (o : Options) (files : Files) (path : String) : Except String Document := do
  let text ← (files.read path).mapError fun e => complaint (e.message path)
  let language ← (o.languageFor path).mapError fun e => complaint e.message
  pure ⟨path, text, language⟩

/-- Shows the file at a path; tells whether it could. -/
def showFile (view : View) (o : Options) (path : String) (s : Session) : Bool × Session :=
  let shown := do
    let d ← load o s.files path
    d.explain (view.display d.language (o.ruleFor d.language) d.source)
  match shown with
  | .ok text => (true, s.put text)
  | .error message => (false, s.complain message)

/-- Shows the files at the paths; tells whether it could show all. -/
def showFiles (view : View) (o : Options) (paths : List String) (s : Session) : Bool × Session :=
  paths.foldl
    (fun (ok, s) path =>
      let (shown, s) := showFile view o path s
      (ok && shown, s))
    (true, s)

/-- Formats the file at a path, or leaves it as it is if that is asked for. -/
def formatFile (o : Options) (path : String) (s : Session) : FormatResult × Session :=
  let printed := do
    let d ← load o s.files path
    pure (d.text, ← d.explain (d.language.reprint (o.ruleFor d.language) d.source))
  match printed with
  | .error message => (.failed, s.complain message)
  | .ok (text, printed) =>
    if printed = text then (.unchanged, s)
    else if o.check then (.wouldFormat, s.put ("Would format: " ++ path ++ "\n"))
    else
      (.formatted,
        { s with files := s.files.write path printed }.put ("Formatted: " ++ path ++ "\n"))

/-- Formats the files at the paths; tells what became of each. -/
def formatEach (o : Options) (paths : List String) (s : Session) : List FormatResult × Session :=
  match paths with
  | [] => ([], s)
  | path :: paths =>
    let (result, s) := formatFile o path s
    let (results, s) := formatEach o paths s
    (result :: results, s)

/-- The counts of formatted and unchanged files. -/
def summary (o : Options) (changed unchanged : Nat) : String :=
  "\n" ++ toString changed ++ (if o.check then " would format, " else " formatted, ") ++
    toString unchanged ++ " unchanged\n"

/-- Formats all files and counts them if they are several; fails if one of them does, or if one
would change and is left as it is. -/
def formatFiles (o : Options) (s : Session) : Bool × Session :=
  let (results, s) := formatEach o o.files s
  let changed := results.countP fun r => r == .formatted || r == .wouldFormat
  let s := if 1 < o.files.length then s.put (summary o changed (results.count .unchanged)) else s
  (!results.contains .failed && !results.contains .wouldFormat, s)

end Session

end ReversibleGrammar
