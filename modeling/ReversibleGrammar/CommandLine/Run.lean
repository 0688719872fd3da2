/-
The command line: commands, and what they do with the files they name.

* `Command.read?` — the command that a word names;
* `CommandLine.run` — a whole run, from arguments and files to the streams, the files and the
  exit status.
-/
import ReversibleGrammar.CommandLine.Session

namespace ReversibleGrammar

/-- The commands. -/
inductive Command where
  /-- Shows files. -/
  | view (how : View)
  /-- Prints files anew. -/
  | format
  | languages
  | help
  | version
  deriving DecidableEq, Repr, Inhabited

/-- The command that a word names. -/
def Command.read? : String → Option Command
  | "lex" => some (.view .tokens)
  | "parse" => some (.view .outline)
  | "shape" => some (.view .shape)
  | "fmt" => some .format
  | "languages" => some .languages
  | "help" | "--help" | "-h" => some .help
  | "version" | "--version" | "-V" => some .version
  | _ => none

/-- How the command line is used. -/
def usage : String :=
  endLines
    ["Gram: reversible grammars",
     "",
     "Usage: gram <command> [files...] [options]",
     "",
     "Commands:",
     "  lex <file>           Tokenize and print tokens as JSON lines",
     "  parse <file>         Parse and print the tree outline",
     "  shape <file>         Parse and print the extracted shape as JSON",
     "  fmt <files...>       Reprint files through their grammar",
     "  languages            List the bundled languages",
     "  help                 Show this help message",
     "  version              Show version information",
     "",
     "Options:",
     "  --lang=<name>        Language, instead of choosing by extension",
     "  --rule=<name>        Rule to parse with (default: the language entry)",
     "  --width=<n>          Maximum line width for fmt",
     "  --indent=<n>         Spaces per indentation level for fmt",
     "  --tabs               Indent with tabs",
     "  --check              Report files fmt would change, without writing",
     "",
     "Environment:",
     "  RUST_LOG             Log filter (default: warn)",
     "  GRAM_LOG_TREE        Log as an indented call tree"]

/-- The name and the version of the program. -/
def versionLine : String := "gram 0.1.0-alpha.8\n"

/-- The name of a language in eight columns, and the extensions of its files. -/
def Language.listing (l : Language) : String :=
  let padding := String.ofList (List.replicate (8 - l.name.length) ' ')
  l.name ++ padding ++ " " ++ ", ".intercalate l.extensions ++ "\n"

/-- Carries a command out, which the word `word` named; tells whether it succeeded. -/
def Command.run (command : Command) (word : String) (o : Options) (s : Session) :
    Bool × Session :=
  match command with
  | .view how =>
    if o.files.isEmpty then
      (false, s.complain ("Usage: gram " ++ word ++ " <file> [options]\n"))
    else s.showFiles how o o.files
  | .format =>
    if o.files.isEmpty then (false, s.complain (Session.complaint "no files to format"))
    else s.formatFiles o
  | .languages => (true, s.put (String.join (Language.bundled.map (·.listing))))
  | .help => (true, s.put usage)
  | .version => (true, s.put versionLine)

namespace CommandLine

/-- How a run ended. -/
structure Outcome where
  /-- The exit status: zero for success. -/
  exit : Nat
  output : String
  errors : String
  files : Files
  deriving Inhabited

/-- The end of a session that succeeded or not. -/
def Outcome.ofSession : Bool × Session → Outcome
  | (ok, s) => ⟨if ok then 0 else 1, s.output, s.errors, s.files⟩

/-- The session of the arguments, and whether it succeeds.  The options are read before the
command. -/
def runSession (arguments : List String) (s : Session) : Bool × Session :=
  match arguments with
  | [] => (true, s.put usage)
  | word :: arguments =>
    match Options.read arguments with
    | .error e =>
      (false, s.complain (Session.complaint e.message ++ "Run 'gram help' for usage\n"))
    | .ok o =>
      match Command.read? word with
      | some command => command.run word o s
      | none => (false, (s.complain ("Unknown command: " ++ word ++ "\n\n")).put usage)

/-- A run on files. -/
def run (arguments : List String) (files : Files) : Outcome :=
  .ofSession (runSession arguments { files })

end CommandLine

end ReversibleGrammar
