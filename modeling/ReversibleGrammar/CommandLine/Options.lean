/-
The options of the command line.

* `Argument.read` — what one argument says;
* `Options.read` — the options that arguments say together, a later one over an
  earlier one;
* `Options.languageFor`, `Options.ruleFor` — the language and the rule for a path.
-/
import ReversibleGrammar.CommandLine.Path
import ReversibleGrammar.Language.Bundled
import ReversibleGrammar.Text.Numeral

namespace ReversibleGrammar

/-- What an argument says. -/
inductive Argument where
  | rule (name : String)
  | language (name : String)
  | width (columns : Nat)
  | indent (columns : Nat)
  | tabs
  | check
  | file (path : String)
  deriving DecidableEq, Repr, Inhabited

/-- Why an argument says nothing. -/
inductive ArgumentError where
  | unknownOption (argument : String)
  | noNumber (option value : String)
  deriving DecidableEq, Repr, Inhabited

/-- The message of an error. -/
def ArgumentError.message : ArgumentError → String
  | unknownOption argument => "unknown option '" ++ argument ++ "'"
  | noNumber option value => option ++ " expects a number, got '" ++ value ++ "'"

namespace Argument

/-- What follows an option and an equals sign. -/
def valueOf? (option argument : String) : Option String :=
  ((option ++ "=").toList.isPrefixOf? argument.toList).map String.ofList

/-- The number that is the value of an option. -/
def numberOf (option value : String) : Except ArgumentError Nat :=
  match Text.natural? value with
  | some n => .ok n
  | none => .error (.noNumber option value)

/-- What an argument says. -/
def read (argument : String) : Except ArgumentError Argument :=
  if let some name := valueOf? "--rule" argument then .ok (.rule name)
  else if let some name := valueOf? "--lang" argument then .ok (.language name)
  else if let some value := valueOf? "--width" argument then
    (numberOf "--width" value).map .width
  else if let some value := valueOf? "--indent" argument then
    (numberOf "--indent" value).map .indent
  else if argument = "--tabs" then .ok .tabs
  else if argument = "--check" then .ok .check
  else if argument.toList.head? = some '-' then .error (.unknownOption argument)
  else .ok (.file argument)

end Argument

/-- Files, and how they are handled. -/
structure Options where
  files : List String := []
  /-- The rule to parse with, instead of the entry of the language. -/
  rule : Option String := none
  /-- The name of the language, instead of the one for the extension of a file. -/
  language : Option String := none
  width : Option Nat := none
  indent : Option Nat := none
  tabs : Bool := false
  /-- Tells which files would change, and changes none. -/
  check : Bool := false
  deriving DecidableEq, Repr, Inhabited

/-- Why there is no language for a path. -/
inductive LanguageChoiceError where
  | unknownName (name : String)
  | unknownExtension (path : String)
  deriving DecidableEq, Repr, Inhabited

/-- The message of an error. -/
def LanguageChoiceError.message : LanguageChoiceError → String
  | unknownName name => "unknown language '" ++ name ++ "'"
  | unknownExtension path => "no language for '" ++ path ++ "' (use --lang=<name>)"

namespace Options

/-- The options with what an argument says. -/
def apply (o : Options) : Argument → Options
  | .rule name => { o with rule := some name }
  | .language name => { o with language := some name }
  | .width columns => { o with width := some columns }
  | .indent columns => { o with indent := some columns }
  | .tabs => { o with tabs := true }
  | .check => { o with check := true }
  | .file path => { o with files := o.files ++ [path] }

/-- The options that arguments say. -/
def read (arguments : List String) : Except ArgumentError Options := do
  pure ((← arguments.mapM Argument.read).foldl apply {})

/-- The print settings, on top of others. -/
def printConfig (o : Options) (base : PrintConfig) : PrintConfig where
  maxWidth := o.width.getD base.maxWidth
  indentWidth := o.indent.getD base.indentWidth
  useTabs := o.tabs || base.useTabs

/-- The language for a path as it is bundled. -/
def bundledFor (o : Options) (path : String) : Except LanguageChoiceError Language :=
  match o.language with
  | some name =>
    match Language.byName? name with
    | some l => .ok l
    | none => .error (.unknownName name)
  | none =>
    match Language.byExtension? ((Path.extension? path).getD "") with
    | some l => .ok l
    | none => .error (.unknownExtension path)

/-- The language for a path, with the print settings of the options. -/
def languageFor (o : Options) (path : String) : Except LanguageChoiceError Language := do
  let l ← o.bundledFor path
  pure { l with printConfig := o.printConfig l.printConfig }

/-- The rule to parse with. -/
def ruleFor (o : Options) (l : Language) : String := o.rule.getD l.entry

end Options

end ReversibleGrammar
