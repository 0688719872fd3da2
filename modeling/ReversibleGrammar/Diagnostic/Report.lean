/-
Reports of what goes wrong between source text and shapes.

A place where no rule of the lexer matches, or where one stalls, and the failures of
a parse are diagnostics on the source.  Any other error is one line.

* `Diagnostic.ofFailures` — the failures of a parse on the tokens they were met at;
* `LanguageError.report` — the report of an error.
-/
import ReversibleGrammar.Diagnostic.Basic
import ReversibleGrammar.Language.Basic
import ReversibleGrammar.Text.Bytes

namespace ReversibleGrammar

/-- How an error is shown. -/
inductive Report where
  /-- One line with a message. -/
  | plain (message : String)
  /-- A diagnostic on the source. -/
  | drawn (diagnostic : Diagnostic)
  deriving Repr, Inhabited

/-- The text of a report on the source at a path. -/
def Report.write (path source : String) : Report → String
  | plain message => "error: " ++ path ++ ": " ++ message ++ "\n"
  | drawn diagnostic => diagnostic.write path source

/-- The range of characters of the token at a position, or of the last character after the end. -/
def failureRange (source : List Char) (tokens : List LexToken) (position : Nat) : Nat × Nat :=
  match tokens[position]? with
  | some token =>
    (Text.charIndex source token.span.start, Text.charIndex source token.span.stop)
  | none => (source.length - 1, source.length)

/-- The label of a failure. -/
def failureLabel (source : List Char) (tokens : List LexToken) (failure : FailureReport LexToken) :
    Label :=
  let range := failureRange source tokens failure.position
  ⟨range.1, range.2, failure.message⟩

namespace Diagnostic

/-- The failures of a parse of the tokens of a source. -/
def ofFailures (source : String) (tokens : List LexToken)
    (failures : List (FailureReport LexToken)) : Diagnostic :=
  ⟨"no parse consumed the whole input", failures.map (failureLabel source.toList tokens)⟩

/-- A lexer's error at a byte of a source. -/
def ofOffset (source : String) (offset : Nat) (message : String) : Diagnostic :=
  let start := Text.charIndex source.toList offset
  ⟨"cannot tokenize input", [⟨start, start + 1, message⟩]⟩

end Diagnostic

/-- The report of a lexer's error. -/
def LexError.report (source : String) (error : LexError) : Report :=
  match error with
  | noMatch _ offset | stalled _ offset =>
    .drawn (.ofOffset source offset error.message)
  | _ => .plain error.message

/-- The report of a parser's error on the tokens of a source. -/
def ParseError.report (source : String) (tokens : List LexToken) (error : ParseError LexToken) :
    Report :=
  match error with
  | noMatch failures => .drawn (.ofFailures source tokens failures)
  | _ => .plain error.message

/-- The report of an error on a source, of which `tokens` were parsed. -/
def LanguageError.report (source : String) (tokens : List LexToken) (error : LanguageError) :
    Report :=
  match error with
  | lex error => error.report source
  | parse error => error.report source tokens
  | _ => .plain error.message

namespace Language

/-- The tokens of a source, or the report of why it has none. -/
def readTokens (l : Language) (source : String) : Except Report (List LexToken) :=
  (l.tokenize source).mapError (·.report source [])

/-- The tree of a source as a rule, or a report. -/
def readTree (l : Language) (rule source : String) : Except Report (Tree LexToken) := do
  let tokens ← l.readTokens source
  (l.parseTokens rule tokens).mapError (·.report source tokens)

/-- The shape of a source as a rule, or a report. -/
def readShape (l : Language) (rule source : String) : Except Report Shape := do
  let tree ← l.readTree rule source
  (l.shapeOf tree).mapError (·.report source [])

end Language

end ReversibleGrammar
