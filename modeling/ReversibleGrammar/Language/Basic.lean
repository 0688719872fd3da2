/-
Languages: a lexer, a grammar and the shapes of tokens that belong together.

A language goes from source text to tokens, to a tree, to a shape, and back.

* `Language.parse`, `Language.print` — between source and tree;
* `Language.shapeOf`, `Language.inject` — between tree and shape;
* `Language.format`, `Language.extract`, `Language.printShape` — their compositions.
-/
import ReversibleGrammar.Language.TokenCodec
import ReversibleGrammar.Recognizer.Parser
import ReversibleGrammar.Shaping.Extract
import ReversibleGrammar.Shaping.Inject
import ReversibleGrammar.Tree.Document

namespace ReversibleGrammar

/-- Everything between source text and shapes. -/
structure Language where
  name : String
  /-- Extensions of its files, without the dot. -/
  extensions : List String := []
  lexer : Lexer
  grammar : Grammar
  /-- The rule that is meant when none is given. -/
  entry : String
  codec : ShapeCodec LexToken
  printConfig : PrintConfig := {}
  parserConfig : ParserConfig := {}
  /-- How many patterns deep an injection may go. -/
  injectDepth : Nat := injectFuel

/-- What can go wrong between source text and shapes. -/
inductive LanguageError where
  | unknownRule (name : String)
  | lex (error : LexError)
  | parse (error : ParseError LexToken)
  | shape (error : ShapeError)
  deriving Repr, Inhabited

/-- The message of an error. -/
def LanguageError.message : LanguageError → String
  | unknownRule name => "unknown rule '" ++ name ++ "'"
  | lex error => error.message
  | parse error => error.message
  | shape error => error.message

namespace Language

/-- The body of the rule called `name`. -/
def rule (l : Language) (name : String) : Except LanguageError PatternId :=
  match l.grammar.rule? name with
  | some body => .ok body
  | none => .error (.unknownRule name)

/-- The tokens of a source, with their places. -/
def tokenize (l : Language) (source : String) : Except LanguageError (List LexToken) :=
  (l.lexer.tokenize source).mapError .lex

/-- The tokens of a source without their places, as injected trees have them. -/
def tokenizeDetached (l : Language) (source : String) : Except LanguageError (List LexToken) :=
  (l.lexer.tokenizeDetached source).mapError .lex

/-- The first derivation of tokens as a rule. -/
def parseTokens (l : Language) (rule : String) (tokens : List LexToken) :
    Except LanguageError (Tree LexToken) := do
  let body ← l.rule rule
  (parseOne l.grammar l.parserConfig body tokens.toArray).mapError .parse

/-- The first derivation of a source as a rule. -/
def parse (l : Language) (rule source : String) : Except LanguageError (Tree LexToken) := do
  l.parseTokens rule (← l.tokenize source)

/-- The text of a tree. -/
def print (l : Language) (t : Tree LexToken) : String := t.print l.printConfig

/-- A source printed anew. -/
def format (l : Language) (rule source : String) : Except LanguageError String := do
  pure (l.print (← l.parse rule source))

/-- The shape of a tree. -/
def shapeOf (l : Language) (t : Tree LexToken) : Except LanguageError Shape :=
  (t.extract l.grammar l.codec).mapError .shape

/-- The shape of a source. -/
def extract (l : Language) (rule source : String) : Except LanguageError Shape := do
  l.shapeOf (← l.parse rule source)

/-- The tree for a rule that a shape describes. -/
def inject (l : Language) (rule : String) (shape : Shape) :
    Except LanguageError (Tree LexToken) := do
  let body ← l.rule rule
  (injectTo l.grammar l.codec l.injectDepth body shape).mapError .shape

/-- The source text of a shape as a rule. -/
def printShape (l : Language) (rule : String) (shape : Shape) : Except LanguageError String := do
  pure (l.print (← l.inject rule shape))

end Language

end ReversibleGrammar
