/-
Templates: source text with shapes in it.

A template renders to text by printing its shapes as the rules they name.  Read
back as a rule, the text has a shape of its own, so that shapes can be written in
the syntax of their language.
-/
import ReversibleGrammar.Language.Basic

namespace ReversibleGrammar

/-- A piece of a template. -/
inductive TemplatePart where
  /-- Source text as it is. -/
  | text (s : String)
  /-- A shape, printed as a rule. -/
  | node (rule : String) (shape : Shape)
  deriving Repr, Inhabited

namespace Language

/-- The text of a piece. -/
def renderPart (l : Language) : TemplatePart → Except LanguageError String
  | .text s => .ok s
  | .node rule shape => l.printShape rule shape

/-- The text of a template. -/
def renderTemplate (l : Language) (parts : List TemplatePart) : Except LanguageError String := do
  pure (String.join (← parts.mapM l.renderPart))

/-- The shape of a template's text as a rule. -/
def templateShape (l : Language) (rule : String) (parts : List TemplatePart) :
    Except LanguageError Shape := do
  let tokens ← l.tokenizeDetached (← l.renderTemplate parts)
  l.shapeOf (← l.parseTokens rule tokens)

end Language

end ReversibleGrammar
