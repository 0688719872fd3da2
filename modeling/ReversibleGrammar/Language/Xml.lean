/-
A small XML: elements, attributes, comments and character data.

The closing of an element shapes to its content: a self-closing element has an
empty list, an open one the fields `content` and `closingTag`.

* `Xml.lexer`, `Xml.grammar` — the parts, which are sound;
* `Xml.codec` — tokens as texts, and the closings of elements;
* `Language.xml` — the language.
-/
import ReversibleGrammar.Grammar.Builder
import ReversibleGrammar.Language.Basic

namespace ReversibleGrammar

namespace Xml

/-- The label of the choice between `/>` and a closing tag. -/
def closingLabel : String := "ElementClosing"

/-- The label of the choice between the kinds of content. -/
def contentLabel : String := "ElementContent"

/-- Text between tags, and what stands inside a tag. -/
def states : List LexerState :=
  [⟨"main",
    [.make "comment" "<!--(.*?)-->",
     (TokenRule.literal "</").then (.next "inside"),
     (TokenRule.literal "<").then (.next "inside"),
     .make "charData" "([^<&]+)"]⟩,
   ⟨"inside",
    [(TokenRule.make "whitespace" "[ \\t\\r\\n]").discarded,
     .make "string" "\"([^<\"]*)\"",
     .make "name" "([a-zA-Z0-9]+)",
     .literal "=",
     (TokenRule.literal ">").then (.next "main"),
     (TokenRule.literal "/>").then (.next "main")]⟩]

section

open Build

/-- The rules `element`, `elementContent` and `attribute`. -/
def rules : Build Unit := do
  let attributes ← named (← manySeparated (← rule "attribute") (← line .default)) "attributes"
  let opened ← sequence
    [← consume ">",
     ← labeled (← named (← many (← rule "elementContent")) "content") "contentItem",
     ← consume "</",
     ← consumeNamed "name" "closingTag",
     ← consume ">"]
  let closing ← labeled
    (← named (← typedChoice [("selfClosing", ← consume "/>"), ("open", opened)]) "content")
    closingLabel
  let _ ← define "element"
    (← sequence
      [← consume "<",
       ← consumeNamed "name" "tag",
       ← indent
          (← conditional (← group attributes) "attributes" (some (.line .default)) none),
       closing])
  let comment ← select
    (← sequence [← literal "<!--", ← consumeNamed "comment" "text", ← literal "-->"])
    "text"
  let _ ← define "elementContent"
    (← labeled
      (← named
        (← typedChoice
          [("charData", ← consumeNamed "charData" mergeName),
           ("comment", comment),
           ("element", ← rule "element")])
        mergeName)
      contentLabel)
  let _ ← define "attribute"
    (← sequence
      [← consumeNamed "name" "name",
       ← consume "=",
       ← literal "\"",
       ← consumeNamed "string" "value",
       ← literal "\""])

end

theorem isSome_lexer : (Lexer.make states).toOption.isSome := by decide +kernel

theorem isSome_grammar : (Grammar.ofBuild rules).toOption.isSome := by decide +kernel

/-- The tokens of documents. -/
def lexer : Lexer := (Lexer.make states).toOption.get isSome_lexer

/-- The grammar of documents. -/
def grammar : Grammar := (Grammar.ofBuild rules).toOption.get isSome_grammar

/-- The shape of the closing of an element or of its content; no other choice has one. -/
def taggedShape (choice : Tagged) (label : Option String) : Except ShapeError Shape :=
  if label = some closingLabel ∧ choice.kind = "selfClosing" then .ok (.list [])
  else if label = some closingLabel ∧ choice.kind = "open" then .ok choice.value
  else if label = some contentLabel then .ok choice.toShape
  else .error (.unknownOr (label.getD "none") choice.toShape)

/-- The closing that a shape describes: an object is an open element, all else a closed one. -/
def closingOfShape : Shape → Tagged
  | .object fields => ⟨"open", .object fields⟩
  | _ => ⟨"selfClosing", .null⟩

/-- The closing of an element or its content that a shape describes. -/
def shapeTagged (shape : Shape) (label : Option String) : Except ShapeError Tagged :=
  if label = some closingLabel then .ok (closingOfShape shape)
  else if label = some contentLabel then Tagged.ofShape shape
  else .error (.unknownOr (label.getD "none") shape)

/-- Tokens as texts, and the closings of elements as their content. -/
def codec : ShapeCodec LexToken := { lexer.codec with taggedShape, shapeTagged }

end Xml

/-- XML documents. -/
def Language.xml : Language where
  name := "xml"
  extensions := ["xml"]
  lexer := Xml.lexer
  grammar := Xml.grammar
  entry := "element"
  codec := Xml.codec

end ReversibleGrammar
