/-
Logic: declarations of structs, enums, namespaces and functions, with expressions.

Expressions are left recursive, as in `foo.bar` and `foo()`.  Every declaration has
its header in a group of its own, so that a body of several lines leaves the header
on one line.

* `Logic.lexer`, `Logic.grammar` — the parts, which are sound;
* `Language.logic` — the language.
-/
import ReversibleGrammar.Grammar.Builder
import ReversibleGrammar.Language.Basic

namespace ReversibleGrammar

namespace Logic

/-- The words that are no identifiers. -/
def keywords : List String :=
  ["true", "false", "enum", "case", "struct", "extension", "let", "func", "return", "import"]

/-- The signs, in the order in which they are tried. -/
def signs : List String :=
  ["#", "@", "[", "]", "\x7b", "\x7d", "(", ")", ",", ":", "->", "=", ">", "<", "."]

/-- The rules of the tokens. -/
def tokenRules : List TokenRule :=
  keywords.map TokenRule.keyword ++ signs.map TokenRule.literal ++
    [.make "identifier" "([_a-zA-Z][_a-zA-Z0-9]*)",
     .make "string" "\"([^\"]*)\"",
     .make "float" "((?:\\+|-)?[0-9]+\\.[0-9]+)",
     .make "integer" "((?:\\+|-)?[0-9]+)",
     .make "comment" "/\\*([\\S\\s]*?)\\*/",
     (TokenRule.make "whitespace" "[ \\t\\n\\r]+").discarded]

section

open Build

/-- A space or a new line. -/
def space : Build PatternId := line .default

/-- A new line. -/
def newLine : Build PatternId := line .hard

/-- A comma, and a space or a new line. -/
def comma : Build PatternId := do sequence [← consume ",", ← space]

/-- A rule under a name. -/
def field (name rule : String) : Build PatternId := do named (← Build.rule rule) name

/-- Items between separators, under a name. -/
def namedList (name : String) (item : String) (separator : Build PatternId) : Build PatternId := do
  named (← manySeparated (← rule item) (← separator)) name

/-- A comment that may be missing. -/
def comment : Build PatternId := do named (← option (← rule "comment")) "comment"

/-- A list that may be missing, which shapes as the empty list then. -/
def optionalList (name : String) (item : PatternId) : Build PatternId := do
  named (← absentAs (← select (← option item) name) (.list [])) name

/-- A name and a colon before an argument or an associated value, which may be missing. -/
def label : Build PatternId := do
  let labeled ← named
    (← sequence [← rule "identifier", ← consume ":", ← space])
    "identifier"
  named (← select (← option labeled) "identifier") "label"

/-- A declaration with a body between braces, each item on a line of its own. -/
def block (word item : String) : Build PatternId := do
  let body ← rule item
  sequence
    [← comment,
     ← rule "attributeList",
     ← group
        (← sequence
          [← consume word,
           ← space,
           ← field "name" "identifier",
           ← optionalList "generics" (← rule "genericIdentifierList"),
           ← space,
           ← consume "\x7b"]),
     ← indentedMany (← named (← manySeparated body (← newLine)) "body") .hard,
     ← consume "\x7d"]

/-- Programs, and the declarations that need no block. -/
def declarations : Build Unit := do
  let _ ← define "program" (← namedList "declarations" "declaration" newLine)
  let _ ← define "declaration"
    (← named
      (← typedChoice
        [("variableDeclaration", ← rule "variableDeclaration"),
         ("structDeclaration", ← rule "structDeclaration"),
         ("namespaceDeclaration", ← rule "namespaceDeclaration"),
         ("functionDeclaration", ← rule "functionDeclaration"),
         ("enumDeclaration", ← rule "enumDeclaration"),
         ("importDeclaration", ← rule "importDeclaration")])
      mergeName)
  let _ ← define "importDeclaration"
    (← group (← sequence [← consume "import", ← space, ← field "name" "identifier"]))
  let _ ← define "comment"
    (← sequence
      [← literal "/*", ← consumeNamed "comment" "comment", ← literal "*/", ← newLine])
  let _ ← define "attributeList"
    (← conditional (← namedList "attributes" "attribute" newLine) "attributes" none
      (some (.line .hard)))
  let _ ← define "genericIdentifierList"
    (← sequence [← consume "<", ← namedList "generics" "identifier" comma, ← consume ">"])
  let _ ← define "variableDeclaration"
    (← sequence
      [← comment,
       ← rule "attributeList",
       ← group
          (← sequence
            [← consume "let",
             ← space,
             ← field "name" "identifier",
             ← consume ":",
             ← space,
             ← field "annotation" "typeAnnotation",
             ← space,
             ← consume "=",
             ← space,
             ← field "initializer" "expression"])])
  let _ ← define "functionParameter"
    (← sequence
      [← field "name" "identifier",
       ← consume ":",
       ← space,
       ← field "annotation" "typeAnnotation"])
  let _ ← define "functionDeclaration"
    (← sequence
      [← comment,
       ← rule "attributeList",
       ← group
          (← sequence
            [← consume "func",
             ← space,
             ← field "name" "identifier",
             ← optionalList "generics" (← rule "genericIdentifierList"),
             ← consume "(",
             ← indentedMany (← namedList "arguments" "functionParameter" comma) .soft,
             ← consume ")",
             ← space,
             ← consume "->",
             ← space,
             ← field "returnType" "typeAnnotation",
             ← space,
             ← consume "\x7b",
             ← consume "\x7d"])])

/-- The declarations with blocks, and the cases of enums. -/
def blocks : Build Unit := do
  let _ ← define "structDeclaration" (← block "struct" "declaration")
  let _ ← define "namespaceDeclaration" (← block "extension" "declaration")
  let _ ← define "enumDeclaration" (← block "enum" "enumCase")
  let _ ← define "enumCase"
    (← sequence
      [← comment,
       ← group
          (← sequence
            [← consume "case",
             ← space,
             ← field "name" "identifier",
             ← consume "(",
             ← namedList "associatedValues" "associatedValue" comma,
             ← consume ")"])])
  let _ ← define "associatedValue"
    (← sequence [← label, ← field "annotation" "typeAnnotation"])

/-- Expressions; calls and members are tried beside each other. -/
def expressions : Build Unit := do
  let _ ← define "expression"
    (← named
      (← parallel
        (← typedChoice
          [("functionCallExpression", ← rule "functionCallExpression"),
           ("memberExpression", ← rule "memberExpression"),
           ("identifierExpression", ← rule "identifierExpression"),
           ("literalExpression", ← rule "literalExpression")]))
      mergeName)
  let _ ← define "functionCallExpression"
    (← sequence
      [← field "expression" "expression",
       ← consume "(",
       ← indentedMany (← namedList "arguments" "functionCallArgument" comma) .soft,
       ← consume ")"])
  let _ ← define "functionCallArgument"
    (← sequence [← label, ← field "expression" "expression"])
  let _ ← define "memberExpression"
    (← sequence
      [← field "expression" "expression", ← consume ".", ← field "member" "expression"])
  let _ ← define "identifierExpression" (← sequence [← rule "identifier"])

/-- Literals. -/
def literals : Build Unit := do
  let _ ← define "literalExpression"
    (← named
      (← typedChoice
        [("boolean", ← rule "booleanLiteral"),
         ("number", ← rule "numberLiteral"),
         ("string", ← rule "stringLiteral"),
         ("array", ← rule "arrayLiteral")])
      mergeName)
  let _ ← define "booleanLiteral"
    (← named (← typedChoice [("true", ← consume "true"), ("false", ← consume "false")])
      mergeName)
  let _ ← define "numberLiteral"
    (← named
      (← typedChoice
        [("integer", ← consumeNamed "integer" mergeName),
         ("float", ← consumeNamed "float" mergeName)])
      mergeName)
  let _ ← define "stringLiteral"
    (← sequence [← literal "\"", ← consumeNamed "string" "value", ← literal "\""])
  let _ ← define "arrayLiteral"
    (← sequence
      [← consume "[",
       ← indentedMany (← namedList "body" "expression" comma) .soft,
       ← consume "]"])

/-- Types, identifiers and attributes. -/
def types : Build Unit := do
  let generics ← sequence
    [← consume "<", ← namedList "genericArguments" "typeAnnotation" comma, ← consume ">"]
  let _ ← define "typeAnnotation"
    (← sequence [← rule "identifier", ← optionalList "genericArguments" generics])
  let _ ← define "identifier" (← consumeNamed "identifier" "value")
  let _ ← define "attribute" (← sequence [← consume "@", ← consumeNamed "identifier" "value"])

end

/-- All rules. -/
def rules : Build Unit := do
  declarations
  blocks
  expressions
  literals
  types

theorem isSome_lexer : (Lexer.stateless tokenRules).toOption.isSome := by decide +kernel

theorem isSome_grammar : (Grammar.ofBuild rules).toOption.isSome :=
  Builder.isSome_build (by decide +kernel)

/-- The tokens of programs. -/
def lexer : Lexer := (Lexer.stateless tokenRules).toOption.get isSome_lexer

/-- The grammar of programs. -/
def grammar : Grammar := (Grammar.ofBuild rules).toOption.get isSome_grammar

end Logic

/-- Logic programs. -/
def Language.logic : Language where
  name := "logic"
  extensions := ["lg", "logic"]
  lexer := Logic.lexer
  grammar := Logic.grammar
  entry := "program"
  codec := Logic.lexer.codec

end ReversibleGrammar
