/-
Shapes of lexed tokens.

A token shapes to its text.  Going back, the shape is the value of the token only
for the types whose rules capture something; a token of any other type is its type
alone.

* `tokenCodec` — the codec for the types that carry a value;
* `shapeToken_tokenShape` — a token with one value is read back from its shape.
-/
import ReversibleGrammar.Lexer.Basic
import ReversibleGrammar.Shaping.Codec

namespace ReversibleGrammar

/-- The token of a type that carries a value. -/
def LexToken.ofShape (terminal : String) : Shape → Except ShapeError LexToken
  | .text value => .ok (.valued terminal value)
  | shape => .error (.invalidToken terminal shape)

/-- Tokens as texts, where the types in `valued` carry a value. -/
def tokenCodec (valued : List String) : ShapeCodec LexToken where
  tokenShape token := .text token.text
  shapeToken shape terminal :=
    if valued.contains terminal then LexToken.ofShape terminal shape else .ok (.bare terminal)
  terminalToken terminal :=
    if valued.contains terminal then .valued terminal terminal else .bare terminal

/-- The codec of a lexer's tokens. -/
def Lexer.codec (lexer : Lexer) : ShapeCodec LexToken := tokenCodec lexer.valuedKinds

theorem shapeToken_tokenShape {valued : List String} {kind : String} (h : valued.contains kind)
    (value : String) :
    (tokenCodec valued).shapeToken ((tokenCodec valued).tokenShape (.valued kind value)) kind =
      .ok (.valued kind value) := by
  simp [tokenCodec, LexToken.ofShape, LexToken.text, LexToken.valued] at h ⊢
  simp [h]

end ReversibleGrammar
