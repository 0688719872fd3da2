/-
Tokens, as the recognizer and the printer see them.

Recognition only asks whether a token has a type and what a leaf keeps of it,
where equal values are kept once; printing only asks for the text of what a leaf
keeps.
-/
import ReversibleGrammar.Text.Quoted

namespace ReversibleGrammar

/-- Tokens `τ` whose leaves keep values `ν`. -/
class Token (τ : Type) (ν : outParam Type) where
  /-- The token has the type. -/
  is : τ → String → Bool
  /-- What a leaf keeps of the token. -/
  value : τ → ν
  /-- The token in messages. -/
  describe : τ → String
  /-- Values can be compared. -/
  decEq : DecidableEq ν

/-- Values of leaves. -/
class TokenText (ν : Type) where
  /-- What the value prints as. -/
  text : ν → String
  /-- The value in descriptions. -/
  describe : ν → String

/-- A text is its own type, value and print. -/
instance : Token String String where
  is token terminal := token == terminal
  value token := token
  describe := Text.quote
  decEq := inferInstance

instance : TokenText String where
  text value := value
  describe := Text.quote

end ReversibleGrammar
