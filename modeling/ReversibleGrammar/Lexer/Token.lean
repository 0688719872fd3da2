/-
Lexed tokens: the rule that made a token, what its groups captured, and where in
the source it stands.

* `LexToken.text` — what a token prints as;
* `LexToken.toShape` — a token as plain data.
-/
import ReversibleGrammar.Shape.Basic
import ReversibleGrammar.Token
import ReversibleGrammar.Tree.Description

namespace ReversibleGrammar

/-- A range of bytes of a source. -/
structure Span where
  start : Nat
  stop : Nat
  deriving DecidableEq, Repr, Inhabited

namespace Span

/-- The span of tokens whose position is not recorded. -/
def none : Span := ⟨0, 0⟩

/-- The number of bytes. -/
def length (s : Span) : Nat := s.stop - s.start

/-- Holds no byte. -/
def isEmpty (s : Span) : Bool := s.start == s.stop

end Span

/-- A token: the name of its rule, the captured texts and its place. -/
structure LexToken where
  kind : String
  values : List String
  span : Span
  deriving DecidableEq, Repr, Inhabited

namespace LexToken

/-- A token without captures and without a place. -/
def bare (kind : String) : LexToken := ⟨kind, [], .none⟩

/-- A token with one captured text and without a place. -/
def valued (kind value : String) : LexToken := ⟨kind, [value], .none⟩

/-- The first captured text; for a token without captures its kind. -/
def text (t : LexToken) : String := t.values.head?.getD t.kind

/-- The token without its place. -/
def detach (t : LexToken) : LexToken := { t with span := .none }

/-- The token in messages. -/
def describe (t : LexToken) : String :=
  Tree.describeRecord "LexToken"
    [("kind", Text.quote t.kind),
     ("values", Tree.describeList (t.values.map Text.quote)),
     ("span",
       Tree.describeRecord "Span"
         [("start", toString t.span.start), ("end", toString t.span.stop)])]

/-- The token as plain data: its type, then the captured texts, then its place. -/
def toShape (t : LexToken) : Shape :=
  .object
    [("type", .text t.kind),
     ("values", .list (t.values.map .text)),
     ("span",
       .object
         [("start", .number (.integer t.span.start)), ("end", .number (.integer t.span.stop))])]

end LexToken

/-- A token is of the type that its rule is named, and is kept whole. -/
instance : Token LexToken LexToken where
  is token terminal := token.kind == terminal
  value token := token
  describe := LexToken.describe
  decEq := inferInstance

instance : TokenText LexToken where
  text := LexToken.text
  describe := LexToken.describe

end ReversibleGrammar
