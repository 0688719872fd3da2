/-
Failures as callers see them.

* `FailureReport` — why a recognition stopped, where, and the tokens that follow;
* `ParseError` — no derivation took the whole input, or the recognition itself was
  given up;
* the messages of both.
-/
import ReversibleGrammar.Recognizer.Machine
import ReversibleGrammar.Token

namespace ReversibleGrammar

/-- The message of a kind of failure. -/
def FailureKind.message [Token τ ν] (tokens : Array τ) : FailureKind → String
  | infiniteRecursion => "Infinite left recursion"
  | tokensRemaining count =>
    "Failed to consume all input tokens. The " ++ toString count ++ " remaining."
  | tokensExhausted expected =>
    "Expected token '" ++ expected ++ "', but all tokens were already consumed"
  | unexpectedToken expected found =>
    "Expected token '" ++ expected ++
      match tokens[found]? with
      | some token => "', but found: " ++ Token.describe token
      | none => "', but found token " ++ toString found
  | alternativeFailed label => "Failed to match 'or' pattern: " ++ label

/-- A failure at a position of a token list. -/
structure FailureReport (τ : Type) where
  kind : FailureKind
  position : Nat
  /-- A few tokens from the position on. -/
  lookahead : List τ
  message : String
  deriving Repr, Inhabited

namespace FailureReport

/-- The report of a failure, with at most `lookahead` tokens. -/
def make [Token τ ν] (kind : FailureKind) (position : Nat) (tokens : Array τ) (lookahead : Nat) :
    FailureReport τ :=
  { kind, position
    lookahead := (tokens.toList.drop position).take lookahead
    message := kind.message tokens }

/-- The message and the position. -/
def text (report : FailureReport τ) : String :=
  report.message ++ " (at token " ++ toString report.position ++ ")"

end FailureReport

/-- A site in messages. -/
def Recognizer.describe : Recognizer → String
  | label l => "Label(LabelId(" ++ toString l ++ "))"
  | pattern p => "Pattern(PatternId(" ++ toString p ++ "))"

/-- The message of a fault. -/
def Fault.message : Fault → String
  | noContext site =>
    "no left-recursion context at token " ++ toString site.index ++ " for " ++
      site.recognizer.describe
  | unknownPattern id => toString id ++ ": no such pattern"
  | unknownRule id => toString id ++ ": no such rule"
  | noAlternative pattern index =>
    toString pattern ++ ": no alternative " ++ toString index
  | straySeparators pattern => toString pattern ++ ": separators without a separator pattern"
  | cannotHold pattern kind => toString pattern ++ ": " ++ kind ++ " pattern cannot hold"

/-- Why a parse has no tree. -/
inductive ParseError (τ : Type) where
  /-- No derivation took the whole input; every failure met on the way. -/
  | noMatch (failures : List (FailureReport τ))
  /-- The recognition was given up. -/
  | fault (reason : Fault)
  /-- The fuel did not last. -/
  | outOfFuel
  deriving Repr, Inhabited

/-- The message of an error, with a line for each failure. -/
def ParseError.message : ParseError τ → String
  | noMatch failures =>
    "no derivation consumed the whole input" ++
      String.join (failures.map fun report => "\n  - " ++ report.text)
  | fault reason => "internal parser error: " ++ reason.message
  | outOfFuel => "internal parser error: out of fuel"

end ReversibleGrammar
