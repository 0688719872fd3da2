/-
Rules and states of lexers, and what may be wrong with them.

* `TokenRule.literal`, `TokenRule.keyword` — rules that match their own name;
* `LexError.message` — the messages of lexer errors.
-/
import ReversibleGrammar.Regex.Basic

namespace ReversibleGrammar

/-- What happens to the stack of states after a rule matched. -/
inductive Action where
  /-- Replaces the current state. -/
  | next (state : String)
  /-- Enters a state above the current one. -/
  | push (state : String)
  /-- Goes back to the state below. -/
  | pop
  deriving DecidableEq, Repr, Inhabited

/-- A named token pattern; what its groups capture are the values of its tokens. -/
structure TokenRule where
  name : String
  pattern : String
  action : Option Action := none
  /-- Matches without making a token. -/
  discard : Bool := false
  deriving DecidableEq, Repr, Inhabited

namespace TokenRule

/-- Matches its own name. -/
def literal (name : String) : TokenRule := { name, pattern := Regex.escape name }

/-- Matches its own name where a word ends. -/
def keyword (name : String) : TokenRule := { name, pattern := Regex.escape name ++ "\\b" }

/-- A rule with this pattern. -/
def make (name pattern : String) : TokenRule := { name, pattern }

/-- The rule with another action. -/
def «then» (r : TokenRule) (action : Action) : TokenRule := { r with action := some action }

/-- The rule without tokens. -/
def discarded (r : TokenRule) : TokenRule := { r with discard := true }

end TokenRule

/-- A named list of rules, of which the first that matches counts. -/
structure LexerState where
  name : String
  rules : List TokenRule
  deriving DecidableEq, Repr, Inhabited

/-- Why there is no lexer, or why it stops. -/
inductive LexError where
  | noStates
  | emptyState (state : String)
  | unknownState (state : String)
  | invalidPattern (rule : String)
  /-- A rule matched nothing and takes no action. -/
  | stalled (rule : String) (offset : Nat)
  | noMatch (state : String) (offset : Nat)
  | popEmpty (rule state : String)
  /-- The run never ends. -/
  | endless
  deriving DecidableEq, Repr, Inhabited

/-- The message of an error. -/
def LexError.message : LexError → String
  | noStates => "a lexer needs at least one state"
  | emptyState state => "lexer state '" ++ state ++ "' has no rules"
  | unknownState state => "lexer state '" ++ state ++ "' isn't defined"
  | invalidPattern rule => "rule '" ++ rule ++ "' has an invalid pattern"
  | stalled rule offset =>
    "lexer stalled at byte " ++ toString offset ++ ": rule '" ++ rule ++
      "' matched nothing and takes no action"
  | noMatch state offset =>
    "no rule of state '" ++ state ++ "' matches at byte " ++ toString offset
  | popEmpty rule state => "rule '" ++ rule ++ "' pops the last state '" ++ state ++ "'"
  | endless => "the rules match nothing for ever"

end ReversibleGrammar
