/-
Lexers: texts into tokens.

A lexer has a stack of states.  At each place the first rule of the current state
that matches takes its text, makes a token unless it is discarded, and may change
the stack.  Places are bytes; a match ends between two characters.

* `Lexer.make` — the lexer of states, or what is wrong with them;
* `Lexer.step` — one match;
* `Lexer.tokenize` — all tokens of a source, or why it has none.

A rule that matches nothing may still change the stack, so a run need not end.
While a run that ends stands at one place it first goes down the stack, with no more
changes of the current state between two pops than there are states, and then up,
entering no state twice: if it came back down to a state that it left by a push, it
would push again.  So a run that is not over after `matchBound` matches never ends.
-/
import ReversibleGrammar.Lexer.Rule
import ReversibleGrammar.Lexer.Token
import ReversibleGrammar.Regex.Match
import ReversibleGrammar.Regex.Parser
import ReversibleGrammar.Text.Bytes

namespace ReversibleGrammar

/-- A rule ready to match. -/
structure CompiledRule where
  rule : TokenRule
  regex : Regex
  /-- The number of capture groups. -/
  groups : Nat
  /-- The number of the state that its action leads to. -/
  target : Option Nat
  deriving Repr, Inhabited

/-- A state ready to match. -/
structure CompiledState where
  name : String
  rules : List CompiledRule
  deriving Repr, Inhabited

/-- States ready to match; the first one is where a run starts. -/
structure Lexer where
  states : Array CompiledState
  deriving Repr, Inhabited

/-- The name of the state that an action leads to. -/
def Action.target? : Action → Option String
  | next state => some state
  | push state => some state
  | pop => none

/-- The expression of a rule: its pattern at the start of the text. -/
def TokenRule.source (r : TokenRule) : List Char := "^(?:".toList ++ r.pattern.toList ++ [')']

/-- The number of the first of the names that is `name`. -/
def stateIndex (names : List String) (name : String) : Except LexError Nat :=
  match names.findIdx? (· == name) with
  | some index => .ok index
  | none => .error (.unknownState name)

/-- A rule ready to match, in a lexer with these states. -/
def TokenRule.compile (names : List String) (r : TokenRule) : Except LexError CompiledRule :=
  match Regex.read? r.source with
  | none => .error (.invalidPattern r.name)
  | some (regex, groups) => do
    let target ← match r.action.bind Action.target? with
      | some state => do pure (some (← stateIndex names state))
      | none => pure none
    pure ⟨r, regex, groups, target⟩

/-- A state ready to match, in a lexer with these states. -/
def LexerState.compile (names : List String) (s : LexerState) : Except LexError CompiledState :=
  if s.rules.isEmpty then .error (.emptyState s.name)
  else do pure ⟨s.name, ← s.rules.mapM (TokenRule.compile names)⟩

/-- How a source is read. -/
structure TokenizeOptions where
  /-- Records the places of tokens; without them equal tokens are equal wherever they stand. -/
  trackPositions : Bool := true
  /-- The states to start in, the current one last; without any the first state. -/
  initial : List String := []
  deriving DecidableEq, Repr, Inhabited

/-- A run as far as it has come. -/
structure Scan where
  /-- The current state. -/
  current : Nat
  /-- The states below it, the topmost first. -/
  below : List Nat
  /-- The bytes taken. -/
  offset : Nat
  rest : List Char
  /-- The tokens made, the last one first. -/
  tokens : List LexToken
  deriving Repr, Inhabited

namespace Lexer

/-- The lexer of states. -/
def make (states : List LexerState) : Except LexError Lexer :=
  if states.isEmpty then .error .noStates
  else do pure ⟨(← states.mapM (LexerState.compile (states.map (·.name)))).toArray⟩

/-- A lexer with one state. -/
def stateless (rules : List TokenRule) : Except LexError Lexer := make [⟨"main", rules⟩]

/-- The names of the states. -/
def stateNames (l : Lexer) : List String := l.states.toList.map (·.name)

/-- The rules of every state. -/
def rules (l : Lexer) : List CompiledRule := l.states.toList.flatMap (·.rules)

/-- The names of the rules whose tokens carry captured texts. -/
def valuedKinds (l : Lexer) : List String :=
  (l.rules.filter fun r => 0 < r.groups).map (·.rule.name)

/-- The first of the rules that matches, and its match. -/
def firstMatch? (rules : List CompiledRule) (cs : List Char) : Option (CompiledRule × Match) :=
  rules.findSome? fun r => (r.regex.search? r.groups cs).map fun m => (r, m)

/-- The stack after the action of a rule in the state called `state`. -/
def act (r : CompiledRule) (state : String) (current : Nat) (below : List Nat) :
    Except LexError (Nat × List Nat) :=
  match r.rule.action, r.target with
  | some (.next _), some target => .ok (target, below)
  | some (.push _), some target => .ok (target, current :: below)
  | some .pop, _ =>
    match below with
    | [] => .error (.popEmpty r.rule.name state)
    | state :: below => .ok (state, below)
  | _, _ => .ok (current, below)

/-- One match at the current place. -/
def step (l : Lexer) (options : TokenizeOptions) (s : Scan) : Except LexError Scan :=
  match l.states[s.current]? with
  | none => .error (.unknownState (toString s.current))
  | some state =>
    match firstMatch? state.rules s.rest with
    | none => .error (.noMatch state.name s.offset)
    | some (r, m) =>
      if m.stop = 0 && r.rule.action.isNone then .error (.stalled r.rule.name s.offset)
      else do
        let offset := s.offset + Text.byteLength (s.rest.take m.stop)
        let span := if options.trackPositions then ⟨s.offset, offset⟩ else Span.none
        let tokens :=
          if r.rule.discard then s.tokens else ⟨r.rule.name, m.groups, span⟩ :: s.tokens
        let (current, below) ← act r state.name s.current s.below
        pure ⟨current, below, offset, s.rest.drop m.stop, tokens⟩

/-- More matches than a run that ends takes, for a lexer with `states` states that starts with
`below` states below the current one on a source with `length` characters. -/
def matchBound (states below length : Nat) : Nat :=
  length * (below + length * (states + 1) + 2) * (states + 1)

/-- Matches to the end of the source, as far as the fuel goes. -/
def scan (l : Lexer) (options : TokenizeOptions) : Nat → Scan → Except LexError (List LexToken)
  | fuel, s =>
    if s.rest.isEmpty then .ok s.tokens.reverse
    else
      match fuel with
      | 0 => .error .endless
      | fuel + 1 =>
        match l.step options s with
        | .error e => .error e
        | .ok s => l.scan options fuel s

/-- The current state and those below it at the start of a run. -/
def initialStack (l : Lexer) (options : TokenizeOptions) : Except LexError (Nat × List Nat) := do
  match (← options.initial.mapM (stateIndex l.stateNames)).reverse with
  | current :: below => pure (current, below)
  | [] => pure (0, [])

/-- The tokens of a source. -/
def tokenizeWith (l : Lexer) (options : TokenizeOptions) (source : String) :
    Except LexError (List LexToken) := do
  let (current, below) ← l.initialStack options
  let cs := source.toList
  l.scan options (matchBound l.states.size below.length cs.length) ⟨current, below, 0, cs, []⟩

/-- The tokens of a source, with their places. -/
def tokenize (l : Lexer) (source : String) : Except LexError (List LexToken) :=
  l.tokenizeWith {} source

/-- The tokens of a source without their places. -/
def tokenizeDetached (l : Lexer) (source : String) : Except LexError (List LexToken) :=
  l.tokenizeWith { trackPositions := false } source

end Lexer

end ReversibleGrammar
