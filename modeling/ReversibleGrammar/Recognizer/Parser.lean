/-
Parsing: trees of the derivations that take the whole input.

* `candidates` — every result of a pattern at the first token, as it was found;
* `parseAll` — the trees of all derivations of the whole input, each once;
* `parseOne` — the first of them.

Without a derivation of the whole input the failures are reported, and every
derivation that stops early is one of them.
-/
import ReversibleGrammar.Recognizer.Failure
import ReversibleGrammar.Recognizer.Rebuild

namespace ReversibleGrammar

/-- Settings of a parser. -/
structure ParserConfig where
  /-- How many tokens a report shows. -/
  lookahead : Nat := 3
  /-- How many steps a recognition may take. -/
  fuel : Nat := Nat.pow 2 60
  deriving DecidableEq, Repr, Inhabited

/-- A result of a pattern at the first token. -/
inductive Candidate (τ ν : Type) where
  | success (stop : Nat) (tree : Tree ν)
  | failure (report : FailureReport τ)
  deriving Inhabited, Repr

/-- The number of the value of each token: the position of the first token with that value. -/
def valueNumbers [Token τ ν] (tokens : Array τ) : Array Nat :=
  let _ : DecidableEq ν := Token.decEq τ
  let values := tokens.toList.map Token.value
  (values.map values.idxOf).toArray

/-- The tokens as recognition sees them. -/
def Input.ofTokens [Token τ ν] (tokens : Array τ) : Input :=
  let numbers := valueNumbers tokens
  { size := tokens.size
    is := fun index terminal =>
      match tokens[index]? with
      | some token => Token.is token terminal
      | none => false
    value := fun index => numbers.getD index index }

/-- The results of a pattern at the first token, and the store they are numbers of. -/
def recognize [Token τ ν] (g : Grammar) (config : ParserConfig) (id : PatternId)
    (tokens : Array τ) : Except (ParseError τ) (List ResultId × Store) :=
  match run g (.ofTokens tokens) config.fuel (.initial id) with
  | .running _ => .error .outOfFuel
  | .finished results tables => .ok (results, tables.store)
  | .faulted fault => .error (.fault fault)

/-- The tree of a fragment, or the fault in its form. -/
def treeOf [Token τ ν] (g : Grammar) (store : Store) (tokens : Array τ) (id : PatternId)
    (fragment : FragmentId) : Except (ParseError τ) (Tree ν) :=
  (rebuild g store.fragments tokens id fragment).mapError .fault

/-- A result as a candidate. -/
def candidateOf [Token τ ν] (g : Grammar) (config : ParserConfig) (id : PatternId)
    (tokens : Array τ) (store : Store) (result : Result) :
    Except (ParseError τ) (Candidate τ ν) :=
  match result.outcome with
  | .success fragment => (treeOf g store tokens id fragment).map (.success result.stop)
  | .failure kind =>
    .ok (.failure (.make (store.failureKind kind) result.stop tokens config.lookahead))

/-- Every result of a pattern at the first token, in the order of discovery. -/
def candidates [Token τ ν] (g : Grammar) (config : ParserConfig) (id : PatternId)
    (tokens : Array τ) : Except (ParseError τ) (List (Candidate τ ν)) := do
  let (results, store) ← recognize g config id tokens
  results.mapM fun result => candidateOf g config id tokens store (store.result result)

/-- The fragments of the results that take all of `size` tokens, each once. -/
def completeFragments (store : Store) (size : Nat) (results : List ResultId) :
    List FragmentId :=
  (ResultSet.ofList (results.filterMap fun id =>
    let result := store.result id
    match result.outcome with
    | .success fragment => if result.stop = size then some fragment else none
    | .failure _ => none)).toList

/-- The failures among the results, where a derivation that stops early is one; each kind once
at a position. -/
def failuresOf (store : Store) (size : Nat) (results : List ResultId) :
    List (FailureKind × Nat) :=
  let all := results.filterMap fun id =>
    let result := store.result id
    match result.outcome with
    | .success _ =>
      if result.stop = size then none
      else some (FailureKind.tokensRemaining (size - result.stop), result.stop)
    | .failure kind => some (store.failureKind kind, result.stop)
  all.foldl (fun found failure => if found.contains failure then found else found ++ [failure]) []

/-- The trees of the first `limit` derivations of the whole input, or of all without a limit. -/
def parseUpTo [Token τ ν] (g : Grammar) (config : ParserConfig) (limit : Option Nat)
    (id : PatternId) (tokens : Array τ) : Except (ParseError τ) (List (Tree ν)) := do
  let (results, store) ← recognize g config id tokens
  let complete := completeFragments store tokens.size results
  if complete.isEmpty then
    .error (.noMatch ((failuresOf store tokens.size results).map fun failure =>
      .make failure.1 failure.2 tokens config.lookahead))
  else
    let chosen := match limit with
      | some limit => complete.take limit
      | none => complete
    chosen.mapM (treeOf g store tokens id)

/-- The trees of all derivations of the whole input, in the order of discovery. -/
def parseAll [Token τ ν] (g : Grammar) (config : ParserConfig) (id : PatternId)
    (tokens : Array τ) : Except (ParseError τ) (List (Tree ν)) :=
  parseUpTo g config none id tokens

/-- The tree of the first derivation of the whole input. -/
def parseOne [Token τ ν] (g : Grammar) (config : ParserConfig) (id : PatternId)
    (tokens : Array τ) : Except (ParseError τ) (Tree ν) := do
  match ← parseUpTo g config (some 1) id tokens with
  | tree :: _ => pure tree
  | [] => .error (.noMatch [])

end ReversibleGrammar
