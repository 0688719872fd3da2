/-
Grammars: patterns, rules and labels by number.

* `Grammar.Closed` — every number that occurs in the grammar is in range, so that
  no look-up in it fails;
* `Grammar.rule?` — the body of a rule by name.
-/
import ReversibleGrammar.Grammar.Pattern

namespace ReversibleGrammar

/-- A named pattern. -/
structure Rule where
  name : String
  body : PatternId
  deriving DecidableEq, Repr, Inhabited

/-- Patterns, rules in the order of their first mention, and labels. -/
structure Grammar where
  patterns : Array Pattern
  rules : Array Rule
  labels : Array String
  deriving Inhabited, Repr

namespace Grammar

/-- The number of patterns. -/
def size (g : Grammar) : Nat := g.patterns.size

/-- The pattern with a number. -/
def pattern? (g : Grammar) (id : PatternId) : Option Pattern := g.patterns[id]?

/-- The body of the rule with a number. -/
def ruleBody? (g : Grammar) (rule : RuleId) : Option PatternId := (g.rules[rule]?).map (·.body)

/-- The name of the rule with a number. -/
def ruleName? (g : Grammar) (rule : RuleId) : Option String := (g.rules[rule]?).map (·.name)

/-- The body of the rule called `name`. -/
def rule? (g : Grammar) (name : String) : Option PatternId :=
  (g.rules.find? (·.name == name)).map (·.body)

/-- The text of the label with a number. -/
def labelText? (g : Grammar) (label : LabelId) : Option String := g.labels[label]?

/-- Every number that a pattern mentions is in range. -/
structure ClosedAt (g : Grammar) (p : Pattern) : Prop where
  children_lt : ∀ c ∈ p.kind.children, c < g.patterns.size
  rule_lt : ∀ r, p.kind = .thunk r → r < g.rules.size
  label_lt : ∀ l, p.label = some l → l < g.labels.size
  typeNames_length : ∀ alternatives mode names,
    p.kind = .choice alternatives mode (some names) → names.length = alternatives.length

/-- Every pattern is at its number, and every number that occurs is in range. -/
structure Closed (g : Grammar) : Prop where
  id_eq : ∀ (i : Nat) (p : Pattern), g.patterns[i]? = some p → p.id = i
  closedAt : ∀ (i : Nat) (p : Pattern), g.patterns[i]? = some p → g.ClosedAt p
  body_lt : ∀ (r : Nat) (rule : Rule), g.rules[r]? = some rule → rule.body < g.patterns.size

end Grammar

end ReversibleGrammar
