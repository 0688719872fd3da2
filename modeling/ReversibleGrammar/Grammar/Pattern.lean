/-
Patterns: the nodes of a grammar.

A pattern either matches input — one token, a sequence, a choice, a repetition,
an option, or the rule a thunk refers to — or only carries layout for printing
and matches without looking at a token of its own.  Patterns refer to each other
by number; a thunk refers to a rule, so that rules may be used before they are
defined.

* `PatternKind.children` — the patterns a pattern refers to directly;
* `Pattern.recognizer` — patterns with one label are one recognizer.
-/
import ReversibleGrammar.Doc.Basic
import ReversibleGrammar.Shape.Basic

namespace ReversibleGrammar

/-- The number of a pattern in its grammar. -/
abbrev PatternId := Nat

/-- The number of a rule in its grammar. -/
abbrev RuleId := Nat

/-- The number of a label in its grammar. -/
abbrev LabelId := Nat

/-- Layout written before or after a conditional pattern. -/
inductive Decoration where
  | literal (text : String)
  | line (kind : LineKind)
  deriving DecidableEq, Repr, Inhabited

/-- Which alternatives of a choice count. -/
inductive ChoiceMode where
  /-- The successes of the first alternative that has any. -/
  | ordered
  /-- The successes of every alternative. -/
  | parallel
  deriving DecidableEq, Repr, Inhabited

/-- What a pattern matches. -/
inductive PatternKind where
  /-- One token of type `terminal`. -/
  | consume (terminal : String)
  | sequence (children : List PatternId)
  /-- One of the alternatives; `typeNames` names them in shapes. -/
  | choice (alternatives : List PatternId) (mode : ChoiceMode) (typeNames : Option (List String))
  /-- Any number of items, with separators between them. -/
  | many (item : PatternId) (separator : Option PatternId)
  | option (item : PatternId)
  /-- The body of a rule. -/
  | thunk (rule : RuleId)
  /-- Text that is printed and never matched. -/
  | literal (text : String)
  | line (kind : LineKind)
  | indent (child : PatternId)
  | group (child : PatternId)
  /-- The child, printed between `before` and `after` if what `reference` names is not empty. -/
  | conditional (child : PatternId) (reference : String) (before after : Option Decoration)
  deriving DecidableEq, Repr, Inhabited

namespace PatternKind

/-- The name of a kind in messages. -/
def tag : PatternKind → String
  | consume _ => "consume"
  | sequence _ => "sequence"
  | choice .. => "or"
  | many .. => "many"
  | option _ => "option"
  | thunk _ => "thunk"
  | literal _ => "literal"
  | line _ => "line"
  | indent _ => "indent"
  | group _ => "group"
  | conditional .. => "if"

/-- Carries layout and matches no token of its own. -/
def isLayout : PatternKind → Bool
  | literal _ | line _ | indent _ | group _ | conditional .. => true
  | _ => false

/-- The patterns a pattern refers to directly; rule bodies are not among them. -/
def children : PatternKind → List PatternId
  | sequence children => children
  | choice alternatives _ _ => alternatives
  | many item separator => item :: separator.toList
  | option item => [item]
  | indent child => [child]
  | group child => [child]
  | conditional child _ _ _ => [child]
  | consume _ | thunk _ | literal _ | line _ => []

end PatternKind

/-- What results are remembered under: patterns with one label are one recognizer. -/
inductive Recognizer where
  | label (label : LabelId)
  | pattern (pattern : PatternId)
  deriving DecidableEq, Hashable, Repr, Inhabited

/-- A pattern and its attributes. -/
structure Pattern where
  id : PatternId
  kind : PatternKind
  /-- The field of its match in shapes; `mergeName` stands for the fields around it. -/
  name : Option String := none
  label : Option LabelId := none
  /-- The field that the shape of a sequence or of an option is reduced to. -/
  select : Option String := none
  /-- The shape of an absent option. -/
  absent : Option Shape := none
  deriving Inhabited, Repr

/-- The name under which a match is merged into the shape around it. -/
def mergeName : String := "."

/-- The recognizer of a pattern. -/
def Pattern.recognizer (pattern : Pattern) : Recognizer :=
  match pattern.label with
  | some label => .label label
  | none => .pattern pattern.id

end ReversibleGrammar
