/-
Why a tree has no shape, or a shape no tree.
-/
import ReversibleGrammar.Grammar.Pattern
import ReversibleGrammar.Shape.Printer

namespace ReversibleGrammar

/-- Why shapes and trees do not convert. -/
inductive ShapeError where
  /-- A named part is not in the shape. -/
  | missingField (field : String) (shape : Shape)
  /-- The shape of a repetition is no list. -/
  | expectedList (field : String) (shape : Shape)
  /-- A pattern whose choice only its name could record has none. -/
  | unnamed (kind : String)
  /-- An option is named to be merged. -/
  | mergedOption
  | unknownAlternative (kind : String)
  | untaggedValue (shape : Shape)
  /-- The shape of a choice with this label means nothing. -/
  | unknownOr (label : String) (shape : Shape)
  | invalidToken (terminal : String) (shape : Shape)
  /-- A pattern number out of range. -/
  | unknownPattern (id : PatternId)
  /-- A rule number out of range. -/
  | unknownRule (id : RuleId)
  /-- The fuel did not last. -/
  | outOfFuel
  deriving Repr, Inhabited

/-- The message of an error. -/
def ShapeError.message : ShapeError → String
  | missingField field shape => "expected '" ++ field ++ "' in " ++ shape.compact
  | expectedList field shape =>
    "expected a list for '" ++ field ++ "', found " ++ shape.compact
  | unnamed kind => "pattern '" ++ kind ++ "' must have an 'as' name"
  | mergedOption => "option patterns can't use '.' for their 'as' name"
  | unknownAlternative kind => "no alternative of type '" ++ kind ++ "'"
  | untaggedValue shape => "expected a tagged value with a 'type', found " ++ shape.compact
  | unknownOr label shape => "unknown 'or' value (label: " ++ label ++ "): " ++ shape.compact
  | invalidToken terminal shape =>
    "cannot turn " ++ shape.compact ++ " into a '" ++ terminal ++ "' token"
  | unknownPattern id => toString id ++ ": no such pattern"
  | unknownRule id => toString id ++ ": no such rule"
  | outOfFuel => "out of fuel"

end ReversibleGrammar
