/-
The description of a tree: its whole structure in one line, for inspection.

Every node shows the number and the kind of its pattern and what it holds.
-/
import ReversibleGrammar.Token
import ReversibleGrammar.Tree.Basic

namespace ReversibleGrammar.Tree

/-- The name of a node in descriptions. -/
def nodeName : PatternKind → String
  | .consume _ => "Consume"
  | .sequence _ => "Sequence"
  | .choice .. => "Or"
  | .many .. => "Many"
  | .option _ => "Option"
  | .thunk _ => "Thunk"
  | .literal _ => "Literal"
  | .line _ => "Line"
  | .indent _ => "Indent"
  | .group _ => "Group"
  | .conditional .. => "If"

/-- A record: its name, and its fields between braces. -/
def describeRecord (name : String) (fields : List (String × String)) : String :=
  name ++ " \x7b " ++ ", ".intercalate (fields.map fun f => f.1 ++ ": " ++ f.2) ++ " \x7d"

/-- A list between brackets. -/
def describeList (items : List String) : String := "[" ++ ", ".intercalate items ++ "]"

/-- A node with its pattern. -/
def describeNode (p : Pattern) (content : String) : String :=
  describeRecord "Parse"
    [("pattern", "PatternId(" ++ toString p.id ++ ")"), ("kind", Text.quote p.kind.tag),
     ("node", content)]

mutual

/-- The whole structure of a tree in one line. -/
def describe [TokenText ν] : Tree ν → String
  | leaf p value => describeNode p (nodeName p.kind ++ "(" ++ TokenText.describe value ++ ")")
  | sequence p children =>
    describeNode p (nodeName p.kind ++ "(" ++ describeList (describeEach children) ++ ")")
  | choice p index chosen =>
    describeNode p
      (describeRecord (nodeName p.kind) [("index", toString index), ("choice", chosen.describe)])
  | many p items separators =>
    describeNode p
      (describeRecord (nodeName p.kind)
        [("items", describeList (describeEach items)),
         ("separators", describeList (describeEach separators))])
  | absent p => describeNode p (nodeName p.kind ++ "(None)")
  | present p item => describeNode p (nodeName p.kind ++ "(Some(" ++ item.describe ++ "))")
  | wrapped p child => describeNode p (nodeName p.kind ++ "(" ++ child.describe ++ ")")
  | mark p => describeNode p (nodeName p.kind)

/-- The descriptions of several trees. -/
def describeEach [TokenText ν] : List (Tree ν) → List String
  | [] => []
  | t :: ts => t.describe :: describeEach ts

end

end ReversibleGrammar.Tree
