/-
The outline of a tree: one line per node, two spaces deeper per level.

A line names the kind of the node, then the token, text, rule or alternative that
tells it from others of its kind, then its name in shapes.  Separators stand
between the items they separate.
-/
import ReversibleGrammar.Grammar.Basic
import ReversibleGrammar.Token
import ReversibleGrammar.Tree.Basic

namespace ReversibleGrammar.Tree

/-- What tells a node from others of its kind. -/
def detail? [TokenText ν] (g : Grammar) : Tree ν → Option String
  | leaf _ value => some (Text.quote (TokenText.text value))
  | choice p index _ =>
    match p.kind with
    | .choice _ _ (some names) => some ((names[index]?).getD ("#" ++ toString index))
    | _ => some ("#" ++ toString index)
  | absent _ => some "(absent)"
  | wrapped p _ =>
    match p.kind with
    | .thunk rule => g.ruleName? rule
    | _ => none
  | mark p =>
    match p.kind with
    | .literal text => some (Text.quote text)
    | _ => none
  | _ => none

/-- The line of a node. -/
def heading [TokenText ν] (g : Grammar) (t : Tree ν) : String :=
  let detail := match t.detail? g with
    | some detail => " " ++ detail
    | none => ""
  let name := match t.name? with
    | some name => " as " ++ name
    | none => ""
  t.pattern.kind.tag ++ detail ++ name

/-- A line at a depth. -/
def outlineLine (depth : Nat) (text : String) : String :=
  String.ofList (List.replicate (2 * depth) ' ') ++ text ++ "\n"

mutual

/-- The lines of a tree whose root is at a depth. -/
def outlineLines [TokenText ν] (g : Grammar) (depth : Nat) (t : Tree ν) : List String :=
  outlineLine depth (t.heading g) ::
    match t with
    | leaf _ _ | absent _ | mark _ => []
    | sequence _ children => (outlineEach g (depth + 1) children).flatten
    | choice _ _ chosen => outlineLines g (depth + 1) chosen
    | many _ items separators =>
      (interleave (outlineEach g (depth + 1) items) (outlineEach g (depth + 1) separators)).flatten
    | present _ item => outlineLines g (depth + 1) item
    | wrapped _ child => outlineLines g (depth + 1) child

/-- The lines of each of several trees whose roots are at a depth. -/
def outlineEach [TokenText ν] (g : Grammar) (depth : Nat) : List (Tree ν) → List (List String)
  | [] => []
  | t :: ts => outlineLines g depth t :: outlineEach g depth ts

end

/-- One line per node, each ended by a new line. -/
def outline [TokenText ν] (g : Grammar) (t : Tree ν) : String := String.join (outlineLines g 0 t)

end ReversibleGrammar.Tree
