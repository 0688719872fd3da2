/-
Trees as documents, and their text.

Tokens print as their values; texts, lines, indentation and groups come from the
layout in the grammar.  The decorations of a conditional are written when the
node that its reference names, in the conditional itself, is not empty.

* `Tree.toDoc` — the document of a tree;
* `Tree.print` — its layout, the whole being one group.
-/
import ReversibleGrammar.Doc.Render
import ReversibleGrammar.Token
import ReversibleGrammar.Tree.Basic

namespace ReversibleGrammar

/-- The document of a decoration; without one nothing is written. -/
def Decoration.toDoc : Option Decoration → Doc
  | some (.literal text) => .text text
  | some (.line kind) => .line kind
  | none => .nil

namespace Tree

/-- What `reference` names is in the tree and not empty. -/
def holdsTruthy (reference : String) (t : Tree ν) : Bool :=
  match t.findNamed? reference with
  | some found => found.isTruthy
  | none => false

/-- The document of a node that wraps a child with the document `inner`. -/
def wrapDoc (p : Pattern) (child : Tree ν) (inner : Doc) : Doc :=
  match p.kind with
  | .indent _ => .indent inner
  | .group _ => .group inner
  | .conditional _ reference before after =>
    if (wrapped p child).holdsTruthy reference then
      .join [Decoration.toDoc before, inner, Decoration.toDoc after]
    else inner
  | _ => inner

mutual

/-- The document of a tree. -/
def toDoc [TokenText ν] : Tree ν → Doc
  | leaf _ value => .text (TokenText.text value)
  | sequence _ children => .join (toDocs children)
  | choice _ _ chosen => chosen.toDoc
  | many _ items separators => .join (interleave (toDocs items) (toDocs separators))
  | absent _ => .nil
  | present _ item => item.toDoc
  | wrapped p child => wrapDoc p child child.toDoc
  | mark p =>
    match p.kind with
    | .literal text => .text text
    | .line kind => .line kind
    | _ => .nil

/-- The documents of several trees. -/
def toDocs [TokenText ν] : List (Tree ν) → List Doc
  | [] => []
  | t :: ts => t.toDoc :: toDocs ts

end

/-- The text of a tree: one line if it fits in the width. -/
def print [TokenText ν] (t : Tree ν) (config : PrintConfig) : String :=
  render (.group t.toDoc) config

end Tree

end ReversibleGrammar
