/-
The shape of a tree.

Names of patterns become fields, repetitions lists and named choices tagged
values.  Unnamed tokens, unnamed options and layout leave no trace.  A sequence
merges the fields of its children and drops null fields.

* `Tree.extract` — the shape of a tree.
-/
import ReversibleGrammar.Grammar.Basic
import ReversibleGrammar.Shaping.Codec
import ReversibleGrammar.Tree.Basic

namespace ReversibleGrammar

/-- The fields of the object shapes of a list, later ones over earlier ones, without nulls. -/
def mergeShapes (shapes : List Shape) : Fields :=
  let merged := shapes.foldl
    (fun merged shape =>
      match shape with
      | .object fields => Fields.merge merged fields
      | _ => merged)
    ([] : Fields)
  merged.filter fun field => !field.2.isNull

/-- The type name of an alternative, or its index. -/
def alternativeName (p : Pattern) (index : Nat) : String :=
  match p.kind with
  | .choice _ _ (some names) => (names[index]?).getD (toString index)
  | _ => toString index

/-- The shape of a sequence from those of its children. -/
def sequenceShape (p : Pattern) (shapes : List Shape) : Shape :=
  let whole := Shape.under (p.name.getD mergeName) (.object (mergeShapes shapes))
  match p.select with
  | some field => whole.getD field
  | none => whole

/-- The shape of a named option from that of its content, which is the shape of an absent option
if there is no item. -/
def optionShape (p : Pattern) (name : String) (content : Shape) : Shape :=
  let absent := p.absent.getD .null
  match p.select with
  | some field =>
    if content.equals absent then .under name content else .under name (content.getD field)
  | none => .under name content

namespace Tree

mutual

/-- The shape of a tree. -/
def extract (g : Grammar) (codec : ShapeCodec ν) : Tree ν → Except ShapeError Shape
  | leaf p value =>
    match p.name with
    | some name => .ok (.under name (codec.tokenShape value))
    | none => .ok .null
  | sequence p children => do pure (sequenceShape p (← extractAll g codec children))
  | choice p index chosen =>
    match p.name with
    | none => chosen.extract g codec
    | some name => do
      let value ← chosen.extract g codec
      let label := p.label.bind g.labelText?
      pure (.under name (← codec.taggedShape ⟨alternativeName p index, value⟩ label))
  | many p items _ => do
    let shapes ← extractAll g codec items
    match p.name with
    | some name => pure (.under name (.list shapes))
    | none => pure (.list shapes)
  | absent p =>
    match p.name with
    | some name => .ok (optionShape p name (p.absent.getD .null))
    | none => .ok .null
  | present p item =>
    match p.name with
    | some name => do pure (optionShape p name (← item.extract g codec))
    | none => .ok .null
  | wrapped p child => do
    let shape ← child.extract g codec
    match p.kind with
    | .thunk _ => pure (.under (p.name.getD mergeName) shape)
    | _ => pure shape
  | mark _ => .ok .null

/-- The shapes of several trees. -/
def extractAll (g : Grammar) (codec : ShapeCodec ν) : List (Tree ν) → Except ShapeError (List Shape)
  | [] => .ok []
  | t :: ts => do
    let shape ← t.extract g codec
    let shapes ← extractAll g codec ts
    pure (shape :: shapes)

end

end Tree

end ReversibleGrammar
