/-
How tokens and choices look as shapes.

* `Tagged` — a choice as plain data: which alternative, and its shape;
* `ofShape?_toShape` — a tagged value is read back from its shape;
* `ShapeCodec` — the shapes of tokens and choices of one kind of grammar.
-/
import ReversibleGrammar.Shaping.Error

namespace ReversibleGrammar

/-- The alternative that matched, by type name or index, and its shape. -/
structure Tagged where
  kind : String
  value : Shape
  deriving Repr, Inhabited

namespace Tagged

/-- An object with `type` and `value`. -/
def toShape (t : Tagged) : Shape := .object [("type", .text t.kind), ("value", t.value)]

/-- Reads an object with a `type`, a string or a number; without a `value` that is null. -/
def ofShape (shape : Shape) : Except ShapeError Tagged :=
  match shape.get? "type" with
  | some (.text kind) => .ok ⟨kind, shape.getD "value"⟩
  | some (.number index) => .ok ⟨index.write, shape.getD "value"⟩
  | _ => .error (.untaggedValue shape)

theorem ofShape_toShape (t : Tagged) : ofShape t.toShape = .ok t := by
  simp [ofShape, toShape, Shape.get?, Shape.getD, Fields.get?]

end Tagged

/-- How tokens with values `ν` and choices appear in shapes. -/
structure ShapeCodec (ν : Type) where
  /-- The shape of a named token. -/
  tokenShape : ν → Shape
  /-- The token of a type that a shape describes. -/
  shapeToken : Shape → String → Except ShapeError ν
  /-- The token that an unnamed token pattern of a type stands for. -/
  terminalToken : String → ν
  /-- The shape of a named choice with a label. -/
  taggedShape : Tagged → Option String → Except ShapeError Shape := fun t _ => .ok t.toShape
  /-- The choice that a shape describes. -/
  shapeTagged : Shape → Option String → Except ShapeError Tagged := fun s _ => Tagged.ofShape s

/-- Tokens that are texts: a token and its shape are the same text. -/
def textCodec : ShapeCodec String where
  tokenShape token := .text token
  shapeToken shape terminal :=
    match shape with
    | .text token => .ok token
    | shape => .error (.invalidToken terminal shape)
  terminalToken terminal := terminal

/-- `shape` under `name`, or alone under the name that merges. -/
def Shape.under (name : String) (shape : Shape) : Shape :=
  if name = mergeName then shape else .object [(name, shape)]

end ReversibleGrammar
