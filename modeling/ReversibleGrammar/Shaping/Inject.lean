/-
The tree that a shape describes.

The pattern drives the walk: every node of the tree is the node its pattern calls
for, and names are looked up in the shape.  Separators and unnamed tokens have no
shape of their own; separators come from an empty object, unnamed tokens from
their type.

* `injectTo` — the tree of a shape, to a depth;
* `inject` — the same as far as the fuel goes.
-/
import ReversibleGrammar.Grammar.Basic
import ReversibleGrammar.Shaping.Codec
import ReversibleGrammar.Text.Numeral
import ReversibleGrammar.Tree.Basic

namespace ReversibleGrammar

/-- The shape under a name, or the shape itself for the name that merges. -/
def Shape.fieldOf (name : String) (shape : Shape) : Except ShapeError Shape :=
  if name = mergeName then .ok shape
  else
    match shape.get? name with
    | some value => .ok value
    | none => .error (.missingField name shape)

/-- The value under the field that was selected, if one was. -/
def unselect (select : Option String) (value : Shape) : Shape :=
  match select with
  | some field => .under field value
  | none => value

/-- The index of the alternative that a kind names. -/
def alternativeIndex? (alternatives : List PatternId) (typeNames : Option (List String))
    (kind : String) : Option Nat :=
  let index := match typeNames with
    | some names => names.findIdx? (· == kind)
    | none => Text.natural? kind
  index.filter (· < alternatives.length)

/-- The tree that a shape describes for a pattern, to a depth. -/
def injectTo (g : Grammar) (codec : ShapeCodec ν) :
    Nat → PatternId → Shape → Except ShapeError (Tree ν)
  | 0, _, _ => .error .outOfFuel
  | depth + 1, id, shape =>
    match g.pattern? id with
    | none => .error (.unknownPattern id)
    | some p =>
      match p.kind with
      | .thunk rule => do
        let inner ← shape.fieldOf (p.name.getD mergeName)
        match g.ruleBody? rule with
        | some body => pure (.wrapped p (← injectTo g codec depth body inner))
        | none => .error (.unknownRule rule)
      | .group child | .indent child | .conditional child _ _ _ => do
        pure (.wrapped p (← injectTo g codec depth child shape))
      | .literal _ | .line _ => .ok (.mark p)
      | .consume terminal =>
        match p.name with
        | some name => do
          let value ← shape.fieldOf name
          pure (.leaf p (← codec.shapeToken value terminal))
        | none => .ok (.leaf p (codec.terminalToken terminal))
      | .sequence children => do
        let inner := unselect p.select (← shape.fieldOf (p.name.getD mergeName))
        pure (.sequence p (← children.mapM fun child => injectTo g codec depth child inner))
      | .choice alternatives _ typeNames =>
        match p.name with
        | none => .error (.unnamed "or")
        | some name => do
          let value ← shape.fieldOf name
          let tagged ← codec.shapeTagged value (p.label.bind g.labelText?)
          match alternativeIndex? alternatives typeNames tagged.kind with
          | none => .error (.unknownAlternative tagged.kind)
          | some index =>
            match alternatives[index]? with
            | none => .error (.unknownAlternative tagged.kind)
            | some alternative =>
              pure (.choice p index (← injectTo g codec depth alternative tagged.value))
      | .many item separator =>
        match p.name with
        | none => .error (.unnamed "many")
        | some name => do
          match ← shape.fieldOf name with
          | .list shapes => do
            let items ← shapes.mapM fun shape => injectTo g codec depth item shape
            let separators ← match separator with
              | some separator =>
                (List.range (items.length - 1)).mapM fun _ =>
                  injectTo g codec depth separator (.object [])
              | none => pure []
            pure (.many p items separators)
          | value => .error (.expectedList name value)
      | .option item =>
        match p.name with
        | none => .error (.unnamed "option")
        | some name =>
          if name = mergeName then .error .mergedOption
          else
            let value := shape.getD name
            if value.equals (p.absent.getD .null) || value.isNull then .ok (.absent p)
            else do pure (.present p (← injectTo g codec depth item (unselect p.select value)))

/-- The default fuel of an injection. -/
def injectFuel : Nat := Nat.pow 2 60

/-- The tree that a shape describes for a pattern. -/
def inject (g : Grammar) (codec : ShapeCodec ν) (id : PatternId) (shape : Shape) :
    Except ShapeError (Tree ν) :=
  injectTo g codec injectFuel id shape

end ReversibleGrammar
