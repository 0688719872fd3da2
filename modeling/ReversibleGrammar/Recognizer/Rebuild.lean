/-
Reading fragments back as trees.

A fragment carries no pattern, so it is read along the pattern that it is meant
for, which also checks that it has the form the pattern calls for.  Patterns that
share a label share results, and only then can the check fail.  The number of a
value is the position of a token that has it.

* `sequenceParts?`, `manyParts?` — the parts of a sequence or repetition, from the
  chain of its prefixes;
* `rebuild` — the tree of a fragment.

A fragment refers to smaller numbers only, so a fragment's own number bounds the
depth of its tree.
-/
import ReversibleGrammar.Recognizer.Machine
import ReversibleGrammar.Token
import ReversibleGrammar.Tree.Basic

namespace ReversibleGrammar

/-- The children of a sequence. -/
def sequenceParts? (fragments : Interner Fragment) : Nat → FragmentId → Option (List FragmentId)
  | 0, _ => none
  | depth + 1, id =>
    match fragments.get? id with
    | some .sequenceStart => some []
    | some (.sequenceStep before last) =>
      (sequenceParts? fragments depth before).map (· ++ [last])
    | _ => none

/-- The items and the separators of a repetition. -/
def manyParts? (fragments : Interner Fragment) :
    Nat → FragmentId → Option (List FragmentId × List FragmentId)
  | 0, _ => none
  | depth + 1, id =>
    match fragments.get? id with
    | some .manyStart => some ([], [])
    | some (.manyItem before item) =>
      (manyParts? fragments depth before).map fun parts => (parts.1 ++ [item], parts.2)
    | some (.manySeparator before separator) =>
      (manyParts? fragments depth before).map fun parts => (parts.1, parts.2 ++ [separator])
    | _ => none

/-- The tree of a fragment along a pattern, to a depth; the leaves keep the values of their
tokens. -/
def rebuildTo [Token τ ν] (g : Grammar) (fragments : Interner Fragment) (tokens : Array τ) :
    Nat → PatternId → FragmentId → Except Fault (Tree ν)
  | 0, id, _ => .error (.cannotHold id "")
  | depth + 1, id, fragment =>
    match g.pattern? id with
    | none => .error (.unknownPattern id)
    | some p =>
      let mismatch : Except Fault (Tree ν) := .error (.cannotHold id p.kind.tag)
      let wrap (child : PatternId) (inner : FragmentId) : Except Fault (Tree ν) :=
        (rebuildTo g fragments tokens depth child inner).map (.wrapped p)
      match p.kind, fragments.get fragment with
      | .consume _, .leaf value =>
        match tokens[value]? with
        | some token => .ok (.leaf p (Token.value token))
        | none => mismatch
      | .sequence children, _ =>
        match sequenceParts? fragments (fragment + 1) fragment with
        | some parts =>
          if children.length = parts.length then do
            let trees ← (children.zip parts).mapM fun (child, part) =>
              rebuildTo g fragments tokens depth child part
            pure (.sequence p trees)
          else mismatch
        | none => mismatch
      | .choice alternatives _ _, .choice index chosen =>
        match alternatives[index]? with
        | some alternative =>
          (rebuildTo g fragments tokens depth alternative chosen).map (.choice p index)
        | none => .error (.noAlternative id index)
      | .many item separator, _ =>
        match manyParts? fragments (fragment + 1) fragment with
        | some (items, separators) => do
          let items ← items.mapM (rebuildTo g fragments tokens depth item)
          match separator with
          | some separator =>
            let separators ← separators.mapM (rebuildTo g fragments tokens depth separator)
            pure (.many p items separators)
          | none =>
            if separators.isEmpty then pure (.many p items [])
            else .error (.straySeparators id)
        | none => mismatch
      | .option _, .absent => .ok (.absent p)
      | .option item, .present inner =>
        (rebuildTo g fragments tokens depth item inner).map (.present p)
      | .thunk rule, .wrapped .thunk inner =>
        match g.ruleBody? rule with
        | some body => wrap body inner
        | none => .error (.unknownRule rule)
      | .indent child, .wrapped .indent inner => wrap child inner
      | .group child, .wrapped .group inner => wrap child inner
      | .conditional child _ _ _, .wrapped .conditional inner => wrap child inner
      | .literal _, .mark .literal => .ok (.mark p)
      | .line _, .mark .line => .ok (.mark p)
      | _, _ => mismatch

/-- The tree of a fragment along a pattern. -/
def rebuild [Token τ ν] (g : Grammar) (fragments : Interner Fragment) (tokens : Array τ)
    (id : PatternId) (fragment : FragmentId) : Except Fault (Tree ν) :=
  rebuildTo g fragments tokens (fragment + 1) id fragment

end ReversibleGrammar
