/-
Trees: what a pattern matched.

A tree has one node for each pattern of a derivation and keeps the pattern in the
node, so that printing and shaping read names and layout from the tree alone.

* `Tree.values` — the values of the leaves in the order of the input, separators
  standing between the items they separate;
* `Tree.findNamed?` — the first node with a name, parents before children;
* `Tree.agrees` — equality that compares patterns by number.
-/
import ReversibleGrammar.Grammar.Pattern

namespace ReversibleGrammar

/-- A derivation with values `ν` at its leaves. -/
inductive Tree (ν : Type) where
  /-- A matched token. -/
  | leaf (pattern : Pattern) (value : ν)
  | sequence (pattern : Pattern) (children : List (Tree ν))
  /-- The alternative with this index. -/
  | choice (pattern : Pattern) (index : Nat) (chosen : Tree ν)
  | many (pattern : Pattern) (items separators : List (Tree ν))
  /-- An option without its item. -/
  | absent (pattern : Pattern)
  /-- An option with its item. -/
  | present (pattern : Pattern) (item : Tree ν)
  /-- A thunk, or layout around a child. -/
  | wrapped (pattern : Pattern) (child : Tree ν)
  /-- Layout without a child. -/
  | mark (pattern : Pattern)
  deriving Inhabited, Repr

/-- `xs` with `ys` between them: each of `xs` is followed by the one of `ys` at its place. -/
def interleave : List α → List α → List α
  | [], _ => []
  | x :: xs, [] => x :: interleave xs []
  | x :: xs, y :: ys => x :: y :: interleave xs ys

@[simp] theorem interleave_nil (xs : List α) : interleave xs [] = xs := by
  induction xs with
  | nil => rfl
  | cons x xs ih => simp [interleave, ih]

namespace Tree

/-- The pattern of the root. -/
def pattern : Tree ν → Pattern
  | leaf p _ | sequence p _ | choice p _ _ | many p _ _ | absent p | present p _ | wrapped p _
  | mark p => p

/-- The name of the root's pattern. -/
def name? (t : Tree ν) : Option String := t.pattern.name

/-- The trees below the root; items stand before separators. -/
def children : Tree ν → List (Tree ν)
  | leaf _ _ | absent _ | mark _ => []
  | sequence _ children => children
  | choice _ _ chosen => [chosen]
  | many _ items separators => items ++ separators
  | present _ item => [item]
  | wrapped _ child => [child]

/-- Is neither an empty repetition nor an absent option. -/
def isTruthy : Tree ν → Bool
  | many _ items _ => !items.isEmpty
  | absent _ => false
  | _ => true

mutual

/-- The first node called `name`: the root, or else the first below it. -/
def findNamed? (name : String) : Tree ν → Option (Tree ν)
  | leaf p v => if p.name = some name then some (leaf p v) else none
  | sequence p children =>
    if p.name = some name then some (sequence p children) else findNamedIn? name children
  | choice p i chosen =>
    if p.name = some name then some (choice p i chosen) else chosen.findNamed? name
  | many p items separators =>
    if p.name = some name then some (many p items separators)
    else (findNamedIn? name items).or (findNamedIn? name separators)
  | absent p => if p.name = some name then some (absent p) else none
  | present p item =>
    if p.name = some name then some (present p item) else item.findNamed? name
  | wrapped p child =>
    if p.name = some name then some (wrapped p child) else child.findNamed? name
  | mark p => if p.name = some name then some (mark p) else none

/-- The first node called `name` in several trees. -/
def findNamedIn? (name : String) : List (Tree ν) → Option (Tree ν)
  | [] => none
  | t :: ts => (t.findNamed? name).or (findNamedIn? name ts)

end

mutual

/-- The values of the leaves, in the order of the input. -/
def values : Tree ν → List ν
  | leaf _ v => [v]
  | sequence _ children => (valuesEach children).flatten
  | choice _ _ chosen => chosen.values
  | many _ items separators => (interleave (valuesEach items) (valuesEach separators)).flatten
  | absent _ | mark _ => []
  | present _ item => item.values
  | wrapped _ child => child.values

/-- The values of each of several trees. -/
def valuesEach : List (Tree ν) → List (List ν)
  | [] => []
  | t :: ts => t.values :: valuesEach ts

end

theorem valuesEach_eq_map (ts : List (Tree ν)) : valuesEach ts = ts.map values := by
  induction ts with
  | nil => rfl
  | cons t ts ih => simp [valuesEach, ih]

mutual

/-- The trees have the same form, with patterns of the same numbers and equal values. -/
def agrees [BEq ν] : Tree ν → Tree ν → Bool
  | leaf p v, leaf q w => p.id == q.id && v == w
  | sequence p ts, sequence q us => p.id == q.id && agreeAll ts us
  | choice p i t, choice q j u => p.id == q.id && i == j && t.agrees u
  | many p ts ss, many q us vs => p.id == q.id && agreeAll ts us && agreeAll ss vs
  | absent p, absent q => p.id == q.id
  | present p t, present q u => p.id == q.id && t.agrees u
  | wrapped p t, wrapped q u => p.id == q.id && t.agrees u
  | mark p, mark q => p.id == q.id
  | _, _ => false

/-- The trees agree one by one. -/
def agreeAll [BEq ν] : List (Tree ν) → List (Tree ν) → Bool
  | [], [] => true
  | t :: ts, u :: us => t.agrees u && agreeAll ts us
  | _, _ => false

end

end Tree

end ReversibleGrammar
