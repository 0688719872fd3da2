/-
The store of a recognition: everything it has made, by number.

* `Store.success`, `Store.failure` — a result, stored with what it refers to;
* `Store.mergeMaps` — the union of two recursion maps.
-/
import ReversibleGrammar.Recognizer.Result

namespace ReversibleGrammar

/-- Results, fragments, failures and recursion maps by number. -/
structure Store where
  results : Interner Result
  fragments : Interner Fragment
  failures : Interner FailureKind
  maps : Interner RecursionMap

namespace Store

/-- A store with the empty recursion map only. -/
def empty : Store := ⟨.empty, .empty, .empty, (Interner.empty.intern []).2⟩

/-- The result with a number. -/
def result (s : Store) (id : ResultId) : Result := s.results.get id

/-- The kind of failure with a number. -/
def failureKind (s : Store) (id : FailureId) : FailureKind := s.failures.get id

/-- The recursion map with a number. -/
def map (s : Store) (id : MapId) : RecursionMap := s.maps.get id

/-- Stores a success. -/
def success (fragment : Fragment) (stop : Nat) (map : MapId) : StateM Store ResultId
  | ⟨results, fragments, failures, maps⟩ =>
    let (fragment, fragments) := fragments.intern fragment
    let (id, results) := results.intern ⟨.success fragment, stop, map⟩
    (id, ⟨results, fragments, failures, maps⟩)

/-- Stores a failure. -/
def failure (kind : FailureKind) (position : Nat) (map : MapId) : StateM Store ResultId
  | ⟨results, fragments, failures, maps⟩ =>
    let (kind, failures) := failures.intern kind
    let (id, results) := results.intern ⟨.failure kind, position, map⟩
    (id, ⟨results, fragments, failures, maps⟩)

/-- The union of two recursion maps, where `right` counts if they differ. -/
def mergeMaps (left right : MapId) : StateM Store MapId
  | ⟨results, fragments, failures, maps⟩ =>
    if left = right || right = emptyMap then (left, ⟨results, fragments, failures, maps⟩)
    else if left = emptyMap then (right, ⟨results, fragments, failures, maps⟩)
    else
      let (id, maps) := maps.intern ((maps.get left).merge (maps.get right))
      (id, ⟨results, fragments, failures, maps⟩)

/-- The context inside a site. -/
def enter (context : Context) (site : Site) (depth : Nat) : StateM Store Context
  | ⟨results, fragments, failures, maps⟩ =>
    let (context, maps) := context.enter site depth maps
    (context, ⟨results, fragments, failures, maps⟩)

end Store

end ReversibleGrammar
