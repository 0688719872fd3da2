/-
Where matches stop.

What a pattern calls, and whether it matches, depends on the stops of its matches only.

* `Readings.stops` — the stops of the matches of a pattern;
* `stops_consume`, `stops_wrapped`, `stops_ordered`, `stops_sequence` — they are determined by
  the stops of the parts;
* `Readings.callsFrom` — and so are the calls of a sequence.
-/
import ReversibleGrammar.Proofs.Grammar.Calls

namespace ReversibleGrammar

namespace Readings

variable {ν : Type} (read : Readings ν)

/-- Where the matches of a pattern stop, in their order. -/
def stops (id : PatternId) (i : Nat) : List Nat := (read id i).map Prod.snd

/-- Where the matches of patterns that follow each other stop. -/
def stopsAll : List PatternId → Nat → List Nat
  | [], i => [i]
  | child :: later, i => (read.stops child i).flatMap (stopsAll later)

/-- The calls of patterns that follow each other, from stop to stop. -/
def callsFrom : List PatternId → List Nat → List Call
  | [], _ => []
  | child :: later, js =>
    js.map (fun j => (child, j)) ++ callsFrom later (js.flatMap (read.stops child))

end Readings

section

variable {ν : Type} {read : Readings ν} {id : PatternId} {i j : Nat}

theorem mem_stops : j ∈ read.stops id i ↔ ∃ y ∈ read id i, y.2 = j := List.mem_map

theorem stops_eq_nil : read.stops id i = [] ↔ read id i = [] := List.map_eq_nil_iff

theorem length_stops : (read.stops id i).length = (read id i).length := List.length_map _

theorem prefixes_cons (read : Readings ν) (child : PatternId) (later : List PatternId) (i : Nat) :
    read.prefixes (child :: later) i = (read child i).flatMap fun y =>
      (read.prefixes later y.2).map fun x => (y.1 :: x.1, x.2) := by
  induction later using List.reverseRecOn with
  | nil => simp [Readings.prefixes, Readings.extendPrefix, List.map_eq_flatMap]
  | append_singleton later last ih =>
    rw [← List.cons_append, prefixes_append_singleton, ih, List.flatMap_assoc]
    refine List.flatMap_congr fun y _ => ?_
    rw [prefixes_append_singleton, List.map_flatMap, List.flatMap_map]
    refine List.flatMap_congr fun x _ => ?_
    simp [Readings.extendPrefix]

theorem map_prefixes (read : Readings ν) (children : List PatternId) (i : Nat) :
    (read.prefixes children i).map Prod.snd = read.stopsAll children i := by
  induction children generalizing i with
  | nil => rfl
  | cons child later ih =>
    rw [prefixes_cons, List.map_flatMap, Readings.stopsAll, Readings.stops, List.flatMap_map]
    refine List.flatMap_congr fun y _ => ?_
    rw [List.map_map, ← ih y.2]
    rfl

theorem mem_callsFrom {children : List PatternId} {js : List Nat} {c : Call}
    (hc : c ∈ read.callsFrom children js) : c.1 ∈ children := by
  induction children generalizing js with
  | nil => cases hc
  | cons child later ih =>
    rcases List.mem_append.1 hc with hc | hc
    · obtain ⟨j, -, rfl⟩ := List.mem_map.1 hc
      exact List.mem_cons_self
    · exact List.mem_cons_of_mem child (ih hc)

theorem callsAfter_eq (read : Readings ν) (children : List PatternId)
    (xs : List (List (Tree ν) × Nat)) :
    read.callsAfter children [] xs = read.callsFrom children (xs.map Prod.snd) := by
  induction children generalizing xs with
  | nil => rfl
  | cons child later ih =>
    rw [Readings.callsAfter, Readings.callsFrom, List.nil_append, ih, List.map_map,
      List.map_flatMap, List.flatMap_map]
    congr 2
    refine List.flatMap_congr fun x _ => ?_
    simp [Readings.extendPrefix, Readings.stops]

end

/-! ### Construct by construct -/

section

variable {τ ν : Type} [Token τ ν] {g : Grammar} {tokens : Array τ} {read : Readings ν}
variable {id : PatternId} {p : Pattern} {i : Nat}

theorem stops_consume (hsolves : read.Solves g tokens) (hp : g.pattern? id = some p)
    {terminal : String} (hkind : p.kind = .consume terminal) (hi : i ≤ tokens.size) :
    read.stops id i =
      if tokens[i]?.any fun token => Token.is token terminal then [i + 1] else [] := by
  simp only [Readings.stops, hsolves id i hi, hp, Pattern.readings, hkind]
  cases htoken : tokens[i]? with
  | none => rfl
  | some token => by_cases his : Token.is token terminal = true <;> simp [his]

theorem stops_mark (hsolves : read.Solves g tokens) (hp : g.pattern? id = some p)
    {marker : Marker} (hkind : p.kind.mark? = some marker) (hi : i ≤ tokens.size) :
    read.stops id i = [i] := by
  simp only [Readings.stops, hsolves id i hi, hp, Pattern.readings_mark hkind, List.map_singleton]

theorem stops_wrapped (hsolves : read.Solves g tokens) (hp : g.pattern? id = some p)
    {wrapper : Wrapper} {child : PatternId} (hkind : p.kind.wrapped? g = some (wrapper, child))
    (hi : i ≤ tokens.size) : read.stops id i = read.stops child i := by
  simp only [Readings.stops, hsolves id i hi, hp, Pattern.readings_wrapped hkind, List.map_map]
  rfl

theorem stops_sequence (hsolves : read.Solves g tokens) (hp : g.pattern? id = some p)
    {children : List PatternId} (hkind : p.kind = .sequence children) (hi : i ≤ tokens.size) :
    read.stops id i = read.stopsAll children i := by
  simp only [Readings.stops, hsolves id i hi, hp, Pattern.readings, hkind, List.map_map]
  exact map_prefixes read children i

/-- An ordered choice stops where the first alternative does that matches. -/
theorem stops_ordered (hsolves : read.Solves g tokens) (hp : g.pattern? id = some p)
    {alternatives : List PatternId} {names : Option (List String)}
    (hkind : p.kind = .choice alternatives .ordered names) (hi : i ≤ tokens.size) :
    read.stops id i = ChoiceMode.ordered.select (alternatives.map fun a => read.stops a i) := by
  simp only [Readings.stops, hsolves id i hi, hp, Pattern.readings, hkind]
  have hmap (xss : List (List (Tree ν × Nat))) :
      (ChoiceMode.ordered.select xss).map Prod.snd =
        ChoiceMode.ordered.select (xss.map fun xs => xs.map Prod.snd) := by
    induction xss with
    | nil => rfl
    | cons xs xss ih => cases xs <;> simp_all [ChoiceMode.select]
  rw [hmap, Readings.alternatives, List.map_map]
  conv_rhs => rw [← List.zipIdx_map_fst 0 alternatives, List.map_map]
  congr 1
  refine List.map_congr_left fun x _ => ?_
  simp [Function.comp_def]

theorem calls_sequence {children : List PatternId} (hkind : p.kind = .sequence children)
    (g : Grammar) (size : Nat) (read : Readings ν) (i : Nat) :
    p.calls g size read i = read.callsFrom children [i] := by
  simp only [Pattern.calls, hkind]
  exact callsAfter_eq read children [([], i)]

end

end ReversibleGrammar
