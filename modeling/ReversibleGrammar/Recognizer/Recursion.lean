/-
Bookkeeping of left recursion.

A site is a recognizer at a position.  Every path of recognition carries a
context: for each position it has reached, the depths at which sites there were
entered again.  The first site to reach a position only opens it; sites entered
at an open position record their depth.

* `RecursionMap` — depths of sites, by increasing site, so that maps with the
  same depths are equal;
* `Context.enter` — the context inside a site;
* `RecursionMap.allows` — whether results computed under one map may be used
  under another: no site may have been deeper than it is now.
-/
import Std.Data.TreeMap
import ReversibleGrammar.Grammar.Pattern
import ReversibleGrammar.Recognizer.Interner

namespace ReversibleGrammar

/-- A number for a recognizer; labels have the even ones. -/
def Recognizer.code : Recognizer → Nat
  | label l => 2 * l
  | pattern p => 2 * p + 1

theorem Recognizer.code_inj : ∀ {a b : Recognizer}, a.code = b.code → a = b
  | .label l, .label m, h => congrArg _ (Nat.eq_of_mul_eq_mul_left (by decide : 0 < 2) h)
  | .pattern p, .pattern q, h =>
    congrArg _ (Nat.eq_of_mul_eq_mul_left (by decide : 0 < 2) (Nat.succ.inj h))
  | .label l, .pattern p, h => by simp only [code] at h; omega
  | .pattern p, .label l, h => by simp only [code] at h; omega

/-- A recognizer at a token position. -/
structure Site where
  index : Nat
  recognizer : Recognizer
  deriving DecidableEq, Repr, Inhabited

/-- Sites are ordered by position first. -/
instance : Ord Site := ⟨compareLex (compareOn Site.index) (compareOn (·.recognizer.code))⟩

instance : Std.TransOrd Site :=
  inferInstanceAs (Std.TransCmp (compareLex (compareOn Site.index) (compareOn (·.recognizer.code))))

instance : Std.LawfulEqOrd Site where
  eq_of_compare {a b} h := by
    have h : (compare a.index b.index).then (compare a.recognizer.code b.recognizer.code) = .eq := h
    rw [Ordering.then_eq_eq] at h
    cases a
    cases b
    simp only [Nat.compare_eq_eq] at h
    obtain ⟨hi, hc⟩ := h
    rw [hi, Recognizer.code_inj hc]

/-- Depths of sites, by increasing site. -/
abbrev RecursionMap := List (Site × Nat)

namespace RecursionMap

/-- The depth of a site. -/
def get? (site : Site) : RecursionMap → Option Nat
  | [] => none
  | (other, depth) :: rest => if other = site then some depth else get? site rest

/-- The map with a new depth for a site. -/
def insert (site : Site) (depth : Nat) : RecursionMap → RecursionMap
  | [] => [(site, depth)]
  | (other, old) :: rest =>
    match compare site other with
    | .lt => (site, depth) :: (other, old) :: rest
    | .eq => (site, depth) :: rest
    | .gt => (other, old) :: insert site depth rest

/-- Both maps; `later` counts where they differ. -/
def merge (map later : RecursionMap) : RecursionMap :=
  later.foldl (fun merged entry => merged.insert entry.1 entry.2) map

/-- What was computed under `recorded` may be used under `current`: no site of `recorded` was
deeper than it is now.  Sites that `current` does not know are free. -/
def allows (current recorded : RecursionMap) : Bool :=
  recorded.all fun entry =>
    match current.get? entry.1 with
    | some active => entry.2 ≤ active
    | none => true

@[simp] theorem allows_nil (current : RecursionMap) : current.allows [] = true := rfl

/-- The map as numbers. -/
def code (map : RecursionMap) : List Nat :=
  map.flatMap fun entry => [entry.1.index, entry.1.recognizer.code, entry.2]

theorem code_inj {a b : RecursionMap} (h : a.code = b.code) : a = b := by
  induction a generalizing b with
  | nil =>
    cases b with
    | nil => rfl
    | cons entry rest => simp [code] at h
  | cons entry rest ih =>
    cases b with
    | nil => simp [code] at h
    | cons other more =>
      obtain ⟨⟨i, r⟩, d⟩ := entry
      obtain ⟨⟨j, s⟩, e⟩ := other
      simp only [code, List.flatMap_cons, List.cons_append, List.nil_append, List.cons.injEq] at h
      obtain ⟨hi, hr, hd, hrest⟩ := h
      rw [hi, Recognizer.code_inj hr, hd, ih hrest]

end RecursionMap

instance : Ord RecursionMap := ⟨compareOn RecursionMap.code⟩

instance : Std.TransOrd RecursionMap :=
  inferInstanceAs (Std.TransCmp (compareOn RecursionMap.code))

instance : Std.LawfulEqOrd RecursionMap where
  eq_of_compare {a b} h :=
    RecursionMap.code_inj (@Std.LawfulEqCmp.eq_of_compare _ compare _ a.code b.code h)

/-- The number of a stored map. -/
abbrev MapId := Nat

/-- The number of the empty map, which is stored first. -/
def emptyMap : MapId := 0

/-- The positions that a path has reached, the last one first, each with the number of its map. -/
abbrev Context := List (Nat × MapId)

namespace Context

/-- The map of a position. -/
def at? (index : Nat) : Context → Option MapId
  | [] => none
  | (position, map) :: rest => if position = index then some map else at? index rest

/-- The context with another map for a position that it has. -/
def replace (index : Nat) (map : MapId) : Context → Context
  | [] => []
  | (position, old) :: rest =>
    if position = index then (position, map) :: rest else (position, old) :: replace index map rest

/-- The context inside `site`, entered at `depth`, and the maps with what it needs. -/
def enter (context : Context) (site : Site) (depth : Nat) (maps : Interner RecursionMap) :
    Context × Interner RecursionMap :=
  match context.at? site.index with
  | none => ((site.index, emptyMap) :: context, maps)
  | some map =>
    let (map, maps) := maps.intern ((maps.get map).insert site depth)
    (context.replace site.index map, maps)

end Context

end ReversibleGrammar
