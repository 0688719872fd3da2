/-
A store only grows.

What a recognition makes keeps its number for good, so whatever is known about a
stored value stays known.

* `Store.Sound` — the numbers are true, a stored value refers only to what was stored
  before it, and no match comes with a recursion map;
* `Store.Grows` — a later store has all that an earlier one has;
* `Store.Extends` — it is sound, too, and records no larger depths.
-/
import ReversibleGrammar.Recognizer.Store
import ReversibleGrammar.Proofs.Listwise

namespace ReversibleGrammar

namespace Interner

variable {α : Type} [Ord α]

/-- After storing a value, a number stands for what it stood for, or for the new value, which is
stored after all others. -/
theorem get?_intern_cases (s : Interner α) (a : α) {n : Nat} {b : α}
    (h : (s.intern a).2.get? n = some b) :
    s.get? n = some b ∨ b = a ∧ ∀ m c, s.get? m = some c → m < n := by
  cases hn : s.numbers[a]? with
  | some m =>
    rw [intern_of_some hn] at h
    exact .inl h
  | none =>
    rw [intern_of_none hn] at h
    simp only [get?, Array.getElem?_push] at h
    split at h
    · rename_i hlast
      refine .inr ⟨(Option.some.inj h).symm, fun m c hm => ?_⟩
      rw [hlast]
      exact (Array.getElem?_eq_some_iff.1 hm).1
    · exact .inl h

theorem get_eq_of_get? [Inhabited α] {s : Interner α} {n : Nat} {a : α}
    (h : s.get? n = some a) : s.get n = a := by
  obtain ⟨hlt, ha⟩ := Array.getElem?_eq_some_iff.1 h
  rw [get, Array.getD_eq_getD_getElem?, Array.getElem?_eq_getElem hlt, ha, Option.getD_some]

end Interner

namespace Store

/-- A later store has all that an earlier one has. -/
structure Grows (s t : Store) : Prop where
  results : ∀ {n r}, s.results.get? n = some r → t.results.get? n = some r
  fragments : ∀ {n f}, s.fragments.get? n = some f → t.fragments.get? n = some f
  failures : ∀ {n k}, s.failures.get? n = some k → t.failures.get? n = some k
  maps : ∀ {n m}, s.maps.get? n = some m → t.maps.get? n = some m

theorem Grows.refl (s : Store) : s.Grows s := ⟨id, id, id, id⟩

theorem Grows.trans {s t u : Store} (h : s.Grows t) (h' : t.Grows u) : s.Grows u where
  results hn := h'.results (h.results hn)
  fragments hn := h'.fragments (h.fragments hn)
  failures hn := h'.failures (h.failures hn)
  maps hn := h'.maps (h.maps hn)

/-- The numbers are true, values refer to values stored before them, and only failures come with a
recursion map. -/
structure Sound (s : Store) : Prop where
  results : s.results.Faithful
  fragments : s.fragments.Faithful
  failures : s.failures.Faithful
  maps : s.maps.Faithful
  map_empty : s.maps.get? emptyMap = some []
  parts_lt : ∀ {n f}, s.fragments.get? n = some f → ∀ q ∈ f.parts, q < n
  fragment : ∀ {n r f}, s.results.get? n = some r → r.outcome = .success f →
    ∃ fragment, s.fragments.get? f = some fragment
  kind : ∀ {n r k}, s.results.get? n = some r → r.outcome = .failure k →
    ∃ kind, s.failures.get? k = some kind
  map_eq : ∀ {n r f}, s.results.get? n = some r → r.outcome = .success f →
    r.map = emptyMap

theorem sound_empty : Store.empty.Sound where
  results := Interner.faithful_empty
  fragments := Interner.faithful_empty
  failures := Interner.faithful_empty
  maps := Interner.faithful_intern Interner.faithful_empty []
  map_empty := Interner.get?_intern_self _ Interner.faithful_empty []
  parts_lt h := by simp [Store.empty, Interner.empty, Interner.get?] at h
  fragment h := by simp [Store.empty, Interner.empty, Interner.get?] at h
  kind h := by simp [Store.empty, Interner.empty, Interner.get?] at h
  map_eq h := by simp [Store.empty, Interner.empty, Interner.get?] at h

/-- A fragment is stored after its parts. -/
theorem Sound.exists_part {s : Store} (hs : s.Sound) {n : Nat} {f : Fragment}
    (h : s.fragments.get? n = some f) {q : FragmentId} (hq : q ∈ f.parts) :
    ∃ part, s.fragments.get? q = some part := by
  have hlt := hs.parts_lt h q hq
  have hn : n < s.fragments.values.size := (Array.getElem?_eq_some_iff.1 h).1
  exact ⟨_, Array.getElem?_eq_getElem (hlt.trans hn)⟩

theorem Sound.success {s : Store} (hs : s.Sound) {fragment : Fragment}
    (hparts : ∀ q ∈ fragment.parts, ∃ part, s.fragments.get? q = some part) (stop : Nat) :
    (Store.success fragment stop emptyMap s).2.Sound := by
  have hfragment := Interner.get?_intern_self s.fragments hs.fragments fragment
  refine ⟨Interner.faithful_intern hs.results _, Interner.faithful_intern hs.fragments _,
    hs.failures, hs.maps, hs.map_empty, ?_, ?_, ?_, ?_⟩
  · intro n f hn q hq
    rcases Interner.get?_intern_cases s.fragments fragment hn with hn | ⟨rfl, hnew⟩
    · exact hs.parts_lt hn q hq
    · obtain ⟨part, hpart⟩ := hparts q hq
      exact hnew q part hpart
  · intro n r f hn hr
    rcases Interner.get?_intern_cases s.results _ hn with hn | ⟨rfl, -⟩
    · obtain ⟨part, hpart⟩ := hs.fragment hn hr
      exact ⟨part, Interner.get?_intern s.fragments fragment hpart⟩
    · rw [← Outcome.success.inj hr]
      exact ⟨fragment, hfragment⟩
  · intro n r k hn hr
    rcases Interner.get?_intern_cases s.results _ hn with hn | ⟨rfl, -⟩
    · exact hs.kind hn hr
    · cases hr
  · intro n r f hn hr
    rcases Interner.get?_intern_cases s.results _ hn with hn | ⟨rfl, -⟩
    · exact hs.map_eq hn hr
    · rfl

theorem Sound.failure {s : Store} (hs : s.Sound) (kind : FailureKind) (position : Nat)
    (map : MapId) : (Store.failure kind position map s).2.Sound := by
  have hkind := Interner.get?_intern_self s.failures hs.failures kind
  refine ⟨Interner.faithful_intern hs.results _, hs.fragments,
    Interner.faithful_intern hs.failures _, hs.maps, hs.map_empty, hs.parts_lt, ?_, ?_, ?_⟩
  · intro n r f hn hr
    rcases Interner.get?_intern_cases s.results _ hn with hn | ⟨rfl, -⟩
    · exact hs.fragment hn hr
    · cases hr
  · intro n r k hn hr
    rcases Interner.get?_intern_cases s.results _ hn with hn | ⟨rfl, -⟩
    · obtain ⟨old, hold⟩ := hs.kind hn hr
      exact ⟨old, Interner.get?_intern s.failures kind hold⟩
    · rw [← Outcome.failure.inj hr]
      exact ⟨kind, hkind⟩
  · intro n r f hn hr
    rcases Interner.get?_intern_cases s.results _ hn with hn | ⟨rfl, -⟩
    · exact hs.map_eq hn hr
    · cases hr

/-- The store with one recursion map more. -/
def withMap (s : Store) (map : RecursionMap) : Store := { s with maps := (s.maps.intern map).2 }

theorem Sound.withMap {s : Store} (hs : s.Sound) (map : RecursionMap) :
    (s.withMap map).Sound where
  results := hs.results
  fragments := hs.fragments
  failures := hs.failures
  maps := Interner.faithful_intern hs.maps map
  map_empty := Interner.get?_intern s.maps map hs.map_empty
  parts_lt := hs.parts_lt
  fragment := hs.fragment
  kind := hs.kind
  map_eq := hs.map_eq

theorem grows_withMap (s : Store) (map : RecursionMap) : s.Grows (s.withMap map) :=
  ⟨id, id, id, fun hn => Interner.get?_intern s.maps map hn⟩

/-- Matches carry no recursion, so that nothing is merged. -/
theorem mergeMaps_empty (left : MapId) (s : Store) :
    mergeMaps left emptyMap s = (left, s) := by
  simp [mergeMaps]

/-- Entering a site at a position that the path has reached stores the map with its depth. -/
theorem enter_store (s : Store) (context : Context) (site : Site) (depth : Nat) :
    (Store.enter context site depth s).2 = s ∧
        context.at? site.index = none ∧
        (Store.enter context site depth s).1 = (site.index, emptyMap) :: context ∨
      ∃ map, context.at? site.index = some map ∧
        (Store.enter context site depth s).2 = s.withMap ((s.map map).insert site depth) ∧
        (Store.enter context site depth s).1 = context.replace site.index
          (s.maps.intern ((s.map map).insert site depth)).1 := by
  unfold Store.enter Context.enter
  dsimp only
  split
  · exact .inl ⟨rfl, ‹_›, rfl⟩
  · rename_i map hmap
    exact .inr ⟨map, hmap, rfl, rfl⟩

end Store

/-! ### Open positions -/

theorem Context.isSome_at?_replace (context : Context) (index : Nat) (map : MapId) (i : Nat) :
    ((context.replace index map).at? i).isSome = (context.at? i).isSome := by
  induction context with
  | nil => rfl
  | cons entry rest ih =>
    obtain ⟨position, old⟩ := entry
    unfold Context.replace
    by_cases hposition : position = index
    · subst hposition
      by_cases hi : position = i <;> simp [Context.at?, hi]
    · simp only [if_neg hposition, Context.at?]
      by_cases hi : position = i
      · simp [hi]
      · simpa [hi] using ih

/-- Entering a site opens its position and no other one. -/
theorem Store.isSome_at?_enter {context inner : Context} {site : Site} {depth : Nat} {s t : Store}
    (h : Store.enter context site depth s = (inner, t)) (i : Nat) :
    (inner.at? i).isSome = ((context.at? i).isSome || site.index == i) := by
  have hinner := enter_store s context site depth
  rw [h] at hinner
  rcases hinner with ⟨-, hnone, heq⟩ | ⟨map, hmap, -, heq⟩
  · rw [show inner = _ from heq]
    by_cases hi : site.index = i <;> simp [Context.at?, hi]
  · rw [show inner = _ from heq, Context.isSome_at?_replace]
    by_cases hi : site.index = i
    · rw [← hi, hmap]
      rfl
    · simp [hi]

/-! ### Recorded depths -/

namespace RecursionMap

theorem mem_insert_cases {map : RecursionMap} {site : Site} {depth : Nat} {entry : Site × Nat}
    (h : entry ∈ map.insert site depth) : entry = (site, depth) ∨ entry ∈ map := by
  induction map with
  | nil => exact .inl (List.mem_singleton.1 h)
  | cons first rest ih =>
    obtain ⟨other, old⟩ := first
    unfold insert at h
    split at h
    · rcases List.mem_cons.1 h with h | h
      · exact .inl h
      · exact .inr h
    · rcases List.mem_cons.1 h with h | h
      · exact .inl h
      · exact .inr (List.mem_cons_of_mem _ h)
    · rcases List.mem_cons.1 h with h | h
      · exact .inr (h ▸ List.mem_cons_self)
      · exact (ih h).imp id (List.mem_cons_of_mem _)

end RecursionMap

namespace Store

/-- No recorded depth of a site is above its bound. -/
def DepthsLe (s : Store) (bound : Site → Nat) : Prop :=
  ∀ {n map}, s.maps.get? n = some map → ∀ entry ∈ map, entry.2 ≤ bound entry.1

theorem DepthsLe.map {s : Store} {bound : Site → Nat} (h : s.DepthsLe bound) (n : MapId) :
    ∀ entry ∈ s.map n, entry.2 ≤ bound entry.1 := by
  cases hn : s.maps.get? n with
  | some map =>
    rw [Store.map, Interner.get_eq_of_get? hn]
    exact h hn
  | none =>
    rw [Store.map, Interner.get, Array.getD_eq_getD_getElem?, show s.maps.values[n]? = none from hn]
    simp [default]

theorem DepthsLe.withMap {s : Store} {bound : Site → Nat} (h : s.DepthsLe bound)
    {map : RecursionMap} (hmap : ∀ entry ∈ map, entry.2 ≤ bound entry.1) :
    (s.withMap map).DepthsLe bound := by
  intro n other hn
  rcases Interner.get?_intern_cases s.maps map hn with hn | ⟨rfl, -⟩
  · exact h hn
  · exact hmap

theorem DepthsLe.mono {s : Store} {bound bound' : Site → Nat} (h : s.DepthsLe bound)
    (hle : ∀ site, bound site ≤ bound' site) : s.DepthsLe bound' :=
  fun hn entry hentry => (h hn entry hentry).trans (hle entry.1)

/-- A sound store that has all that another one has, and records no larger depths. -/
structure Extends (s t : Store) : Prop where
  sound : t.Sound
  grows : s.Grows t
  depths : ∀ bound, s.DepthsLe bound → t.DepthsLe bound

theorem Extends.refl {s : Store} (hs : s.Sound) : s.Extends s := ⟨hs, .refl s, fun _ => id⟩

theorem Extends.trans {s t u : Store} (h : s.Extends t) (h' : t.Extends u) : s.Extends u :=
  ⟨h'.sound, h.grows.trans h'.grows, fun bound hb => h'.depths bound (h.depths bound hb)⟩

/-- Storing a success. -/
theorem Sound.success_eq {s : Store} (hs : s.Sound) {fragment : Fragment}
    (hparts : ∀ q ∈ fragment.parts, ∃ part, s.fragments.get? q = some part) (stop : Nat) :
    ∃ id t f, Store.success fragment stop emptyMap s = (id, t) ∧ s.Extends t ∧
      t.fragments.get? f = some fragment ∧
      t.results.get? id = some ⟨.success f, stop, emptyMap⟩ := by
  refine ⟨_, _, _, rfl, ⟨hs.success hparts stop, ⟨?_, ?_, id, id⟩, fun _ => id⟩,
    Interner.get?_intern_self s.fragments hs.fragments fragment,
    Interner.get?_intern_self s.results hs.results _⟩
  · exact fun hn => Interner.get?_intern s.results _ hn
  · exact fun hn => Interner.get?_intern s.fragments _ hn

/-- Storing a failure. -/
theorem Sound.failure_eq {s : Store} (hs : s.Sound) (kind : FailureKind) (position : Nat)
    (map : MapId) :
    ∃ id t k, Store.failure kind position map s = (id, t) ∧ s.Extends t ∧
      t.failures.get? k = some kind ∧ t.results.get? id = some ⟨.failure k, position, map⟩ := by
  refine ⟨_, _, _, rfl, ⟨hs.failure kind position map, ⟨?_, id, ?_, id⟩, fun _ => id⟩,
    Interner.get?_intern_self s.failures hs.failures kind,
    Interner.get?_intern_self s.results hs.results _⟩
  · exact fun hn => Interner.get?_intern s.results _ hn
  · exact fun hn => Interner.get?_intern s.failures _ hn

/-- Entering a site records no depth but the one it is entered at. -/
theorem Sound.enter {s : Store} (hs : s.Sound) (context : Context) (site : Site) (depth : Nat) :
    (Store.enter context site depth s).2.Sound ∧
      s.Grows (Store.enter context site depth s).2 ∧
      ∀ bound, s.DepthsLe bound → depth ≤ bound site →
        (Store.enter context site depth s).2.DepthsLe bound := by
  rcases enter_store s context site depth with ⟨h, -⟩ | ⟨map, -, h, -⟩
  · rw [h]
    exact ⟨hs, .refl s, fun _ hb _ => hb⟩
  · rw [h]
    refine ⟨hs.withMap _, grows_withMap s _,
      fun bound hb hdepth => hb.withMap fun entry hentry => ?_⟩
    rcases RecursionMap.mem_insert_cases hentry with rfl | hentry
    · exact hdepth
    · exact hb.map map entry hentry

theorem result_eq {s : Store} {id : ResultId} {r : Result} (h : s.results.get? id = some r) :
    s.result id = r :=
  Interner.get_eq_of_get? h

end Store

end ReversibleGrammar
