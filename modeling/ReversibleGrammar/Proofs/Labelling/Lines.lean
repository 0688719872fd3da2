/-
Results with labels and without.

With labels, a recognition also stores that labelled choices failed.  All other results are stored
in the same order, so that fragments and recursion maps get the same numbers; the numbers of
results are shifted by those failures.

* `Store.Twinned` — two stores that differ in such failures only;
* `Store.Same`, `Store.Added` — results of both that are the same; failures that only the second one
  has;
* `Lined` — two lists of results with the same results, in order, and more in the second;
* `Lined.insertAll` — sets of results are sorted out alike.
-/
import ReversibleGrammar.Proofs.Labelling.Sites
import ReversibleGrammar.Proofs.Recognizer.Listing
import ReversibleGrammar.Proofs.Recognizer.Pairing

namespace ReversibleGrammar

namespace Interner

variable {α : Type} [Ord α] [Inhabited α]

theorem get?_eq_some_iff {s : Interner α} {n : Nat} {a : α} :
    s.get? n = some a ↔ n < s.size ∧ s.get n = a := by
  simp only [get?, get, size, Array.getD_eq_getD_getElem?]
  by_cases hn : n < s.values.size
  · simp [hn]
  · simp [hn]

/-- After storing a value, its number stands for it, and other numbers for what they stood for. -/
theorem get_intern {s : Interner α} (hs : s.Faithful) (a : α) (n : Nat) :
    (s.intern a).2.get n = if n = (s.intern a).1 then a else s.get n := by
  split
  · rename_i hn
    exact hn ▸ get_eq_of_get? (get?_intern_self s hs a)
  · rename_i hn
    cases ha : s.numbers[a]? with
    | some m => rw [intern_of_some ha]
    | none =>
      rw [intern_of_none ha] at hn ⊢
      simp only [get, Array.getD_eq_getD_getElem?, Array.getElem?_push, if_neg hn]

end Interner

/-! ### Stores -/

/-- Is about a labelled choice. -/
def FailureKind.isLabel : FailureKind → Bool
  | alternativeFailed _ => true
  | _ => false

namespace Store

/-- The number stands for a failure. -/
def FailedWith (s : Store) (r : ResultId) (kind : FailureKind) (stop : Nat) (map : MapId) : Prop :=
  ∃ k, s.results.get? r = some ⟨.failure k, stop, map⟩ ∧ s.failures.get? k = some kind

/-- The numbers stand for the same result in both stores, which is not about a label. -/
def Same (s s' : Store) (r r' : ResultId) : Prop :=
  (∃ f stop, s.Matched r f stop ∧ s'.Matched r' f stop) ∨
  ∃ kind stop map, kind.isLabel = false ∧ s.FailedWith r kind stop map ∧
    s'.FailedWith r' kind stop map

/-- The number stands for the failure of a labelled choice. -/
def Added (s : Store) (r : ResultId) : Prop :=
  ∃ label stop map, s.FailedWith r (.alternativeFailed label) stop map

/-- The stores have the same fragments and, for corresponding sites, the same maps. -/
structure Twinned (g : Grammar) (s s' : Store) : Prop where
  sound : s.Sound
  sound' : s'.Sound
  fragments : s.fragments = s'.fragments
  maps_size : s.maps.size = s'.maps.size
  maps : ∀ n, (s.map n).Twin g (s'.map n)

/-- Both stores have grown, and are still twins. -/
structure Onward (g : Grammar) (s s' t t' : Store) : Prop where
  twinned : t.Twinned g t'
  grows : s.Grows t
  grows' : s'.Grows t'

variable {g : Grammar} {s s' t t' u u' : Store} {r r' q q' : ResultId}

theorem FailedWith.mono (hgrows : s.Grows t) {kind : FailureKind} {stop : Nat} {map : MapId}
    (h : s.FailedWith r kind stop map) : t.FailedWith r kind stop map := by
  obtain ⟨k, hr, hk⟩ := h
  exact ⟨k, hgrows.results hr, hgrows.failures hk⟩

theorem FailedWith.failed {kind : FailureKind} {stop : Nat} {map : MapId}
    (h : s.FailedWith r kind stop map) : s.Failed r := by
  obtain ⟨k, hr, -⟩ := h
  exact ⟨k, stop, map, hr⟩

theorem FailedWith.unique {kind kind' : FailureKind} {stop stop' : Nat} {map map' : MapId}
    (h : s.FailedWith r kind stop map) (h' : s.FailedWith r kind' stop' map') :
    kind = kind' ∧ stop = stop' ∧ map = map' := by
  obtain ⟨k, hr, hk⟩ := h
  obtain ⟨k', hr', hk'⟩ := h'
  cases hr.symm.trans hr'
  exact ⟨Option.some.inj (hk.symm.trans hk'), rfl, rfl⟩

/-- A failure is stored under one number. -/
theorem Sound.eq_of_failedWith (hs : s.Sound) {kind : FailureKind} {stop : Nat} {map : MapId}
    (h : s.FailedWith r kind stop map) (h' : s.FailedWith q kind stop map) : r = q := by
  obtain ⟨k, hr, hk⟩ := h
  obtain ⟨k', hq, hk'⟩ := h'
  obtain rfl : k = k' :=
    Option.some.inj (((hs.failures _ _).2 hk).symm.trans ((hs.failures _ _).2 hk'))
  exact hs.eq_of_result hr hq

theorem not_matched_of_failedWith {kind : FailureKind} {stop stop' : Nat} {map : MapId}
    {f : FragmentId} (h : s.FailedWith r kind stop map) : ¬ s.Matched r f stop' := by
  intro h'
  obtain ⟨k, hr, -⟩ := h
  cases hr.symm.trans h'

theorem Same.mono (hgrows : s.Grows t) (hgrows' : s'.Grows t') (h : s.Same s' r r') :
    t.Same t' r r' := by
  rcases h with ⟨f, stop, hr, hr'⟩ | ⟨kind, stop, map, hkind, hr, hr'⟩
  · exact .inl ⟨f, stop, hgrows.matched hr, hgrows'.matched hr'⟩
  · exact .inr ⟨kind, stop, map, hkind, hr.mono hgrows, hr'.mono hgrows'⟩

theorem Added.mono (hgrows : s.Grows t) (h : s.Added r) : t.Added r := by
  obtain ⟨label, stop, map, h⟩ := h
  exact ⟨label, stop, map, h.mono hgrows⟩

/-- Results correspond one to one. -/
theorem Twinned.oneToOne (h : s.Twinned g s') : ResultSet.OneToOne (s.Same s') := by
  rintro r r' q q' (⟨f, stop, hr, hr'⟩ | ⟨kind, stop, map, -, hr, hr'⟩)
    (⟨f', stop', hq, hq'⟩ | ⟨kind', stop', map', -, hq, hq'⟩)
  · constructor
    · rintro rfl
      obtain ⟨rfl, rfl⟩ := hr.unique hq
      exact h.sound'.eq_of_result hr' hq'
    · rintro rfl
      obtain ⟨rfl, rfl⟩ := hr'.unique hq'
      exact h.sound.eq_of_result hr hq
  · exact ⟨fun heq => absurd (heq ▸ hr) (not_matched_of_failedWith hq),
      fun heq => absurd (heq ▸ hr') (not_matched_of_failedWith hq')⟩
  · exact ⟨fun heq => absurd (heq ▸ hq) (not_matched_of_failedWith hr),
      fun heq => absurd (heq ▸ hq') (not_matched_of_failedWith hr')⟩
  · constructor
    · rintro rfl
      obtain ⟨rfl, rfl, rfl⟩ := hr.unique hq
      exact h.sound'.eq_of_failedWith hr' hq'
    · rintro rfl
      obtain ⟨rfl, rfl, rfl⟩ := hr'.unique hq'
      exact h.sound.eq_of_failedWith hr hq

theorem Same.not_added (h : s.Same s' r r') : ¬ s'.Added r' := by
  rintro ⟨label, stop, map, hr'⟩
  rcases h with ⟨f, stop', -, hmatched⟩ | ⟨kind, stop', map', hkind, -, hfailed⟩
  · exact not_matched_of_failedWith hr' hmatched
  · obtain ⟨rfl, -⟩ := hfailed.unique hr'
    cases hkind

/-! ### Storing -/

theorem Twinned.refl_onward (h : s.Twinned g s') : Onward g s s' s s' :=
  ⟨h, .refl s, .refl s'⟩

theorem Onward.trans (h : Onward g s s' t t') (h' : Onward g t t' u u') : Onward g s s' u u' :=
  ⟨h'.twinned, h.grows.trans h'.grows, h.grows'.trans h'.grows'⟩

theorem Same.onward (h : s.Same s' r r') (hstep : Onward g s s' t t') : t.Same t' r r' :=
  h.mono hstep.grows hstep.grows'

theorem Added.onward (h : s'.Added r) (hstep : Onward g s s' t t') : t'.Added r :=
  h.mono hstep.grows'

/-- Both stores store a match with one fragment. -/
theorem Twinned.success_matched (h : s.Twinned g s') {fragment : Fragment}
    (hparts : ∀ q ∈ fragment.parts, ∃ part, s.fragments.get? q = some part) (stop : Nat) :
    ∃ r r' t t' f, Store.success fragment stop emptyMap s = (r, t) ∧
      Store.success fragment stop emptyMap s' = (r', t') ∧ Onward g s s' t t' ∧
      t.Matched r f stop ∧ t'.Matched r' f stop := by
  obtain ⟨r, t, f, hsuccess, hextends, hf, hr⟩ := h.sound.success_eq hparts stop
  obtain ⟨r', t', f', hsuccess', hextends', hf', hr'⟩ :=
    h.sound'.success_eq (h.fragments ▸ hparts) stop
  have hfields {s t : Store} {r : ResultId}
      (hsuccess : Store.success fragment stop emptyMap s = (r, t)) :
      t.fragments = (s.fragments.intern fragment).2 ∧ t.maps = s.maps := by
    obtain ⟨results, fragments, failures, maps⟩ := s
    cases hsuccess
    exact ⟨rfl, rfl⟩
  obtain ⟨hfragments, hmaps⟩ := hfields hsuccess
  obtain ⟨hfragments', hmaps'⟩ := hfields hsuccess'
  have heq : t.fragments = t'.fragments := by rw [hfragments, hfragments', h.fragments]
  obtain rfl : f = f' := hextends.sound.eq_of_get? hf (heq ▸ hf')
  refine ⟨r, r', t, t', f, hsuccess, hsuccess', ⟨⟨hextends.sound, hextends'.sound, heq, ?_, ?_⟩,
    hextends.grows, hextends'.grows⟩, hr, hr'⟩
  · rw [hmaps, hmaps', h.maps_size]
  · intro n
    simpa only [Store.map, hmaps, hmaps'] using h.maps n

/-- Both stores store the same match. -/
theorem Twinned.success (h : s.Twinned g s') {fragment : Fragment}
    (hparts : ∀ q ∈ fragment.parts, ∃ part, s.fragments.get? q = some part) (stop : Nat) :
    ∃ r r' t t', Store.success fragment stop emptyMap s = (r, t) ∧
      Store.success fragment stop emptyMap s' = (r', t') ∧ Onward g s s' t t' ∧
      t.Same t' r r' := by
  obtain ⟨r, r', t, t', f, hone, hone', hstep, hr, hr'⟩ := h.success_matched hparts stop
  exact ⟨r, r', t, t', hone, hone', hstep, .inl ⟨f, stop, hr, hr'⟩⟩

theorem failure_fields {kind : FailureKind} {position : Nat} {map : MapId}
    (h : Store.failure kind position map s = (r, t)) :
    t.fragments = s.fragments ∧ t.maps = s.maps := by
  obtain ⟨results, fragments, failures, maps⟩ := s
  cases h
  exact ⟨rfl, rfl⟩

/-- Both stores store the same failure. -/
theorem Twinned.failure (h : s.Twinned g s') {kind : FailureKind} (hkind : kind.isLabel = false)
    (position : Nat) (map : MapId) :
    ∃ r r' t t', Store.failure kind position map s = (r, t) ∧
      Store.failure kind position map s' = (r', t') ∧ Onward g s s' t t' ∧ t.Same t' r r' := by
  obtain ⟨r, t, k, hfailure, hextends, hk, hr⟩ := h.sound.failure_eq kind position map
  obtain ⟨r', t', k', hfailure', hextends', hk', hr'⟩ := h.sound'.failure_eq kind position map
  obtain ⟨hfragments, hmaps⟩ := failure_fields hfailure
  obtain ⟨hfragments', hmaps'⟩ := failure_fields hfailure'
  refine ⟨r, r', t, t', hfailure, hfailure', ⟨⟨hextends.sound, hextends'.sound, ?_, ?_, ?_⟩,
    hextends.grows, hextends'.grows⟩,
    .inr ⟨kind, position, map, hkind, ⟨k, hr, hk⟩, ⟨k', hr', hk'⟩⟩⟩
  · rw [hfragments, hfragments', h.fragments]
  · rw [hmaps, hmaps', h.maps_size]
  · intro n
    simpa only [Store.map, hmaps, hmaps'] using h.maps n

/-- The second store also stores that a labelled choice failed. -/
theorem Twinned.addLabel (h : s.Twinned g s') (label : String) (position : Nat) (map : MapId) :
    ∃ r' t', Store.failure (.alternativeFailed label) position map s' = (r', t') ∧
      Onward g s s' s t' ∧ t'.Added r' := by
  obtain ⟨r', t', k', hfailure', hextends', hk', hr'⟩ :=
    h.sound'.failure_eq (.alternativeFailed label) position map
  obtain ⟨hfragments', hmaps'⟩ := failure_fields hfailure'
  refine ⟨r', t', hfailure', ⟨⟨h.sound, hextends'.sound, ?_, ?_, ?_⟩, .refl s,
    hextends'.grows⟩, label, position, map, k', hr', hk'⟩
  · rw [hfragments', h.fragments]
  · rw [hmaps', h.maps_size]
  · intro n
    simpa only [Store.map, hmaps'] using h.maps n

/-- Both stores store the maps with the depth of a site, under one number. -/
theorem Twinned.withMap (h : s.Twinned g s') {a a' : RecursionMap} (htwin : a.Twin g a') :
    (s.maps.intern a).1 = (s'.maps.intern a').1 ∧
      Onward g s s' (s.withMap a) (s'.withMap a') := by
  obtain ⟨hnumber, hsize⟩ := Interner.intern_congr h.sound.maps h.sound'.maps h.maps_size
    fun n => by
      rw [Interner.get?_eq_some_iff, Interner.get?_eq_some_iff, h.maps_size]
      exact and_congr_right fun _ => (h.maps n).eq_iff htwin
  refine ⟨hnumber, ⟨h.sound.withMap a, h.sound'.withMap a', h.fragments, hsize, fun n => ?_⟩,
    grows_withMap s a, grows_withMap s' a'⟩
  have hmap : (s.withMap a).map n = if n = (s.maps.intern a).1 then a else s.map n :=
    Interner.get_intern h.sound.maps a n
  have hmap' : (s'.withMap a').map n = if n = (s'.maps.intern a').1 then a' else s'.map n :=
    Interner.get_intern h.sound'.maps a' n
  rw [hmap, hmap', hnumber]
  split
  · exact htwin
  · exact h.maps n

/-- Both enter a site under the same context. -/
theorem Twinned.enter (hsites : Relator.BiUnique g.SameSite) (h : s.Twinned g s')
    (context : Context) {site site' : Site} (hsite : g.SameSite site site') (depth : Nat) :
    ∃ inner t t', Store.enter context site depth s = (inner, t) ∧
      Store.enter context site' depth s' = (inner, t') ∧ Onward g s s' t t' := by
  suffices h : (Store.enter context site depth s).1 = (Store.enter context site' depth s').1 ∧
      Onward g s s' (Store.enter context site depth s).2 (Store.enter context site' depth s').2 from
    ⟨(Store.enter context site depth s).1, (Store.enter context site depth s).2,
      (Store.enter context site' depth s').2, rfl, Prod.ext h.1.symm rfl, h.2⟩
  rcases enter_store s context site depth with ⟨hstore, hnone, hinner⟩ |
    ⟨map, hmap, hstore, hinner⟩ <;>
  rcases enter_store s' context site' depth with ⟨hstore', hnone', hinner'⟩ |
    ⟨map', hmap', hstore', hinner'⟩ <;>
  rw [hstore, hstore', hinner, hinner', hsite.index_eq]
  · exact ⟨rfl, h.refl_onward⟩
  · rw [hsite.index_eq, hmap'] at hnone
    cases hnone
  · rw [hsite.index_eq, hnone'] at hmap
    cases hmap
  · rw [hsite.index_eq, hmap'] at hmap
    obtain rfl := Option.some.inj hmap
    obtain ⟨hnumber, hstep⟩ := h.withMap ((h.maps map').insert hsites hsite depth)
    exact ⟨congrArg (context.replace site'.index) hnumber, hstep⟩

end Store

/-! ### Lists and sets of results -/

/-- Related results in the same order, with more results between those of the second list. -/
inductive Lined (R : ResultId → ResultId → Prop) (X : ResultId → Prop) :
    List ResultId → List ResultId → Prop
  | nil : Lined R X [] []
  | both {r r' : ResultId} {rs rs' : List ResultId} (hr : R r r') (h : Lined R X rs rs') :
      Lined R X (r :: rs) (r' :: rs')
  | more {r' : ResultId} {rs rs' : List ResultId} (hr : X r') (h : Lined R X rs rs') :
      Lined R X rs (r' :: rs')

/-- The sets list related results in the same order, and the second one more. -/
structure SetLined (R : ResultId → ResultId → Prop) (X : ResultId → Prop)
    (set set' : ResultSet) : Prop where
  faithful : set.Faithful
  faithful' : set'.Faithful
  lined : Lined R X set.toList set'.toList

section

variable {R R' : ResultId → ResultId → Prop} {X X' : ResultId → Prop}
variable {rs rs' qs qs' : List ResultId} {r r' : ResultId} {set set' : ResultSet}

namespace Lined

theorem imp (hR : ∀ {r r'}, R r r' → R' r r') (hX : ∀ {r'}, X r' → X' r') (h : Lined R X rs rs') :
    Lined R' X' rs rs' := by
  induction h with
  | nil => exact .nil
  | both hr _ ih => exact .both (hR hr) ih
  | more hr _ ih => exact .more (hX hr) ih

theorem append (h : Lined R X rs rs') (h' : Lined R X qs qs') :
    Lined R X (rs ++ qs) (rs' ++ qs') := by
  induction h with
  | nil => exact h'
  | both hr _ ih => exact .both hr ih
  | more hr _ ih => exact .more hr ih

theorem singleton (hr : R r r') : Lined R X [r] [r'] := .both hr .nil

theorem reverse (h : Lined R X rs rs') : Lined R X rs.reverse rs'.reverse := by
  induction h with
  | nil => exact .nil
  | both hr _ ih =>
    rw [List.reverse_cons, List.reverse_cons]
    exact ih.append (.singleton hr)
  | @more r' rs _ hr _ ih =>
    rw [List.reverse_cons, ← List.append_nil rs.reverse]
    exact ih.append (.more hr .nil)

theorem mem_iff (hR : ResultSet.OneToOne R) (hX : ∀ {r r'}, R r r' → ¬ X r')
    (h : Lined R X rs rs') (hr : R r r') : r ∈ rs ↔ r' ∈ rs' := by
  induction h with
  | nil => simp
  | both hq _ ih => rw [List.mem_cons, List.mem_cons, hR hr hq, ih]
  | more hq _ ih =>
    rw [List.mem_cons, ih]
    exact ⟨.inr, fun hmem => hmem.resolve_left fun heq => hX hr (heq ▸ hq)⟩

/-- Without more results, both lists are empty or none is. -/
theorem eq_nil_iff (h : Lined R (fun _ => False) rs rs') : rs = [] ↔ rs' = [] := by
  cases h with
  | nil => simp
  | both => simp
  | more hr => exact hr.elim

end Lined

namespace SetLined

theorem imp (hR : ∀ {r r'}, R r r' → R' r r') (hX : ∀ {r'}, X r' → X' r')
    (h : SetLined R X set set') : SetLined R' X' set set' :=
  ⟨h.faithful, h.faithful', h.lined.imp hR hX⟩

theorem empty : SetLined R X .empty .empty :=
  ⟨ResultSet.faithful_empty, ResultSet.faithful_empty, .nil⟩

theorem insert (hR : ResultSet.OneToOne R) (hX : ∀ {r r'}, R r r' → ¬ X r')
    (h : SetLined R X set set') (hr : R r r') : SetLined R X (set.insert r) (set'.insert r') := by
  refine ⟨h.faithful.insert r, h.faithful'.insert r', ?_⟩
  rw [h.faithful.toList_insert, h.faithful'.toList_insert]
  by_cases hmem : r ∈ set.toList
  · rw [if_pos hmem, if_pos ((h.lined.mem_iff hR hX hr).1 hmem)]
    exact h.lined
  · rw [if_neg hmem, if_neg fun hmem' => hmem ((h.lined.mem_iff hR hX hr).2 hmem')]
    exact h.lined.append (.singleton hr)

theorem insertMore (h : SetLined R X set set') (hr : X r') :
    SetLined R X set (set'.insert r') := by
  refine ⟨h.faithful, h.faithful'.insert r', ?_⟩
  rw [h.faithful'.toList_insert]
  split
  · exact h.lined
  · rw [← List.append_nil set.toList]
    exact h.lined.append (.more hr .nil)

/-- Sets are sorted out alike. -/
theorem insertAll (hR : ResultSet.OneToOne R) (hX : ∀ {r r'}, R r r' → ¬ X r')
    (h : SetLined R X set set') (hrs : Lined R X rs rs') :
    SetLined R X (set.insertAll rs) (set'.insertAll rs') := by
  induction hrs generalizing set set' with
  | nil => exact h
  | both hr _ ih => exact ih (h.insert hR hX hr)
  | more hr _ ih => exact ih (h.insertMore hr)

theorem holds_eq (hR : ResultSet.OneToOne R) (hX : ∀ {r r'}, R r r' → ¬ X r')
    (h : SetLined R X set set') (hr : R r r') : set.holds r = set'.holds r' := by
  rw [Bool.eq_iff_iff]
  exact (h.faithful r).trans ((h.lined.mem_iff hR hX hr).trans (h.faithful' r').symm)

theorem isEmpty_eq (h : SetLined R (fun _ => False) set set') : set.isEmpty = set'.isEmpty := by
  rw [Bool.eq_iff_iff]
  simpa [ResultSet.isEmpty, ResultSet.toList] using h.lined.eq_nil_iff

end SetLined

end

end ReversibleGrammar
