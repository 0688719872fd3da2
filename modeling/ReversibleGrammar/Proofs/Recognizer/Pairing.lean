/-
Two recognitions side by side.

Equal values are stored once, so that two token lists with the same types but with other values
in common lead to other fragments: those of one list may be shared where those of the other are
not.  Results are shared alike all the same, because a result also says where it stops, and its
fragment has a leaf for each token before that.

* `Store.Alike` — a fragment of one store and one of another have the same form, with leaves for
  the same tokens;
* `Alike.unique` — the fragment and where it stops tell the other fragment and where both start;
* `Store.Twin`, `Store.Paired` — a result is the same in both stores, but for its fragment, and
  all results are;
* `Paired.success` — the stores stay alike when both store such a match, and give it one number.
-/
import ReversibleGrammar.Proofs.Recognizer.Operation

namespace ReversibleGrammar

namespace Fragment

/-- The fragment without the numbers that it refers to. -/
def skeleton : Fragment → Fragment
  | leaf _ => leaf 0
  | sequenceStart => sequenceStart
  | sequenceStep _ _ => sequenceStep 0 0
  | choice index _ => choice index 0
  | manyStart => manyStart
  | manyItem _ _ => manyItem 0 0
  | manySeparator _ _ => manySeparator 0 0
  | absent => absent
  | present _ => present 0
  | wrapped wrapper _ => wrapped wrapper 0
  | mark marker => mark marker

/-- Stands for a token. -/
def isLeaf : Fragment → Bool
  | leaf _ => true
  | _ => false

theorem eq_of_skeleton {x y : Fragment} (hleaf : x.isLeaf = false)
    (h : x.skeleton = y.skeleton) (hparts : x.parts = y.parts) : x = y := by
  cases x <;> cases y <;> simp_all [skeleton, parts, isLeaf]

end Fragment

section

variable (input input' : Input)

namespace Store

/-- The fragments have the same form, with leaves for the tokens from one position to another. -/
inductive Alike (s s' : Store) : FragmentId → FragmentId → Nat → Nat → Prop
  | leaf {f f' : FragmentId} {i : Nat} (hf : s.fragments.get? f = some (.leaf (input.value i)))
      (hf' : s'.fragments.get? f' = some (.leaf (input'.value i))) (hi : i < input.size) :
      Alike s s' f f' i (i + 1)
  | bare {f f' : FragmentId} {x : Fragment} (i : Nat) (hf : s.fragments.get? f = some x)
      (hf' : s'.fragments.get? f' = some x) (hleaf : x.isLeaf = false) (hparts : x.parts = []) :
      Alike s s' f f' i i
  | one {f f' p p' : FragmentId} {x x' : Fragment} {i j : Nat}
      (hf : s.fragments.get? f = some x) (hf' : s'.fragments.get? f' = some x')
      (hskeleton : x.skeleton = x'.skeleton) (hparts : x.parts = [p]) (hparts' : x'.parts = [p'])
      (h : Alike s s' p p' i j) : Alike s s' f f' i j
  | two {f f' p p' q q' : FragmentId} {x x' : Fragment} {i j k : Nat}
      (hf : s.fragments.get? f = some x) (hf' : s'.fragments.get? f' = some x')
      (hskeleton : x.skeleton = x'.skeleton) (hparts : x.parts = [p, q])
      (hparts' : x'.parts = [p', q']) (hp : Alike s s' p p' i j) (hq : Alike s s' q q' j k) :
      Alike s s' f f' i k

/-- The number stands in both stores for a match from a position with fragments that are alike, or
for the same failure. -/
def Twin (s s' : Store) (i : Nat) (r : ResultId) : Prop :=
  (∃ f f' stop, s.Matched r f stop ∧ s'.Matched r f' stop ∧ s.Alike input input' s' f f' i stop) ∨
  ∃ k stop map, s.results.get? r = some ⟨.failure k, stop, map⟩ ∧
    s'.results.get? r = some ⟨.failure k, stop, map⟩

/-- The stores are the same, but for the fragments of matches. -/
structure Paired (s s' : Store) : Prop where
  sound : s.Sound
  sound' : s'.Sound
  failures : s.failures = s'.failures
  maps : s.maps = s'.maps
  size : s.results.size = s'.results.size
  twin : ∀ {r x}, s.results.get? r = some x → ∃ i, s.Twin input input' s' i r

end Store

end

namespace Store

variable {input input' : Input} {s s' t t' : Store} {f f' : FragmentId} {i j : Nat} {r : ResultId}

/-! ### Fragments -/

theorem Alike.mono (hgrows : s.Grows t) (hgrows' : s'.Grows t')
    (h : s.Alike input input' s' f f' i j) : t.Alike input input' t' f f' i j := by
  induction h with
  | leaf hf hf' hi => exact .leaf (hgrows.fragments hf) (hgrows'.fragments hf') hi
  | bare i hf hf' hleaf hparts =>
    exact .bare i (hgrows.fragments hf) (hgrows'.fragments hf') hleaf hparts
  | one hf hf' hskeleton hparts hparts' _ ih =>
    exact .one (hgrows.fragments hf) (hgrows'.fragments hf') hskeleton hparts hparts' ih
  | two hf hf' hskeleton hparts hparts' _ _ ihp ihq =>
    exact .two (hgrows.fragments hf) (hgrows'.fragments hf') hskeleton hparts hparts' ihp ihq

theorem Alike.symm (hsize : input.size = input'.size) (h : s.Alike input input' s' f f' i j) :
    s'.Alike input' input s f' f i j := by
  induction h with
  | leaf hf hf' hi => exact .leaf hf' hf (hsize ▸ hi)
  | bare i hf hf' hleaf hparts => exact .bare i hf' hf hleaf hparts
  | one hf hf' hskeleton hparts hparts' _ ih =>
    exact .one hf' hf hskeleton.symm hparts' hparts ih
  | two hf hf' hskeleton hparts hparts' _ _ ihp ihq =>
    exact .two hf' hf hskeleton.symm hparts' hparts ihp ihq

theorem Alike.exists_fragment (h : s.Alike input input' s' f f' i j) :
    (∃ x, s.fragments.get? f = some x) ∧ ∃ x, s'.fragments.get? f' = some x := by
  cases h with
  | leaf hf hf' _ => exact ⟨⟨_, hf⟩, _, hf'⟩
  | bare _ hf hf' _ _ => exact ⟨⟨_, hf⟩, _, hf'⟩
  | one hf hf' _ _ _ _ => exact ⟨⟨_, hf⟩, _, hf'⟩
  | two hf hf' _ _ _ _ _ => exact ⟨⟨_, hf⟩, _, hf'⟩

/-- A fragment is stored under one number. -/
theorem Sound.eq_of_get? (hs : s.Sound) {x : Fragment} (hf : s.fragments.get? f = some x)
    (hf' : s.fragments.get? f' = some x) : f = f' :=
  Option.some.inj (((hs.fragments x f).2 hf).symm.trans ((hs.fragments x f').2 hf'))

/-- A fragment and where it stops tell the fragment like it, and where they start. -/
theorem Alike.unique (hs' : s'.Sound) {f₁ f₂ : FragmentId} {i₁ i₂ : Nat}
    (h₁ : s.Alike input input' s' f f₁ i₁ j) (h₂ : s.Alike input input' s' f f₂ i₂ j) :
    i₁ = i₂ ∧ f₁ = f₂ := by
  induction h₁ generalizing f₂ i₂ with
  | leaf hf hf₁ _ =>
    cases h₂ with
    | leaf _ hf₂ _ => exact ⟨rfl, hs'.eq_of_get? hf₁ hf₂⟩
    | bare _ hf' _ hleaf _ =>
      cases hf.symm.trans hf'
      cases hleaf
    | one hf' _ _ hparts _ _ =>
      cases hf.symm.trans hf'
      cases hparts
    | two hf' _ _ hparts _ _ _ =>
      cases hf.symm.trans hf'
      cases hparts
  | bare _ hf hf₁ hleaf hparts =>
    cases h₂ with
    | leaf hf' _ _ =>
      cases hf.symm.trans hf'
      cases hleaf
    | bare _ hf' hf₂ _ _ =>
      cases hf.symm.trans hf'
      exact ⟨rfl, hs'.eq_of_get? hf₁ hf₂⟩
    | one hf' _ _ hparts' _ _ =>
      cases hf.symm.trans hf'
      cases hparts.symm.trans hparts'
    | two hf' _ _ hparts' _ _ _ =>
      cases hf.symm.trans hf'
      cases hparts.symm.trans hparts'
  | @one _ _ _ _ x x₁ _ _ hf hf₁ hskeleton hparts hparts₁ _ ih =>
    cases h₂ with
    | leaf hf' _ _ =>
      cases hf.symm.trans hf'
      cases hparts
    | bare _ hf' _ _ hparts' =>
      cases hf.symm.trans hf'
      cases hparts.symm.trans hparts'
    | @one _ _ _ _ x' x₂ _ _ hf' hf₂ hskeleton' hparts' hparts₂ h =>
      cases hf.symm.trans hf'
      cases hparts.symm.trans hparts'
      obtain ⟨rfl, rfl⟩ := ih h
      have hleaf : x₁.isLeaf = false := by cases x₁ <;> simp_all [Fragment.parts, Fragment.isLeaf]
      obtain rfl := Fragment.eq_of_skeleton hleaf (hskeleton.symm.trans hskeleton')
        (hparts₁.trans hparts₂.symm)
      exact ⟨rfl, hs'.eq_of_get? hf₁ hf₂⟩
    | two hf' _ _ hparts' _ _ _ =>
      cases hf.symm.trans hf'
      cases hparts.symm.trans hparts'
  | @two _ _ _ _ _ _ x x₁ _ _ _ hf hf₁ hskeleton hparts hparts₁ _ _ ihp ihq =>
    cases h₂ with
    | leaf hf' _ _ =>
      cases hf.symm.trans hf'
      cases hparts
    | bare _ hf' _ _ hparts' =>
      cases hf.symm.trans hf'
      cases hparts.symm.trans hparts'
    | one hf' _ _ hparts' _ _ =>
      cases hf.symm.trans hf'
      cases hparts.symm.trans hparts'
    | @two _ _ _ _ _ _ x' x₂ _ _ _ hf' hf₂ hskeleton' hparts' hparts₂ hp hq =>
      cases hf.symm.trans hf'
      cases hparts.symm.trans hparts'
      -- the last part tells where the one before it stops
      obtain ⟨rfl, rfl⟩ := ihq hq
      obtain ⟨rfl, rfl⟩ := ihp hp
      have hleaf : x₁.isLeaf = false := by cases x₁ <;> simp_all [Fragment.parts, Fragment.isLeaf]
      obtain rfl := Fragment.eq_of_skeleton hleaf (hskeleton.symm.trans hskeleton')
        (hparts₁.trans hparts₂.symm)
      exact ⟨rfl, hs'.eq_of_get? hf₁ hf₂⟩

/-! ### Results -/

theorem Twin.mono (hgrows : s.Grows t) (hgrows' : s'.Grows t') (h : s.Twin input input' s' i r) :
    t.Twin input input' t' i r := by
  rcases h with ⟨f, f', stop, hr, hr', h⟩ | ⟨k, stop, map, hr, hr'⟩
  · exact .inl ⟨f, f', stop, hgrows.matched hr, hgrows'.matched hr', h.mono hgrows hgrows'⟩
  · exact .inr ⟨k, stop, map, hgrows.results hr, hgrows'.results hr'⟩

theorem Twin.symm (hsize : input.size = input'.size) (h : s.Twin input input' s' i r) :
    s'.Twin input' input s i r := by
  rcases h with ⟨f, f', stop, hr, hr', h⟩ | ⟨k, stop, map, hr, hr'⟩
  · exact .inl ⟨f', f, stop, hr', hr, h.symm hsize⟩
  · exact .inr ⟨k, stop, map, hr', hr⟩

theorem Twin.known (h : s.Twin input input' s' i r) : s.Known r := by
  rcases h with ⟨f, f', stop, hr, -⟩ | ⟨k, stop, map, hr, -⟩
  · exact hr.known
  · exact ⟨_, hr⟩

theorem Twin.known' (h : s.Twin input input' s' i r) : s'.Known r := by
  rcases h with ⟨f, f', stop, -, hr', -⟩ | ⟨k, stop, map, -, hr'⟩
  · exact hr'.known
  · exact ⟨_, hr'⟩

theorem Paired.symm (hsize : input.size = input'.size) (h : s.Paired input input' s') :
    s'.Paired input' input s where
  sound := h.sound'
  sound' := h.sound
  failures := h.failures.symm
  maps := h.maps.symm
  size := h.size.symm
  twin {r x} hr := by
    have hlt : r < s.results.size := h.size ▸ (Array.getElem?_eq_some_iff.1 hr).1
    obtain ⟨i, htwin⟩ := h.twin (Array.getElem?_eq_getElem hlt)
    exact ⟨i, htwin.symm hsize⟩

end Store

/-! ### Storing -/

namespace Interner

variable {α β : Type} [Ord α] [Ord β]

/-- Values that two stores know under the same numbers, or not at all, get one number. -/
theorem intern_congr {s : Interner α} {s' : Interner β} (hs : s.Faithful) (hs' : s'.Faithful)
    (hsize : s.size = s'.size) {a : α} {b : β} (h : ∀ n, s.get? n = some a ↔ s'.get? n = some b) :
    (s.intern a).1 = (s'.intern b).1 ∧ (s.intern a).2.size = (s'.intern b).2.size := by
  cases ha : s.numbers[a]? with
  | some n =>
    have hb : s'.numbers[b]? = some n := (hs' b n).2 ((h n).1 ((hs a n).1 ha))
    rw [intern_of_some ha, intern_of_some hb]
    exact ⟨rfl, hsize⟩
  | none =>
    have hb : s'.numbers[b]? = none := by
      rw [Option.eq_none_iff_forall_ne_some]
      intro n hn
      rw [(hs a n).2 ((h n).2 ((hs' b n).1 hn))] at ha
      cases ha
    rw [intern_of_none ha, intern_of_none hb]
    simp only [size] at hsize ⊢
    exact ⟨hsize, by simp [hsize]⟩

end Interner

namespace Store

variable {input input' : Input} {s s' t t' u u' : Store} {i j : Nat} {r : ResultId}

/-- Both stores have grown, and are still alike. -/
structure Advance (input input' : Input) (s s' t t' : Store) : Prop where
  paired : t.Paired input input' t'
  grows : s.Grows t
  grows' : s'.Grows t'

theorem Paired.refl_advance (h : s.Paired input input' s') : Advance input input' s s' s s' :=
  ⟨h, .refl s, .refl s'⟩

theorem Advance.trans (h : Advance input input' s s' t t') (h' : Advance input input' t t' u u') :
    Advance input input' s s' u u' :=
  ⟨h'.paired, h.grows.trans h'.grows, h.grows'.trans h'.grows'⟩

theorem Twin.advance (h : s.Twin input input' s' i r) (hstep : Advance input input' s s' t t') :
    t.Twin input input' t' i r :=
  h.mono hstep.grows hstep.grows'

/-- A result is stored under one number. -/
theorem Sound.eq_of_result (hs : s.Sound) {r' : ResultId} {x : Result}
    (hr : s.results.get? r = some x) (hr' : s.results.get? r' = some x) : r = r' :=
  Option.some.inj (((hs.results x r).2 hr).symm.trans ((hs.results x r').2 hr'))

/-- Both stores have stored a result that was known to both or to none. -/
theorem Paired.stored (h : s.Paired input input' s') (hextends : s.Extends t)
    (hextends' : s'.Extends t') {r' : ResultId} {x x' : Result}
    (hknown : ∀ n, s.results.get? n = some x ↔ s'.results.get? n = some x')
    (hresults : s.results.intern x = (r, t.results))
    (hresults' : s'.results.intern x' = (r', t'.results)) (hfailures : t.failures = t'.failures)
    (hmaps : t.maps = t'.maps) (hr : t.results.get? r = some x)
    (htwin : r = r' → t.Twin input input' t' i r) :
    r = r' ∧ Advance input input' s s' t t' ∧ t.Twin input input' t' i r := by
  obtain ⟨hsame, hsize⟩ := Interner.intern_congr h.sound.results h.sound'.results h.size hknown
  rw [hresults, hresults'] at hsame hsize
  have htwin := htwin hsame
  refine ⟨hsame, ⟨⟨hextends.sound, hextends'.sound, hfailures, hmaps, hsize, ?_⟩,
    hextends.grows, hextends'.grows⟩, htwin⟩
  intro n y hn
  have hcases := Interner.get?_intern_cases s.results x (n := n) (b := y)
  rw [hresults] at hcases
  rcases hcases hn with hold | ⟨rfl, -⟩
  · obtain ⟨i', hold⟩ := h.twin hold
    exact ⟨i', hold.mono hextends.grows hextends'.grows⟩
  · obtain rfl := hextends.sound.eq_of_result hr hn
    exact ⟨i, htwin⟩

/-- Both stores store a match from a position, with fragments that will be alike. -/
theorem Paired.success (h : s.Paired input input' s') (hsize : input.size = input'.size)
    {x x' : Fragment} (hparts : ∀ q ∈ x.parts, ∃ part, s.fragments.get? q = some part)
    (hparts' : ∀ q ∈ x'.parts, ∃ part, s'.fragments.get? q = some part)
    (hnew : ∀ {t t' f f'}, s.Grows t → s'.Grows t' → t.fragments.get? f = some x →
      t'.fragments.get? f' = some x' → t.Alike input input' t' f f' i j) :
    ∃ r t t', Store.success x j emptyMap s = (r, t) ∧ Store.success x' j emptyMap s' = (r, t') ∧
      Advance input input' s s' t t' ∧ t.Twin input input' t' i r := by
  obtain ⟨r, t, f, heq, hextends, hf, hr⟩ := h.sound.success_eq hparts j
  obtain ⟨r', t', f', heq', hextends', hf', hr'⟩ := h.sound'.success_eq hparts' j
  have halike := hnew hextends.grows hextends'.grows hf hf'
  -- a match is known to one store if a match like it is known to the other
  have hknown (n : Nat) : s.results.get? n = some ⟨.success f, j, emptyMap⟩ ↔
      s'.results.get? n = some ⟨.success f', j, emptyMap⟩ := by
    constructor
    · intro hn
      obtain ⟨_, ⟨g, g', stop, hg, hg', hold⟩ | ⟨k, stop, map, hk, -⟩⟩ := h.twin hn
      · cases hn.symm.trans hg
        obtain ⟨-, rfl⟩ :=
          (hold.mono hextends.grows hextends'.grows).unique hextends'.sound halike
        exact hg'
      · cases hn.symm.trans hk
    · intro hn
      obtain ⟨_, ⟨g, g', stop, hg, hg', hold⟩ | ⟨k, stop, map, hk, -⟩⟩ := (h.symm hsize).twin hn
      · cases hn.symm.trans hg
        obtain ⟨-, rfl⟩ := (hold.mono hextends'.grows hextends.grows).unique hextends.sound
          (halike.symm hsize)
        exact hg'
      · cases hn.symm.trans hk
  have hstored : s.results.intern ⟨.success f, j, emptyMap⟩ = (r, t.results) ∧
      t.failures = s.failures ∧ t.maps = s.maps := by
    cases heq
    rw [hextends.sound.eq_of_get? hf (Interner.get?_intern_self _ h.sound.fragments x)]
    exact ⟨rfl, rfl, rfl⟩
  have hstored' : s'.results.intern ⟨.success f', j, emptyMap⟩ = (r', t'.results) ∧
      t'.failures = s'.failures ∧ t'.maps = s'.maps := by
    cases heq'
    rw [hextends'.sound.eq_of_get? hf' (Interner.get?_intern_self _ h.sound'.fragments x')]
    exact ⟨rfl, rfl, rfl⟩
  obtain ⟨rfl, hstep, htwin⟩ := h.stored hextends hextends' hknown hstored.1 hstored'.1
    (hstored.2.1.trans (h.failures.trans hstored'.2.1.symm))
    (hstored.2.2.trans (h.maps.trans hstored'.2.2.symm)) hr
    fun hsame => .inl ⟨f, f', j, hr, hsame ▸ hr', halike⟩
  exact ⟨r, t, t', heq, heq', hstep, htwin⟩

/-- Both stores store a failure. -/
theorem Paired.failure (h : s.Paired input input' s') (kind : FailureKind) (position : Nat)
    (map : MapId) (i : Nat) :
    ∃ r t t', Store.failure kind position map s = (r, t) ∧
      Store.failure kind position map s' = (r, t') ∧
      Advance input input' s s' t t' ∧ t.Twin input input' t' i r := by
  obtain ⟨r, t, k, heq, hextends, hk, hr⟩ := h.sound.failure_eq kind position map
  obtain ⟨r', t', k', heq', hextends', hk', hr'⟩ := h.sound'.failure_eq kind position map
  have hkind : k = (s.failures.intern kind).1 ∧ t.failures = (s.failures.intern kind).2 ∧
      s.results.intern ⟨.failure (s.failures.intern kind).1, position, map⟩ = (r, t.results) ∧
      t.maps = s.maps := by
    cases heq
    have hself := Interner.get?_intern_self _ h.sound.failures kind
    exact ⟨Option.some.inj (((hextends.sound.failures kind k).2 hk).symm.trans
      ((hextends.sound.failures kind _).2 hself)), rfl, rfl, rfl⟩
  have hkind' : k' = (s.failures.intern kind).1 ∧ t'.failures = (s.failures.intern kind).2 ∧
      s'.results.intern ⟨.failure (s.failures.intern kind).1, position, map⟩ = (r', t'.results) ∧
      t'.maps = s'.maps := by
    cases heq'
    have hself := Interner.get?_intern_self _ h.sound'.failures kind
    rw [h.failures]
    exact ⟨Option.some.inj (((hextends'.sound.failures kind k').2 hk').symm.trans
      ((hextends'.sound.failures kind _).2 hself)), rfl, rfl, rfl⟩
  obtain ⟨rfl, hfailures, hresults, hmaps⟩ := hkind
  obtain ⟨rfl, hfailures', hresults', hmaps'⟩ := hkind'
  have hknown (n : Nat) :
      s.results.get? n = some ⟨.failure (s.failures.intern kind).1, position, map⟩ ↔
        s'.results.get? n = some ⟨.failure (s.failures.intern kind).1, position, map⟩ := by
    constructor
    · intro hn
      obtain ⟨_, ⟨g, g', stop, hg, -, -⟩ | ⟨k, stop, map', hold, hold'⟩⟩ := h.twin hn
      · cases hn.symm.trans hg
      · cases hn.symm.trans hold
        exact hold'
    · intro hn
      have hlt : n < s.results.size := h.size ▸ (Array.getElem?_eq_some_iff.1 hn).1
      obtain ⟨_, ⟨g, g', stop, -, hg', -⟩ | ⟨k, stop, map', hold, hold'⟩⟩ :=
        h.twin (Array.getElem?_eq_getElem hlt)
      · cases hn.symm.trans hg'
      · cases hn.symm.trans hold'
        exact hold
  obtain ⟨rfl, hstep, htwin⟩ := h.stored (i := i) hextends hextends' hknown hresults hresults'
    (hfailures.trans hfailures'.symm) (hmaps.trans (h.maps.trans hmaps'.symm)) hr
    fun hsame => .inr ⟨_, position, map, hr, hsame ▸ hr'⟩
  exact ⟨r, t, t', heq, heq', hstep, htwin⟩

end Store

end ReversibleGrammar
