/-
Trees that follow a grammar, whatever their tokens.

* `Tree.childrenInduction` — induction from the children of a tree to the tree;
* `Tree.Fits`, `exists_fits_of_mem_children` — each node is of the pattern that the grammar puts
  there;
* `exists_derives_of_mem_children`, `fits_of_derives` — the children of a derivation are
  derivations, and derivations fit;
* `Tree.height` — how many patterns deep a tree is;
* `Tree.leaves` — the leaves of a tree, with their patterns.
-/
import ReversibleGrammar.Proofs.Grammar.Derivation

namespace ReversibleGrammar

/-- What is layout without a child is not layout around one. -/
theorem PatternKind.wrapped?_eq_none {g : Grammar} {kind : PatternKind} (h : kind.mark?.isSome) :
    kind.wrapped? g = none := by
  cases kind <;> first | rfl | cases h

namespace Tree

variable {τ ν : Type}

/-- What holds of a tree if it holds of its children holds of all trees. -/
theorem childrenInduction {P : Tree ν → Prop} (h : ∀ t, (∀ u ∈ t.children, P u) → P t)
    (t : Tree ν) : P t := by
  refine Tree.rec (motive_1 := P) (motive_2 := fun ts => ∀ u ∈ ts, P u) (fun p v => ?_)
    (fun p ts hts => ?_) (fun p index t ht => ?_) (fun p items separators hitems hseparators => ?_)
    (fun p => ?_) (fun p t ht => ?_) (fun p t ht => ?_) (fun p => ?_) (List.forall_mem_nil P)
    (fun t ts ht hts => List.forall_mem_cons.2 ⟨ht, hts⟩) t
  · exact h _ (List.forall_mem_nil P)
  · exact h _ hts
  · exact h _ (List.forall_mem_singleton.2 ht)
  · exact h _ (List.forall_mem_append.2 ⟨hitems, hseparators⟩)
  · exact h _ (List.forall_mem_nil P)
  · exact h _ (List.forall_mem_singleton.2 ht)
  · exact h _ (List.forall_mem_singleton.2 ht)
  · exact h _ (List.forall_mem_nil P)

/-! ### Patterns at the nodes -/

mutual

/-- Each node of the tree is of the pattern that the grammar puts there. -/
def Fits (g : Grammar) : Tree ν → PatternId → Prop
  | leaf p _, id => g.pattern? id = some p ∧ ∃ terminal, p.kind = .consume terminal
  | sequence p ts, id => g.pattern? id = some p ∧ ∃ children,
    p.kind = .sequence children ∧
      List.Forall₂ (fun fits child => fits child) (fitsEach g ts) children
  | choice p index t, id => g.pattern? id = some p ∧ ∃ alternatives mode names alternative,
    p.kind = .choice alternatives mode names ∧ alternatives[index]? = some alternative ∧
      t.Fits g alternative
  | many p items separators, id => g.pattern? id = some p ∧ ∃ item separator,
    p.kind = .many item separator ∧ (∀ fits ∈ fitsEach g items, fits item) ∧
      separators.length = (if separator.isSome then items.length - 1 else 0) ∧
      ∀ fits ∈ fitsEach g separators, ∃ s, separator = some s ∧ fits s
  | absent p, id => g.pattern? id = some p ∧ ∃ item, p.kind = .option item
  | present p t, id => g.pattern? id = some p ∧ ∃ item, p.kind = .option item ∧ t.Fits g item
  | wrapped p t, id => g.pattern? id = some p ∧ ∃ wrapper child,
    p.kind.wrapped? g = some (wrapper, child) ∧ t.Fits g child
  | mark p, id => g.pattern? id = some p ∧ ∃ marker, p.kind.mark? = some marker

/-- What each of several trees fits. -/
def fitsEach (g : Grammar) : List (Tree ν) → List (PatternId → Prop)
  | [] => []
  | t :: ts => t.Fits g :: fitsEach g ts

end

theorem fitsEach_eq_map (g : Grammar) (ts : List (Tree ν)) :
    fitsEach g ts = ts.map fun t => t.Fits g := by
  induction ts with
  | nil => rfl
  | cons t ts ih => exact congrArg (t.Fits g :: ·) ih

/-- The trees that a pattern of a kind may have at its root. -/
inductive RootOf (g : Grammar) : PatternKind → Tree ν → Prop
  | leaf (terminal p v) : RootOf g (.consume terminal) (leaf p v)
  | sequence (children p ts) : RootOf g (.sequence children) (sequence p ts)
  | choice (alternatives mode names p index t) :
    RootOf g (.choice alternatives mode names) (choice p index t)
  | many (item separator p items separators) :
    RootOf g (.many item separator) (many p items separators)
  | absent (item p) : RootOf g (.option item) (absent p)
  | present (item p t) : RootOf g (.option item) (present p t)
  | wrapped (kind p t) (h : (kind.wrapped? g).isSome) : RootOf g kind (wrapped p t)
  | mark (kind p) (h : kind.mark?.isSome) : RootOf g kind (mark p)

section

variable {g : Grammar} {p : Pattern} {id : PatternId}

theorem fits_sequence_iff {ts : List (Tree ν)} : (sequence p ts).Fits g id ↔
    g.pattern? id = some p ∧ ∃ children, p.kind = .sequence children ∧
      List.Forall₂ (fun t child => t.Fits g child) ts children := by
  refine and_congr_right fun _ => exists_congr fun children => and_congr_right fun _ => ?_
  rw [fitsEach_eq_map, List.forall₂_map_left_iff]

theorem fits_many_iff {items separators : List (Tree ν)} :
    (many p items separators).Fits g id ↔ g.pattern? id = some p ∧ ∃ item separator,
      p.kind = .many item separator ∧ (∀ t ∈ items, t.Fits g item) ∧
      separators.length = (if separator.isSome then items.length - 1 else 0) ∧
      ∀ t ∈ separators, ∃ s, separator = some s ∧ t.Fits g s := by
  refine and_congr_right fun _ => exists_congr fun item => exists_congr fun separator => ?_
  simp only [fitsEach_eq_map, List.forall_mem_map]

variable {t : Tree ν}

theorem Fits.pattern?_eq (h : t.Fits g id) : g.pattern? id = some t.pattern := by
  cases t <;> exact h.1

/-- The root of what fits a pattern is one for the kind of the pattern. -/
theorem Fits.rootOf (h : t.Fits g id) : RootOf g t.pattern.kind t := by
  cases t with
  | leaf p v =>
    obtain ⟨-, terminal, hkind⟩ := h
    exact hkind ▸ .leaf terminal p v
  | sequence p ts =>
    obtain ⟨-, children, hkind, -⟩ := h
    exact hkind ▸ .sequence children p ts
  | choice p index t =>
    obtain ⟨-, alternatives, mode, names, -, hkind, -⟩ := h
    exact hkind ▸ .choice alternatives mode names p index t
  | many p items separators =>
    obtain ⟨-, item, separator, hkind, -⟩ := h
    exact hkind ▸ .many item separator p items separators
  | absent p =>
    obtain ⟨-, item, hkind⟩ := h
    exact hkind ▸ .absent item p
  | present p t =>
    obtain ⟨-, item, hkind, -⟩ := h
    exact hkind ▸ .present item p t
  | wrapped p t =>
    obtain ⟨-, wrapper, child, hkind, -⟩ := h
    exact .wrapped _ p t (hkind ▸ rfl)
  | mark p =>
    obtain ⟨-, marker, hkind⟩ := h
    exact .mark _ p (hkind ▸ rfl)

theorem Fits.pattern_eq (h : t.Fits g id) (hp : g.pattern? id = some p) : t.pattern = p :=
  Option.some.inj (h.pattern?_eq.symm.trans hp)

theorem Fits.eq_leaf (h : t.Fits g id) (hp : g.pattern? id = some p) {terminal : String}
    (hkind : p.kind = .consume terminal) : ∃ v, t = leaf p v := by
  obtain rfl := h.pattern_eq hp
  have hroot := h.rootOf
  rw [hkind] at hroot
  cases hroot with
  | leaf _ p v => exact ⟨v, rfl⟩
  | wrapped _ _ _ hsome | mark _ _ hsome => cases hsome

theorem Fits.eq_sequence (h : t.Fits g id) (hp : g.pattern? id = some p)
    {children : List PatternId} (hkind : p.kind = .sequence children) :
    ∃ ts, t = sequence p ts ∧ List.Forall₂ (fun t child => t.Fits g child) ts children := by
  obtain rfl := h.pattern_eq hp
  have hroot := h.rootOf
  rw [hkind] at hroot
  cases hroot with
  | sequence _ p ts =>
    obtain ⟨-, children', hkind', hts⟩ := fits_sequence_iff.1 h
    cases hkind.symm.trans hkind'
    exact ⟨ts, rfl, hts⟩
  | wrapped _ _ _ hsome | mark _ _ hsome => cases hsome

theorem Fits.eq_choice (h : t.Fits g id) (hp : g.pattern? id = some p)
    {alternatives : List PatternId} {mode : ChoiceMode} {names : Option (List String)}
    (hkind : p.kind = .choice alternatives mode names) :
    ∃ index u alternative, t = choice p index u ∧ alternatives[index]? = some alternative ∧
      u.Fits g alternative := by
  obtain rfl := h.pattern_eq hp
  have hroot := h.rootOf
  rw [hkind] at hroot
  cases hroot with
  | choice _ _ _ p index u =>
    obtain ⟨-, alternatives', mode', names', alternative, hkind', halternative, hu⟩ := h
    cases hkind.symm.trans hkind'
    exact ⟨index, u, alternative, rfl, halternative, hu⟩
  | wrapped _ _ _ hsome | mark _ _ hsome => cases hsome

theorem Fits.eq_many (h : t.Fits g id) (hp : g.pattern? id = some p) {item : PatternId}
    {separator : Option PatternId} (hkind : p.kind = .many item separator) :
    ∃ items separators, t = many p items separators ∧ (∀ u ∈ items, u.Fits g item) ∧
      separators.length = (if separator.isSome then items.length - 1 else 0) ∧
      ∀ u ∈ separators, ∃ s, separator = some s ∧ u.Fits g s := by
  obtain rfl := h.pattern_eq hp
  have hroot := h.rootOf
  rw [hkind] at hroot
  cases hroot with
  | many _ _ p items separators =>
    obtain ⟨-, item', separator', hkind', hrest⟩ := fits_many_iff.1 h
    cases hkind.symm.trans hkind'
    exact ⟨items, separators, rfl, hrest⟩
  | wrapped _ _ _ hsome | mark _ _ hsome => cases hsome

theorem Fits.eq_wrapped (h : t.Fits g id) (hp : g.pattern? id = some p) {wrapper : Wrapper}
    {child : PatternId} (hkind : p.kind.wrapped? g = some (wrapper, child)) :
    ∃ u, t = wrapped p u ∧ u.Fits g child := by
  obtain rfl := h.pattern_eq hp
  have hroot := h.rootOf
  generalize hk : t.pattern.kind = kind at hroot hkind
  cases hroot with
  | wrapped _ p u =>
    obtain ⟨-, wrapper', child', hkind', hu⟩ := h
    cases hkind.symm.trans (hk ▸ hkind')
    exact ⟨u, rfl, hu⟩
  | mark _ _ hsome =>
    rw [PatternKind.wrapped?_eq_none hsome] at hkind
    cases hkind
  | _ => cases hkind

theorem Fits.eq_mark (h : t.Fits g id) (hp : g.pattern? id = some p) {marker : Marker}
    (hkind : p.kind.mark? = some marker) : t = mark p := by
  obtain rfl := h.pattern_eq hp
  have hroot := h.rootOf
  generalize t.pattern.kind = kind at hroot hkind
  cases hroot with
  | mark _ p => rfl
  | wrapped _ _ _ hsome =>
    rw [PatternKind.wrapped?_eq_none (hkind ▸ rfl)] at hsome
    cases hsome
  | _ => cases hkind

end

/-- The children of a tree fit patterns of the grammar. -/
theorem exists_fits_of_mem_children {g : Grammar} {t u : Tree ν} {id : PatternId}
    (h : t.Fits g id) (hu : u ∈ t.children) : ∃ child, u.Fits g child := by
  cases t with
  | leaf | absent | mark => cases hu
  | sequence p ts =>
    obtain ⟨-, children, -, hts⟩ := fits_sequence_iff.1 h
    obtain ⟨child, -, hchild⟩ := exists_of_forall₂_of_mem hts.flip hu
    exact ⟨child, hchild⟩
  | choice p index t =>
    obtain ⟨-, alternatives, mode, names, alternative, -, -, ht⟩ := h
    exact ⟨alternative, List.mem_singleton.1 hu ▸ ht⟩
  | many p items separators =>
    obtain ⟨-, item, separator, -, hitems, -, hseparators⟩ := fits_many_iff.1 h
    rcases List.mem_append.1 hu with hu | hu
    · exact ⟨item, hitems u hu⟩
    · obtain ⟨s, -, hs⟩ := hseparators u hu
      exact ⟨s, hs⟩
  | present p t =>
    obtain ⟨-, item, -, ht⟩ := h
    exact ⟨item, List.mem_singleton.1 hu ▸ ht⟩
  | wrapped p t =>
    obtain ⟨-, wrapper, child, -, ht⟩ := h
    exact ⟨child, List.mem_singleton.1 hu ▸ ht⟩

/-! ### Derivations -/

section

variable [Token τ ν] {g : Grammar} {tokens : Array τ}

theorem exists_of_threads {rs : List (Nat → Nat → Prop)} {i j : Nat} (h : Threads rs i j) :
    ∀ r ∈ rs, ∃ k l, r k l := by
  induction rs generalizing i with
  | nil => exact List.forall_mem_nil _
  | cons r rs ih =>
    obtain ⟨k, hr, hrs⟩ := h
    exact List.forall_mem_cons.2 ⟨⟨i, k, hr⟩, ih hrs⟩

theorem mem_interleave {α : Type} {x : α} {xs ys : List α} (hlength : ys.length ≤ xs.length)
    (h : x ∈ xs ∨ x ∈ ys) : x ∈ interleave xs ys := by
  induction xs generalizing ys with
  | nil =>
    obtain rfl : ys = [] := List.length_eq_zero_iff.1 (Nat.le_zero.1 hlength)
    exact h.elim id id
  | cons y xs ih =>
    cases ys with
    | nil => simpa using h
    | cons z ys =>
      have ih := @ih ys (by simpa using hlength)
      simp only [interleave, List.mem_cons] at h ⊢
      tauto

/-- The children of a sequence that is a derivation are derivations of its children. -/
theorem forall₂_of_derives_sequence {p : Pattern} {ts : List (Tree ν)} {id : PatternId} {i j : Nat}
    (h : (sequence p ts).Derives g tokens id i j) : g.pattern? id = some p ∧ ∃ children,
      p.kind = .sequence children ∧
        List.Forall₂ (fun t child => ∃ k l, t.Derives g tokens child k l) ts children := by
  obtain ⟨hp, children, hkind, hlength, hthreads⟩ := h
  refine ⟨hp, children, hkind, ?_⟩
  rw [derivesEach_eq_map] at hthreads
  rw [List.forall₂_iff_get]
  refine ⟨hlength.symm, fun n hn hn' => ?_⟩
  -- the child at the place is on the way
  have hmem : ts[n].Derives g tokens children[n] ∈
      List.zipWith (fun derives child => derives child)
        (ts.map fun t => t.Derives g tokens) children :=
    List.mem_iff_getElem.2 ⟨n, by simp [hn, hn'], by simp⟩
  exact exists_of_threads hthreads _ hmem

/-- The parts of a repetition that is a derivation are derivations of its item and separator. -/
theorem forall_of_derives_many {p : Pattern} {items separators : List (Tree ν)} {id : PatternId}
    {i j : Nat} (h : (many p items separators).Derives g tokens id i j) :
    g.pattern? id = some p ∧ ∃ item separator, p.kind = .many item separator ∧
      (∀ t ∈ items, ∃ k l, t.Derives g tokens item k l) ∧
      separators.length = (if separator.isSome then items.length - 1 else 0) ∧
      ∀ t ∈ separators, ∃ s, separator = some s ∧ ∃ k l, t.Derives g tokens s k l := by
  obtain ⟨hp, item, separator, hkind, hlength, hthreads⟩ := h
  have hle : separators.length ≤ items.length := by
    rw [hlength]
    split <;> omega
  have hall := exists_of_threads hthreads
  rw [derivesEach_eq_map, derivesEach_eq_map] at hall
  refine ⟨hp, item, separator, hkind, fun t ht => ?_, hlength, fun t ht => ?_⟩
  · exact hall _ (mem_interleave (by simpa using hle)
      (.inl (List.mem_map_of_mem (List.mem_map_of_mem ht))))
  · obtain ⟨k, l, s, hs, hk⟩ := hall _ (mem_interleave (by simpa using hle)
      (.inr (List.mem_map_of_mem (List.mem_map_of_mem ht))))
    exact ⟨s, hs, k, l, hk⟩

/-- The children of a derivation are derivations. -/
theorem exists_derives_of_mem_children {t u : Tree ν} {id : PatternId} {i j : Nat}
    (h : t.Derives g tokens id i j) (hu : u ∈ t.children) :
    ∃ child k l, u.Derives g tokens child k l := by
  cases t with
  | leaf | absent | mark => cases hu
  | sequence p ts =>
    obtain ⟨-, children, -, hall⟩ := forall₂_of_derives_sequence h
    obtain ⟨child, -, hchild⟩ := exists_of_forall₂_of_mem hall.flip hu
    exact ⟨child, hchild⟩
  | choice p index t =>
    obtain ⟨-, alternatives, mode, names, alternative, -, -, ht⟩ := h
    rw [List.mem_singleton.1 hu]
    exact ⟨alternative, i, j, ht⟩
  | many p items separators =>
    obtain ⟨-, item, separator, -, hitems, -, hseparators⟩ := forall_of_derives_many h
    rcases List.mem_append.1 hu with hu | hu
    · exact ⟨item, hitems u hu⟩
    · obtain ⟨s, -, hs⟩ := hseparators u hu
      exact ⟨s, hs⟩
  | present p t =>
    obtain ⟨-, item, -, ht⟩ := h
    rw [List.mem_singleton.1 hu]
    exact ⟨item, i, j, ht⟩
  | wrapped p t =>
    obtain ⟨-, wrapper, child, -, ht⟩ := h
    rw [List.mem_singleton.1 hu]
    exact ⟨child, i, j, ht⟩

/-- A derivation fits its pattern. -/
theorem fits_of_derives {t : Tree ν} {id : PatternId} {i j : Nat}
    (h : t.Derives g tokens id i j) : t.Fits g id := by
  induction t using childrenInduction generalizing id i j with
  | h t ih =>
  cases t with
  | leaf p v =>
    obtain ⟨hp, terminal, -, hkind, -⟩ := h
    exact ⟨hp, terminal, hkind⟩
  | sequence p ts =>
    obtain ⟨hp, children, hkind, hall⟩ := forall₂_of_derives_sequence h
    refine fits_sequence_iff.2 ⟨hp, children, hkind, forall₂_imp_of_mem (fun t ht child => ?_) hall⟩
    rintro ⟨k, l, hchild⟩
    exact ih t ht hchild
  | choice p index t =>
    obtain ⟨hp, alternatives, mode, names, alternative, hkind, halternative, ht⟩ := h
    exact ⟨hp, alternatives, mode, names, alternative, hkind, halternative,
      ih t List.mem_cons_self ht⟩
  | many p items separators =>
    obtain ⟨hp, item, separator, hkind, hitems, hlength, hseparators⟩ := forall_of_derives_many h
    refine fits_many_iff.2 ⟨hp, item, separator, hkind, fun t ht => ?_, hlength, fun t ht => ?_⟩
    · obtain ⟨k, l, hk⟩ := hitems t ht
      exact ih t (List.mem_append_left _ ht) hk
    · obtain ⟨s, hs, k, l, hk⟩ := hseparators t ht
      exact ⟨s, hs, ih t (List.mem_append_right _ ht) hk⟩
  | absent p =>
    obtain ⟨hp, hkind, -⟩ := h
    exact ⟨hp, hkind⟩
  | present p t =>
    obtain ⟨hp, item, hkind, ht⟩ := h
    exact ⟨hp, item, hkind, ih t List.mem_cons_self ht⟩
  | wrapped p t =>
    obtain ⟨hp, wrapper, child, hkind, ht⟩ := h
    exact ⟨hp, wrapper, child, hkind, ih t List.mem_cons_self ht⟩
  | mark p =>
    obtain ⟨hp, hkind, -⟩ := h
    exact ⟨hp, hkind⟩

end

/-! ### Heights and leaves -/

mutual

/-- The number of patterns on the longest way down the tree. -/
def height : Tree ν → Nat
  | leaf _ _ | absent _ | mark _ => 1
  | sequence _ ts => heightAll ts + 1
  | choice _ _ t | present _ t | wrapped _ t => t.height + 1
  | many _ items separators => max (heightAll items) (heightAll separators) + 1

/-- The greatest height among several trees. -/
def heightAll : List (Tree ν) → Nat
  | [] => 0
  | t :: ts => max t.height (heightAll ts)

end

theorem height_le_heightAll {ts : List (Tree ν)} {t : Tree ν} (h : t ∈ ts) :
    t.height ≤ heightAll ts := by
  induction ts with
  | nil => cases h
  | cons u ts ih =>
    rw [heightAll]
    rcases List.mem_cons.1 h with rfl | h
    · exact le_max_left _ _
    · exact (ih h).trans (le_max_right _ _)

theorem height_lt_of_mem_children {t u : Tree ν} (h : u ∈ t.children) : u.height < t.height := by
  cases t with
  | leaf | absent | mark => cases h
  | sequence p ts => exact Nat.lt_succ_of_le (height_le_heightAll h)
  | choice | present | wrapped =>
    rw [List.mem_singleton.1 h]
    exact Nat.lt_succ_self _
  | many p items separators =>
    refine Nat.lt_succ_of_le ?_
    rcases List.mem_append.1 h with h | h
    · exact (height_le_heightAll h).trans (le_max_left _ _)
    · exact (height_le_heightAll h).trans (le_max_right _ _)

theorem height_pos (t : Tree ν) : 0 < t.height := by
  cases t <;> exact Nat.succ_pos _

/-- The values of a child stand together among those of the tree. -/
theorem values_infix_of_mem_children {g : Grammar} {t u : Tree ν} {id : PatternId}
    (h : t.Fits g id) (hu : u ∈ t.children) : u.values <:+: t.values := by
  cases t with
  | leaf | absent | mark => cases hu
  | sequence p ts =>
    rw [values, valuesEach_eq_map]
    exact List.infix_of_mem_flatten (List.mem_map_of_mem hu)
  | choice | present | wrapped =>
    rw [List.mem_singleton.1 hu]
    exact List.infix_rfl
  | many p items separators =>
    obtain ⟨-, item, separator, -, -, hlength, -⟩ := fits_many_iff.1 h
    rw [values, valuesEach_eq_map, valuesEach_eq_map]
    refine List.infix_of_mem_flatten (mem_interleave ?_ ?_)
    · rw [List.length_map, List.length_map, hlength]
      split <;> omega
    · exact (List.mem_append.1 hu).imp List.mem_map_of_mem List.mem_map_of_mem

mutual

/-- The leaves of a tree, with their patterns. -/
def leaves : Tree ν → List (Pattern × ν)
  | leaf p v => [(p, v)]
  | sequence _ ts => leavesAll ts
  | choice _ _ t | present _ t | wrapped _ t => t.leaves
  | many _ items separators => leavesAll items ++ leavesAll separators
  | absent _ | mark _ => []

/-- The leaves of several trees. -/
def leavesAll : List (Tree ν) → List (Pattern × ν)
  | [] => []
  | t :: ts => t.leaves ++ leavesAll ts

end

theorem mem_leavesAll {ts : List (Tree ν)} {l : Pattern × ν} :
    l ∈ leavesAll ts ↔ ∃ t ∈ ts, l ∈ t.leaves := by
  induction ts with
  | nil => simp [leavesAll]
  | cons t ts ih => simp [leavesAll, ih]

/-- A leaf of a tree is the tree or a leaf of one of its children. -/
theorem mem_leaves {t : Tree ν} {l : Pattern × ν} :
    l ∈ t.leaves ↔ t = leaf l.1 l.2 ∨ ∃ u ∈ t.children, l ∈ u.leaves := by
  cases t with
  | leaf p v => simp [leaves, children, Prod.ext_iff, eq_comm]
  | many p items separators =>
    simp [leaves, children, mem_leavesAll, or_and_right, exists_or]
  | _ => simp [leaves, children, mem_leavesAll]

theorem mem_leaves_of_mem_children {t u : Tree ν} (hu : u ∈ t.children) {l : Pattern × ν}
    (h : l ∈ u.leaves) : l ∈ t.leaves :=
  mem_leaves.2 (.inr ⟨u, hu, h⟩)

/-- The leaves of what fits a pattern have patterns of the grammar. -/
theorem exists_pattern?_of_mem_leaves {g : Grammar} {t : Tree ν} {id : PatternId}
    (h : t.Fits g id) {l : Pattern × ν} (hleaf : l ∈ t.leaves) :
    ∃ id, g.pattern? id = some l.1 := by
  induction t using childrenInduction generalizing id with
  | h t ih =>
  rcases mem_leaves.1 hleaf with rfl | ⟨u, hu, hleaf⟩
  · exact ⟨id, h.1⟩
  · obtain ⟨child, hchild⟩ := exists_fits_of_mem_children h hu
    exact ih u hu hchild hleaf

/-- The leaves of a derivation are values of tokens. -/
theorem exists_token_of_mem_leaves [Token τ ν] {g : Grammar} {tokens : Array τ} {t : Tree ν}
    {id : PatternId} {i j : Nat} (h : t.Derives g tokens id i j) {l : Pattern × ν}
    (hleaf : l ∈ t.leaves) : ∃ terminal, l.1.kind = .consume terminal ∧
      ∃ token ∈ tokens, Token.is token terminal = true ∧ l.2 = Token.value token := by
  induction t using childrenInduction generalizing id i j with
  | h t ih =>
  rcases mem_leaves.1 hleaf with rfl | ⟨u, hu, hleaf⟩
  · obtain ⟨-, terminal, token, hkind, htoken, his, hvalue, -⟩ := h
    exact ⟨terminal, hkind, token, Array.mem_of_getElem? htoken, his, hvalue⟩
  · obtain ⟨child, k, l, hchild⟩ := exists_derives_of_mem_children h hu
    exact ih u hu hchild hleaf

end Tree

end ReversibleGrammar
