/-
Lists of results, as what is read from their matches.

* `Store.Reads`, `Store.ReadsPrefix`, `Store.ReadsRepetition` — what is read from a match of a
  pattern, of the first children of a sequence, of a repetition that may still grow;
* `Store.Lists` — the matches among results, in order, are read as the elements of a list;
* `Lists.remade`, `Lists.insertAll` — what constructs make of such lists.
-/
import ReversibleGrammar.Proofs.Grammar.Readings
import ReversibleGrammar.Proofs.Recognizer.Operation
import ReversibleGrammar.Proofs.Recognizer.Rebuild

namespace ReversibleGrammar

namespace Store

section

variable {τ ν : Type} [Token τ ν] (g : Grammar) (tokens : Array τ)

/-- A match of a pattern is read as a tree, and stops where it says. -/
def Reads (s : Store) (id : PatternId) (r : ResultId) (y : Tree ν × Nat) : Prop :=
  ∃ f, s.Matched r f y.2 ∧ rebuild g s.fragments tokens id f = .ok y.1

/-- A match of the first children of a sequence is read as a tree for each. -/
def ReadsPrefix (s : Store) (children : List PatternId) (r : ResultId)
    (x : List (Tree ν) × Nat) : Prop :=
  ∃ f, s.Matched r f x.2 ∧ s.ReadsParts g tokens children f x.1

/-- A match of a repetition is read as a tree for each part. -/
def ReadsRepetition (s : Store) (item : PatternId) (separator : Option PatternId) (r : ResultId)
    (c : Chain ν) : Prop :=
  ∃ f, s.Matched r f c.stop ∧ s.ReadsItems g tokens item separator f c.items c.separators

end

/-- The matches among results, in order, are read as the elements of a list. -/
structure Lists (s : Store) {α : Type} (P : ResultId → α → Prop) (rs : List ResultId)
    (xs : List α) : Prop where
  known : ∀ r ∈ rs, s.Known r
  reads : List.Forall₂ P (successesOf s rs) xs

variable {s t : Store} {α β κ : Type} {P : ResultId → α → Prop} {Q : ResultId → β → Prop}
variable {rs : List ResultId} {xs : List α}

/-! ### Lists of matches -/

theorem lists_nil (P : ResultId → α → Prop) : s.Lists P [] [] :=
  ⟨fun _ hr => (nomatch hr), .nil⟩

theorem Lists.cons_matched {r : ResultId} {x : α} {f : FragmentId} {stop : Nat}
    (hr : s.Matched r f stop) (hx : P r x) (h : s.Lists P rs xs) :
    s.Lists P (r :: rs) (x :: xs) := by
  refine ⟨List.forall_mem_cons.2 ⟨hr.known, h.known⟩, ?_⟩
  rw [successesOf_cons_of_matched hr]
  exact .cons hx h.reads

theorem Lists.cons_failed {r : ResultId} (hr : s.Failed r) (h : s.Lists P rs xs) :
    s.Lists P (r :: rs) xs := by
  refine ⟨List.forall_mem_cons.2 ⟨hr.known, h.known⟩, ?_⟩
  rw [successesOf_cons_of_failed hr]
  exact h.reads

theorem lists_failed (P : ResultId → α → Prop) (h : ∀ r ∈ rs, s.Failed r) : s.Lists P rs [] := by
  induction rs with
  | nil => exact lists_nil P
  | cons r rs ih =>
    exact (ih fun r' hr' => h r' (List.mem_cons_of_mem r hr')).cons_failed (h r List.mem_cons_self)

theorem Lists.append {rs' : List ResultId} {xs' : List α} (h : s.Lists P rs xs)
    (h' : s.Lists P rs' xs') : s.Lists P (rs ++ rs') (xs ++ xs') := by
  refine ⟨List.forall_mem_append.2 ⟨h.known, h'.known⟩, ?_⟩
  rw [successesOf_append]
  exact List.rel_append h.reads h'.reads

/-- The first match is the first element. -/
theorem Lists.of_matched {failed : List ResultId} (hfailed : ∀ r ∈ failed, s.Failed r)
    {r : ResultId} {f : FragmentId} {stop : Nat} (hr : s.Matched r f stop)
    (h : s.Lists P (failed ++ r :: rs) xs) :
    ∃ x xs', xs = x :: xs' ∧ P r x ∧ s.Lists P rs xs' := by
  have hreads := h.reads
  have hnil := (lists_failed (fun _ (_ : α) => True) hfailed).reads
  rw [List.forall₂_nil_right_iff] at hnil
  rw [successesOf_append, hnil, List.nil_append, successesOf_cons_of_matched hr] at hreads
  cases hreads with
  | cons hx hxs => exact ⟨_, _, rfl, hx, fun r' hr' => h.known r' (by simp [hr']), hxs⟩

theorem Lists.eq_nil (hfailed : ∀ r ∈ rs, s.Failed r) (h : s.Lists P rs xs) : xs = [] := by
  have hreads := h.reads
  have hnil := (lists_failed (fun _ (_ : α) => True) hfailed).reads
  rw [List.forall₂_nil_right_iff] at hnil
  rw [hnil] at hreads
  cases hreads
  rfl

/-- The first result is a match of the first element, or a failure. -/
theorem Lists.cons_cases (hs : s.Sound) {r : ResultId} (h : s.Lists P (r :: rs) xs) :
    (∃ f stop x xs', s.Matched r f stop ∧ xs = x :: xs' ∧ P r x ∧ s.Lists P rs xs') ∨
      s.Failed r ∧ s.Lists P rs xs := by
  have hknown : ∀ r' ∈ rs, s.Known r' := fun r' hr' => h.known r' (List.mem_cons_of_mem r hr')
  rcases hs.known_cases (h.known r List.mem_cons_self) with ⟨f, stop, hr⟩ | hr
  · have hnone : ∀ r' ∈ ([] : List ResultId), s.Failed r' := fun _ hr' => nomatch hr'
    obtain ⟨x, xs', hxs, hx, hrest⟩ := Lists.of_matched hnone hr h
    exact .inl ⟨f, stop, x, xs', hr, hxs, hx, hrest⟩
  · have hreads := h.reads
    rw [successesOf_cons_of_failed hr] at hreads
    exact .inr ⟨hr, hknown, hreads⟩

/-- A later store lists the same. -/
theorem Lists.mono (hgrows : s.Grows t) {Q : ResultId → α → Prop} (h : s.Lists P rs xs)
    (hP : ∀ r x, P r x → Q r x) : t.Lists Q rs xs := by
  refine ⟨fun r hr => hgrows.known (h.known r hr), ?_⟩
  rw [successesOf_mono hgrows h.known]
  exact h.reads.imp fun {r x} => hP r x

/-- What is read may be told in another way. -/
theorem Lists.map {F : α → β} (h : s.Lists P rs xs) (hP : ∀ r x, P r x → Q r (F x)) :
    s.Lists Q rs (xs.map F) :=
  ⟨h.known, List.forall₂_map_right_iff.2 (h.reads.imp fun {r x} => hP r x)⟩

theorem Lists.of_successes (h : s.Lists P rs xs) : s.Lists P (successesOf s rs) xs := by
  refine ⟨fun r hr => h.known r (List.mem_of_mem_filter hr), ?_⟩
  have hidem : successesOf s (successesOf s rs) = successesOf s rs := by simp [successesOf]
  rw [hidem]
  exact h.reads

theorem Lists.of_failures (h : s.Lists P rs xs) : s.Lists P (failuresAmong s rs) [] := by
  refine ⟨fun r hr => h.known r (List.mem_of_mem_filter hr), ?_⟩
  have hnil : successesOf s (failuresAmong s rs) = [] := by
    rw [successesOf, failuresAmong, List.filter_filter, List.filter_eq_nil_iff]
    intro r _
    cases (s.result r).outcome <;> simp
  rw [hnil]
  exact .nil

/-- Elements of a list that are told apart are read from different results. -/
theorem nodup_of_forall₂ {key : α → κ} (hP : ∀ r x x', P r x → P r x' → key x = key x')
    (h : List.Forall₂ P rs xs) (hxs : (xs.map key).Nodup) : rs.Nodup := by
  induction h with
  | nil => exact List.nodup_nil
  | @cons r x rs xs hr hrs ih =>
    rw [List.map_cons, List.nodup_cons] at hxs
    refine List.nodup_cons.2 ⟨fun hmem => hxs.1 ?_, ih hxs.2⟩
    obtain ⟨x', hx', hr'⟩ := exists_of_forall₂_of_mem hrs.flip hmem
    rw [hP r x x' hr hr']
    exact List.mem_map_of_mem hx'

/-- Results are added to a set in order, if their matches are not among those that are there. -/
theorem Lists.insertAll {key : α → κ} {set : ResultSet} {ids : List ResultId} {xs' : List α}
    (hset : set.Faithful) (hP : ∀ r x x', P r x → P r x' → key x = key x')
    (h : s.Lists P set.toList xs) (h' : s.Lists P ids xs')
    (hnodup : ((xs ++ xs').map key).Nodup) :
    s.Lists P (set.insertAll ids).toList (xs ++ xs') := by
  have hids := nodup_of_forall₂ hP (List.rel_append h.reads h'.reads) hnodup
  refine ⟨fun r hr => ?_, ?_⟩
  · exact (ResultSet.toList_insertAll_subset _ _ hr).elim (h.known r) (h'.known r)
  · rw [hset.successesOf_insertAll hids]
    exact List.rel_append h.reads h'.reads

theorem Lists.ofList {key : α → κ} {ids : List ResultId}
    (hP : ∀ r x x', P r x → P r x' → key x = key x') (h : s.Lists P ids xs)
    (hnodup : (xs.map key).Nodup) : s.Lists P (ResultSet.ofList ids).toList xs :=
  (lists_nil P).insertAll ResultSet.faithful_empty hP h hnodup

/-- What a construct makes of matches, one by one. -/
theorem Lists.remade {make : FragmentId → Fragment} {made : List ResultId} {F : α → β}
    (hremade : List.Forall₂ (s.Remade make) rs made) (h : s.Lists P rs xs)
    (hmake : ∀ f f' r r' stop x, s.Matched r f stop → s.Matched r' f' stop →
      s.fragments.get? f' = some (make f) → P r x → Q r' (F x)) :
    s.Lists Q made (xs.map F) := by
  obtain ⟨hknown, hreads⟩ := h
  induction hremade generalizing xs with
  | nil =>
    cases hreads
    exact lists_nil Q
  | @cons r r' rs made hr hrs ih =>
    have hknown' : ∀ r ∈ rs, s.Known r := fun r' hr' => hknown r' (List.mem_cons_of_mem r hr')
    rcases hr with ⟨f, stop, hmatched, f', hmatched', hf'⟩ | ⟨hfailed, rfl⟩
    · rw [successesOf_cons_of_matched hmatched] at hreads
      cases hreads with
      | cons hx hxs =>
        exact (ih hknown' hxs).cons_matched hmatched'
          (hmake f f' r r' stop _ hmatched hmatched' hf' hx)
    · rw [successesOf_cons_of_failed hfailed] at hreads
      exact (ih hknown' hreads).cons_failed hfailed

/-! ### What is read from a match -/

section

variable {τ ν : Type} [Token τ ν] {g : Grammar} {tokens : Array τ} {id : PatternId} {p : Pattern}
variable {r r' : ResultId} {f f' : FragmentId} {stop : Nat}

theorem Matched.unique {stop' : Nat} (h : s.Matched r f stop) (h' : s.Matched r f' stop') :
    f = f' ∧ stop = stop' := by
  rw [Matched, h] at h'
  cases h'
  exact ⟨rfl, rfl⟩

theorem Reads.unique {y y' : Tree ν × Nat} (h : s.Reads g tokens id r y)
    (h' : s.Reads g tokens id r y') : y.1 = y'.1 := by
  obtain ⟨f, hr, hread⟩ := h
  obtain ⟨f', hr', hread'⟩ := h'
  obtain ⟨rfl, -⟩ := hr.unique hr'
  rw [hread] at hread'
  exact Except.ok.inj hread'

theorem Reads.mono (hs : s.Sound) (hgrows : s.Grows t) {y : Tree ν × Nat}
    (h : s.Reads g tokens id r y) : t.Reads g tokens id r y := by
  obtain ⟨f, hr, hread⟩ := h
  exact ⟨f, hgrows.matched hr, rebuild_mono hs hgrows (hs.exists_fragment hr) hread⟩

theorem ReadsPrefix.unique {children : List PatternId} {x x' : List (Tree ν) × Nat}
    (h : s.ReadsPrefix g tokens children r x) (h' : s.ReadsPrefix g tokens children r x') :
    x.1 = x'.1 := by
  obtain ⟨f, hr, hparts⟩ := h
  obtain ⟨f', hr', hparts'⟩ := h'
  obtain ⟨rfl, -⟩ := hr.unique hr'
  exact hparts.unique hparts'

theorem ReadsPrefix.mono (hs : s.Sound) (hgrows : s.Grows t) {children : List PatternId}
    {x : List (Tree ν) × Nat} (h : s.ReadsPrefix g tokens children r x) :
    t.ReadsPrefix g tokens children r x := by
  obtain ⟨f, hr, hparts⟩ := h
  exact ⟨f, hgrows.matched hr, hparts.mono hs hgrows⟩

theorem ReadsRepetition.unique {item : PatternId} {separator : Option PatternId} {c c' : Chain ν}
    (h : s.ReadsRepetition g tokens item separator r c)
    (h' : s.ReadsRepetition g tokens item separator r c') : c.key = c'.key := by
  obtain ⟨f, hr, hparts⟩ := h
  obtain ⟨f', hr', hparts'⟩ := h'
  obtain ⟨rfl, -⟩ := hr.unique hr'
  obtain ⟨hitems, hseparators⟩ := hparts.unique hparts'
  exact Prod.ext hitems hseparators

theorem ReadsRepetition.mono (hs : s.Sound) (hgrows : s.Grows t) {item : PatternId}
    {separator : Option PatternId} {c : Chain ν}
    (h : s.ReadsRepetition g tokens item separator r c) :
    t.ReadsRepetition g tokens item separator r c := by
  obtain ⟨f, hr, hparts⟩ := h
  exact ⟨f, hgrows.matched hr, hparts.mono hs hgrows⟩

/-! ### What is read from larger matches -/

theorem reads_wrapped (hs : s.Sound) (hp : g.pattern? id = some p) {wrapper : Wrapper}
    {child : PatternId} (hkind : p.kind.wrapped? g = some (wrapper, child))
    (hr : s.Matched r f stop) (hr' : s.Matched r' f' stop)
    (hf' : s.fragments.get? f' = some (.wrapped wrapper f)) {y : Tree ν × Nat}
    (h : s.Reads g tokens child r y) : s.Reads g tokens id r' (.wrapped p y.1, y.2) := by
  obtain ⟨f'', hr'', hread⟩ := h
  obtain ⟨rfl, rfl⟩ := hr.unique hr''
  exact ⟨f', hr', rebuild_wrapped hs hp hkind hf' hread⟩

theorem reads_present (hs : s.Sound) (hp : g.pattern? id = some p) {item : PatternId}
    (hkind : p.kind = .option item) (hr : s.Matched r f stop) (hr' : s.Matched r' f' stop)
    (hf' : s.fragments.get? f' = some (.present f)) {y : Tree ν × Nat}
    (h : s.Reads g tokens item r y) : s.Reads g tokens id r' (.present p y.1, y.2) := by
  obtain ⟨f'', hr'', hread⟩ := h
  obtain ⟨rfl, rfl⟩ := hr.unique hr''
  exact ⟨f', hr', rebuild_present hs hp hkind hf' hread⟩

theorem reads_choice (hs : s.Sound) (hp : g.pattern? id = some p)
    {alternatives : List PatternId} {mode : ChoiceMode} {names : Option (List String)}
    (hkind : p.kind = .choice alternatives mode names) {index : Nat} {alternative : PatternId}
    (halternative : alternatives[index]? = some alternative) (hr : s.Matched r f stop)
    (hr' : s.Matched r' f' stop) (hf' : s.fragments.get? f' = some (.choice index f))
    {y : Tree ν × Nat} (h : s.Reads g tokens alternative r y) :
    s.Reads g tokens id r' (.choice p index y.1, y.2) := by
  obtain ⟨f'', hr'', hread⟩ := h
  obtain ⟨rfl, rfl⟩ := hr.unique hr''
  exact ⟨f', hr', rebuild_choice hs hp hkind halternative hf' hread⟩

theorem reads_sequence (hs : s.Sound) (hp : g.pattern? id = some p) {children : List PatternId}
    (hkind : p.kind = .sequence children) {x : List (Tree ν) × Nat}
    (h : s.ReadsPrefix g tokens children r x) : s.Reads g tokens id r (.sequence p x.1, x.2) := by
  obtain ⟨f, hr, hparts⟩ := h
  exact ⟨f, hr, rebuild_sequence hs hp hkind hparts⟩

theorem reads_many (hs : s.Sound) (hp : g.pattern? id = some p) {item : PatternId}
    {separator : Option PatternId} (hkind : p.kind = .many item separator) {c : Chain ν}
    (h : s.ReadsRepetition g tokens item separator r c) :
    s.Reads g tokens id r (.many p c.items c.separators, c.stop) := by
  obtain ⟨f, hr, hparts⟩ := h
  exact ⟨f, hr, rebuild_many hs hp hkind hparts⟩

theorem readsPrefix_step (hs : s.Sound) {children : List PatternId} {child : PatternId}
    {before : FragmentId} {x : List (Tree ν) × Nat} (hr : s.Matched r f stop)
    (hr' : s.Matched r' f' stop) (hf' : s.fragments.get? f' = some (.sequenceStep before f))
    (hbefore : s.ReadsParts g tokens children before x.1) {y : Tree ν × Nat}
    (h : s.Reads g tokens child r y) :
    s.ReadsPrefix g tokens (children ++ [child]) r' (x.1 ++ [y.1], y.2) := by
  obtain ⟨f'', hr'', hread⟩ := h
  obtain ⟨rfl, rfl⟩ := hr.unique hr''
  exact ⟨f', hr', hbefore.step hs hf' hread⟩

theorem readsRepetition_item (hs : s.Sound) {item : PatternId} {separator : Option PatternId}
    {before : FragmentId} {c : Chain ν} (hr : s.Matched r f stop) (hr' : s.Matched r' f' stop)
    (hf' : s.fragments.get? f' = some (.manyItem before f))
    (hbefore : s.ReadsItems g tokens item separator before c.items c.separators)
    {y : Tree ν × Nat} (h : s.Reads g tokens item r y) :
    s.ReadsRepetition g tokens item separator r' (c.withItem y) := by
  obtain ⟨f'', hr'', hread⟩ := h
  obtain ⟨rfl, rfl⟩ := hr.unique hr''
  exact ⟨f', hr', hbefore.withItem hs hf' hread⟩

theorem readsRepetition_separator (hs : s.Sound) {item child : PatternId} {before : FragmentId}
    {c : Chain ν} (hr : s.Matched r f stop) (hr' : s.Matched r' f' stop)
    (hf' : s.fragments.get? f' = some (.manySeparator before f))
    (hbefore : s.ReadsItems g tokens item (some child) before c.items c.separators)
    {y : Tree ν × Nat} (h : s.Reads g tokens child r y) :
    s.ReadsRepetition g tokens item (some child) r' (c.withSeparator y) := by
  obtain ⟨f'', hr'', hread⟩ := h
  obtain ⟨rfl, rfl⟩ := hr.unique hr''
  exact ⟨f', hr', hbefore.withSeparator hs hf' hread⟩

end

end Store

end ReversibleGrammar
