/-
Matches made of matches.

Each construct makes fragments for its own role out of fragments that were made
for the roles of its children.

* `Store.means_wrapped`, `Store.means_choice`, … — what a construct makes means what its role
  asks for;
* `Store.Supports.remade` — so are the results that it remakes.
-/
import ReversibleGrammar.Proofs.Recognizer.Meaning
import ReversibleGrammar.Proofs.Recognizer.Operation

namespace ReversibleGrammar

namespace Store

variable {τ ν : Type} [Token τ ν] {g : Grammar} {tokens : Array τ} {s : Store}
variable {id : PatternId} {p : Pattern} {f : FragmentId} {i j k : Nat}

/-! ### Single matches -/

theorem means_leaf (hp : g.pattern? id = some p) {terminal : String}
    (hkind : p.kind = .consume terminal)
    (hf : s.fragments.get? f = some (.leaf ((Input.ofTokens tokens).value i))) {token : τ}
    (htoken : tokens[i]? = some token) (his : Token.is token terminal = true) :
    s.Means g tokens (.whole id) f i (i + 1) :=
  ⟨.leaf hf (Array.getElem?_eq_some_iff.1 htoken).1, fun _ =>
    ⟨_, rebuild_leaf hp hkind hf htoken, hp, terminal, token, hkind, htoken, his, rfl, rfl⟩⟩

theorem means_mark (hp : g.pattern? id = some p) {marker : Marker}
    (hkind : p.kind.mark? = some marker) (hf : s.fragments.get? f = some (.mark marker)) :
    s.Means g tokens (.whole id) f i i :=
  ⟨.blank i hf rfl, fun _ => ⟨_, rebuild_mark hp hkind hf, hp, ⟨marker, hkind⟩, rfl⟩⟩

theorem means_absent (hp : g.pattern? id = some p) {item : PatternId}
    (hkind : p.kind = .option item) (hf : s.fragments.get? f = some .absent) :
    s.Means g tokens (.whole id) f i i :=
  ⟨.blank i hf rfl, fun _ => ⟨_, rebuild_absent hp hkind hf, hp, ⟨item, hkind⟩, rfl⟩⟩

theorem means_present (hs : s.Sound) (hp : g.pattern? id = some p) {item : PatternId}
    (hkind : p.kind = .option item) {inner : FragmentId}
    (hf : s.fragments.get? f = some (.present inner))
    (h : s.Means g tokens (.whole item) inner i j) : s.Means g tokens (.whole id) f i j := by
  refine ⟨.inner hf rfl h.spans, fun hl => ?_⟩
  obtain ⟨tree, hread, hderives⟩ := h.holds hl
  exact ⟨_, rebuild_present hs hp hkind hf hread, hp, item, hkind, hderives⟩

theorem means_choice (hs : s.Sound) (hp : g.pattern? id = some p)
    {alternatives : List PatternId} {mode : ChoiceMode} {names : Option (List String)}
    (hkind : p.kind = .choice alternatives mode names) {index : Nat} {alternative : PatternId}
    (halternative : alternatives[index]? = some alternative) {chosen : FragmentId}
    (hf : s.fragments.get? f = some (.choice index chosen))
    (h : s.Means g tokens (.whole alternative) chosen i j) :
    s.Means g tokens (.whole id) f i j := by
  refine ⟨.inner hf rfl h.spans, fun hl => ?_⟩
  obtain ⟨tree, hread, hderives⟩ := h.holds hl
  exact ⟨_, rebuild_choice hs hp hkind halternative hf hread, hp, alternatives, mode, names,
    alternative, hkind, halternative, hderives⟩

theorem means_wrapped (hs : s.Sound) (hp : g.pattern? id = some p) {wrapper : Wrapper}
    {child : PatternId} (hkind : p.kind.wrapped? g = some (wrapper, child)) {inner : FragmentId}
    (hf : s.fragments.get? f = some (.wrapped wrapper inner))
    (h : s.Means g tokens (.whole child) inner i j) : s.Means g tokens (.whole id) f i j := by
  refine ⟨.inner hf rfl h.spans, fun hl => ?_⟩
  obtain ⟨tree, hread, hderives⟩ := h.holds hl
  exact ⟨_, rebuild_wrapped hs hp hkind hf hread, hp, wrapper, child, hkind, hderives⟩

/-! ### Sequences -/

theorem means_first_nil (hf : s.fragments.get? f = some .sequenceStart) :
    s.Means g tokens (.first []) f i i :=
  ⟨.sequenceStart i hf, fun _ => ⟨[], readsParts_nil hf, rfl⟩⟩

theorem means_first_append (hs : s.Sound) {children : List PatternId} {child : PatternId}
    {before last : FragmentId} (hf : s.fragments.get? f = some (.sequenceStep before last))
    (hbefore : s.Means g tokens (.first children) before i j)
    (hlast : s.Means g tokens (.whole child) last j k) :
    s.Means g tokens (.first (children ++ [child])) f i k := by
  refine ⟨.sequenceStep hf hbefore.spans hlast.spans, fun hl => ?_⟩
  obtain ⟨trees, htrees, hthreads⟩ := hbefore.holds hl
  obtain ⟨tree, hread, hderives⟩ := hlast.holds hl
  refine ⟨trees ++ [tree], htrees.step hs hf hread, ?_⟩
  rw [Tree.derivesEach_eq_map] at hthreads ⊢
  rw [List.map_append, List.zipWith_append (by simp [htrees.length_eq])]
  exact threads_append hthreads ⟨k, hderives, rfl⟩

theorem means_whole_of_first (hs : s.Sound) (hp : g.pattern? id = some p)
    {children : List PatternId} (hkind : p.kind = .sequence children)
    (h : s.Means g tokens (.first children) f i j) : s.Means g tokens (.whole id) f i j := by
  refine ⟨.sequence h.spans, fun hl => ?_⟩
  obtain ⟨trees, htrees, hthreads⟩ := h.holds hl
  exact ⟨_, rebuild_sequence hs hp hkind htrees, hp, children, hkind, htrees.length_eq, hthreads⟩

/-! ### Repetitions -/

theorem readsChain_nil {item : PatternId} {separator : Option PatternId}
    (hf : s.fragments.get? f = some .manyStart) :
    s.ReadsChain (ν := ν) g tokens item separator f i i 0 0 :=
  ⟨[], [], readsItems_nil hf, rfl, rfl, rfl⟩

theorem readsChain_item (hs : s.Sound) {item : PatternId} {separator : Option PatternId}
    {before last : FragmentId} (hf : s.fragments.get? f = some (.manyItem before last))
    {items separators : Nat} (hle : separators ≤ items)
    (hbefore : s.ReadsChain (ν := ν) g tokens item separator before i j items separators)
    (hlast : s.Holds g tokens (.whole item) last j k) :
    s.ReadsChain (ν := ν) g tokens item separator f i k (items + 1) separators := by
  obtain ⟨itemTrees, separatorTrees, htrees, rfl, rfl, hthreads⟩ := hbefore
  obtain ⟨tree, hread, hderives⟩ := hlast
  refine ⟨itemTrees ++ [tree], separatorTrees, htrees.withItem hs hf hread, by simp, rfl, ?_⟩
  rw [Tree.derivesEach_eq_map, Tree.derivesEach_eq_map] at hthreads ⊢
  simp only [List.map_append, List.map_cons, List.map_nil]
  rw [Tree.interleave_append_left (by simpa using hle)]
  exact threads_append hthreads ⟨k, hderives, rfl⟩

theorem readsChain_separator (hs : s.Sound) {item separator : PatternId}
    {before last : FragmentId} (hf : s.fragments.get? f = some (.manySeparator before last))
    {separators : Nat}
    (hbefore : s.ReadsChain (ν := ν) g tokens item (some separator) before i j (separators + 1)
      separators)
    (hlast : s.Holds g tokens (.whole separator) last j k) :
    s.ReadsChain (ν := ν) g tokens item (some separator) f i k (separators + 1)
      (separators + 1) := by
  obtain ⟨itemTrees, separatorTrees, htrees, hlength, rfl, hthreads⟩ := hbefore
  obtain ⟨tree, hread, hderives⟩ := hlast
  refine ⟨itemTrees, separatorTrees ++ [tree], htrees.withSeparator hs hf hread, hlength,
    by simp, ?_⟩
  rw [Tree.derivesEach_eq_map, Tree.derivesEach_eq_map] at hthreads ⊢
  simp only [List.map_append, List.map_cons, List.map_nil]
  rw [Tree.interleave_append_right (by simpa using hlength)]
  exact threads_append hthreads ⟨k, ⟨separator, rfl, hderives⟩, rfl⟩

theorem whole_of_readsChain (hs : s.Sound) (hp : g.pattern? id = some p) {item : PatternId}
    {separator : Option PatternId} (hkind : p.kind = .many item separator)
    {items separators : Nat}
    (hcount : separators = if separator.isSome then items - 1 else 0)
    (h : s.ReadsChain (ν := ν) g tokens item separator f i j items separators) :
    s.Holds g tokens (.whole id) f i j := by
  obtain ⟨itemTrees, separatorTrees, htrees, rfl, rfl, hthreads⟩ := h
  exact ⟨_, rebuild_many hs hp hkind htrees, hp, item, separator, hkind, hcount, hthreads⟩

/-- A repetition without items is one that may still grow. -/
theorem means_chain_nil {item : PatternId} {separator : Option PatternId}
    (hf : s.fragments.get? f = some .manyStart) :
    s.Means g tokens (.chain item separator false) f i i := by
  refine ⟨.manyStart separator.isSome i hf, fun _ => ?_⟩
  cases separator with
  | none => exact ⟨0, readsChain_nil hf⟩
  | some separator => exact ⟨0, readsChain_nil hf⟩

theorem means_chain_item (hs : s.Sound) {item : PatternId} {separator : Option PatternId}
    {after : Bool} (hafter : (after && separator.isSome) = false) {before last : FragmentId}
    (hf : s.fragments.get? f = some (.manyItem before last))
    (hbefore : s.Means g tokens (.chain item separator after) before i j)
    (hlast : s.Means g tokens (.whole item) last j k) :
    s.Means g tokens (.chain item separator separator.isSome) f i k := by
  refine ⟨?_, fun hl => ?_⟩
  · have hspans := hbefore.spans
    rw [Role.form, hafter] at hspans
    rw [Role.form, Bool.and_self]
    exact .manyItem hf hspans hlast.spans
  have hlast := hlast.holds hl
  cases separator with
  | none =>
    obtain ⟨items, hbefore⟩ := hbefore.holds hl
    exact ⟨items + 1, readsChain_item hs hf (Nat.zero_le items) hbefore hlast⟩
  | some separator =>
    cases after with
    | true => cases hafter
    | false =>
      obtain ⟨items, hbefore⟩ := hbefore.holds hl
      exact ⟨items, readsChain_item hs hf le_rfl hbefore hlast⟩

theorem means_chain_separator (hs : s.Sound) {item separator : PatternId}
    {before last : FragmentId} (hf : s.fragments.get? f = some (.manySeparator before last))
    (hbefore : s.Means g tokens (.chain item (some separator) true) before i j)
    (hlast : s.Means g tokens (.whole separator) last j k) :
    s.Means g tokens (.chain item (some separator) false) f i k := by
  refine ⟨.manySeparator hf hbefore.spans hlast.spans, fun hl => ?_⟩
  obtain ⟨items, hbefore⟩ := hbefore.holds hl
  exact ⟨items + 1, readsChain_separator hs hf hbefore (hlast.holds hl)⟩

/-- A repetition is complete after an item. -/
theorem means_whole_of_chain (hs : s.Sound) (hp : g.pattern? id = some p) {item : PatternId}
    {separator : Option PatternId} (hkind : p.kind = .many item separator)
    (h : s.Means g tokens (.chain item separator separator.isSome) f i j) :
    s.Means g tokens (.whole id) f i j := by
  refine ⟨?_, fun hl => ?_⟩
  · have hspans := h.spans
    rw [Role.form, Bool.and_self] at hspans
    exact .many hspans
  cases separator with
  | none =>
    obtain ⟨items, h⟩ := h.holds hl
    exact whole_of_readsChain hs hp hkind rfl h
  | some separator =>
    obtain ⟨items, h⟩ := h.holds hl
    exact whole_of_readsChain hs hp hkind rfl h

/-- It is complete without items, too. -/
theorem means_whole_manyStart (hs : s.Sound) (hp : g.pattern? id = some p) {item : PatternId}
    {separator : Option PatternId} (hkind : p.kind = .many item separator)
    (hf : s.fragments.get? f = some .manyStart) : s.Means g tokens (.whole id) f i i :=
  ⟨.many (.manyStart false i hf), fun _ =>
    whole_of_readsChain hs hp hkind (by cases separator <;> rfl) (readsChain_nil hf)⟩

/-! ### Results -/

/-- A new match supports its role. -/
theorem Made.supports {role : Role} {fragment : Fragment} {made : ResultId}
    (h : s.Made made fragment j) (hij : i ≤ j) (hj : j ≤ tokens.size)
    (hmeans : ∀ f, s.fragments.get? f = some fragment → s.Means g tokens role f i j) :
    s.Supports g tokens role i made := by
  obtain ⟨f, hmatched, hf⟩ := h
  refine ⟨_, hmatched, hij, hj, fun f' hf' => ?_⟩
  cases hf'
  exact hmeans f hf

/-- A match that supports a role means what it asks for. -/
theorem Supports.matched {role : Role} {r : ResultId} {stop : Nat}
    (h : s.Supports g tokens role i r) (hr : s.Matched r f stop) :
    i ≤ stop ∧ stop ≤ tokens.size ∧ s.Means g tokens role f i stop := by
  obtain ⟨r, hr', haccepts⟩ := h
  rw [hr] at hr'
  cases hr'
  exact ⟨haccepts.le_stop, haccepts.stop_le, haccepts.means f rfl⟩

theorem Supports.failed {role : Role} {r : ResultId} (h : s.Supports g tokens role i r)
    (hr : s.Failed r) : s.Fails tokens i r := by
  obtain ⟨k, stop, map, hr⟩ := hr
  exact h.fails (by rw [Store.result_eq hr])

theorem Supports.known {role : Role} {r : ResultId} (h : s.Supports g tokens role i r) :
    s.Known r :=
  h.imp fun _ h => h.1

theorem Fails.failed {r : ResultId} (h : s.Fails tokens i r) : s.Failed r := by
  obtain ⟨⟨outcome, stop, map⟩, k, hr, rfl, -, -⟩ := h
  exact ⟨k, stop, map, hr⟩

/-- What a construct remakes supports the construct's role. -/
theorem Supports.remade {role role' : Role} {make : FragmentId → Fragment} {r made : ResultId}
    (hij : i ≤ j) (h : s.Supports g tokens role j r) (hremade : s.Remade make r made)
    (hmake : ∀ f f' stop, s.fragments.get? f' = some (make f) →
      s.Means g tokens role f j stop → s.Means g tokens role' f' i stop) :
    s.Supports g tokens role' i made := by
  rcases hremade with ⟨f, stop, hmatched, hmade⟩ | ⟨hfailed, rfl⟩
  · obtain ⟨hle, hstop, hmeans⟩ := h.matched hmatched
    exact hmade.supports (hij.trans hle) hstop fun f' hf' => hmake f f' stop hf' hmeans
  · exact (h.failed hfailed).supports hij role'

end Store

end ReversibleGrammar
