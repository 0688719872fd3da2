/-
Recursion contexts.

A context grows along a path, while the number of times a site was entered is one for all paths,
and a map that is remembered for a site was made on a path of its own, perhaps further on.  They
fit together all the same: a site is counted when its depth is recorded, and a path reaches a
position before it records anything there.

* `Tables.HoldsMap` — a stored map has sites of one position, each as deep as it may be;
* `Context.WellFormed` — the positions of a context increase, and each has such a map;
* `Tables.Path` — whatever waits on the frames waits above its site, inside such a context;
* `Machine.OnPath` — so does what is called, and what failures and sites remember are such maps;
* `step_onPath`, `onPath_of_run` — a step keeps that, so that it holds of every state of a run;
* `contexts_wellFormed` — contexts and remembered maps are well formed in every state of a run.
-/
import ReversibleGrammar.Proofs.Recognizer.Apart
import ReversibleGrammar.Proofs.Recognizer.Exactness
import ReversibleGrammar.Proofs.Recognizer.GivingUp
import ReversibleGrammar.Proofs.Recognizer.Storing

namespace ReversibleGrammar

/-- The map is stored and has sites of one position only, each with a depth between one and the
number of times that it was entered. -/
def Tables.HoldsMap (t : Tables) (map : MapId) (position : Nat) : Prop :=
  ∃ depths, t.store.maps.get? map = some depths ∧
    ∀ site depth, (site, depth) ∈ depths →
      site.index = position ∧ 1 ≤ depth ∧ depth ≤ t.counts.getD site 0

namespace Context

/-- The positions that a path has reached, the first one first. -/
def positions (context : Context) : List Nat := (context.map Prod.fst).reverse

/-- The positions increase up to the last one, and each has a map of its own sites. -/
structure WellFormed (t : Tables) (last : Nat) (context : Context) : Prop where
  increasing : context.positions.Pairwise (· < ·)
  le_last : ∀ position ∈ context.positions, position ≤ last
  maps : ∀ position map, (position, map) ∈ context → t.HoldsMap map position

end Context

/-- The context that a construct makes its calls in. -/
def Frame.context? : Frame → Option Context
  | sequence frame => some frame.context
  | choice frame => some frame.context
  | many frame _ _ => some frame.context
  | complete _ | wrapped _ | option _ => none

/-- Whatever waits on the frames waits above its site, inside a context that is well formed there. -/
inductive Tables.Path (t : Tables) : List Frame → Prop
  | nil : Path t []
  | complete {frames : List Frame} (site : Site) (h : Path t frames) :
      Path t (.complete site :: frames)
  | waits {frame : Frame} {frames : List Frame} {site : Site} {context : Context}
      (hinside : frame.Inside context) (hcontext : context.WellFormed t site.index)
      (h : Path t (.complete site :: frames)) : Path t (frame :: .complete site :: frames)

/-- Every map that a failure or a site remembers is that of one position, where the failure is, or
that the matching of the site has come to. -/
structure Tables.KeepsMaps (t : Tables) : Prop where
  failure : ∀ {n k stop map}, t.store.results.get? n = some ⟨.failure k, stop, map⟩ →
    t.HoldsMap map stop
  cutoff : ∀ {site : Site} {map : MapId}, t.cutoffs[site]? = some map →
    ∃ position, site.index ≤ position ∧ t.HoldsMap map position

/-- What waits and what is called is on a path that is well formed, and so are remembered maps. -/
structure Machine.OnPath (m : Machine) : Prop where
  path : m.tables.Path m.frames
  call : ∀ {id index context}, m.control = .call id index context →
    context.WellFormed m.tables index
  maps : m.tables.KeepsMaps

/-! ### Positions -/

namespace Context

theorem positions_cons (position : Nat) (map : MapId) (context : Context) :
    positions ((position, map) :: context) = context.positions ++ [position] := by
  simp [positions]

theorem positions_replace (context : Context) (index : Nat) (map : MapId) :
    (context.replace index map).positions = context.positions := by
  induction context with
  | nil => rfl
  | cons entry rest ih =>
    obtain ⟨position, old⟩ := entry
    by_cases h : position = index
    · simp only [replace, if_pos h, positions_cons]
    · simp only [replace, if_neg h, positions_cons, ih]

theorem not_mem_positions {context : Context} {index : Nat} (h : context.at? index = none) :
    index ∉ context.positions := by
  induction context with
  | nil => simp [positions]
  | cons entry rest ih =>
    obtain ⟨position, map⟩ := entry
    by_cases hposition : position = index
    · simp [at?, hposition] at h
    · rw [at?, if_neg hposition] at h
      rw [positions_cons, List.mem_append, List.mem_singleton]
      rintro (hrest | rfl)
      · exact ih h hrest
      · exact hposition rfl

end Context

/-! ### Later tables -/

section

variable {t u : Tables} {context : Context} {frames : List Frame} {map : MapId} {position last : Nat}
variable (hgrows : t.store.Grows u.store)
variable (hcounts : ∀ site, t.counts.getD site 0 ≤ u.counts.getD site 0)

include hgrows hcounts

/-- What a map records stays true, since sites are only entered more often. -/
theorem Tables.HoldsMap.mono (h : t.HoldsMap map position) : u.HoldsMap map position := by
  obtain ⟨depths, hstored, hdepths⟩ := h
  refine ⟨depths, hgrows.maps hstored, ?_⟩
  intro site depth hmem
  obtain ⟨hindex, hpos, hle⟩ := hdepths site depth hmem
  exact ⟨hindex, hpos, hle.trans (hcounts site)⟩

theorem Context.WellFormed.mono (h : context.WellFormed t last) : context.WellFormed u last where
  increasing := h.increasing
  le_last := h.le_last
  maps position map hmem := (h.maps position map hmem).mono hgrows hcounts

theorem Tables.Path.mono (h : t.Path frames) : u.Path frames := by
  induction h with
  | nil => exact .nil
  | complete site _ ih => exact .complete site ih
  | waits hinside hcontext _ ih => exact .waits hinside (hcontext.mono hgrows hcounts) ih

/-- Later tables keep their maps if the failures that are new do. -/
theorem Tables.KeepsMaps.later (h : t.KeepsMaps) (hcutoffs : u.cutoffs = t.cutoffs)
    (hfailures : ∀ n k stop map, u.store.results.get? n = some ⟨.failure k, stop, map⟩ →
      t.store.results.get? n = some ⟨.failure k, stop, map⟩ ∨ u.HoldsMap map stop) :
    u.KeepsMaps where
  failure hn := by
    rcases hfailures _ _ _ _ hn with hn | hmap
    · exact (h.failure hn).mono hgrows hcounts
    · exact hmap
  cutoff hsite := by
    rw [hcutoffs] at hsite
    obtain ⟨position, hle, hmap⟩ := h.cutoff hsite
    exact ⟨position, hle, hmap.mono hgrows hcounts⟩

end

/-! ### Maps and contexts -/

section

variable {t u : Tables} {context inner : Context} {map : MapId} {position last : Nat} {site : Site}

theorem Tables.holdsMap_empty (ht : t.store.Sound) (position : Nat) :
    t.HoldsMap emptyMap position :=
  ⟨[], ht.map_empty, fun _ _ h => nomatch h⟩

theorem Context.wellFormed_nil (t : Tables) (last : Nat) : Context.WellFormed t last [] where
  increasing := List.Pairwise.nil
  le_last _ h := absurd h List.not_mem_nil
  maps _ _ h := absurd h List.not_mem_nil

theorem Context.WellFormed.of_le {next : Nat} (h : context.WellFormed t last)
    (hle : last ≤ next) : context.WellFormed t next where
  increasing := h.increasing
  le_last position hmem := (h.le_last position hmem).trans hle
  maps := h.maps

/-- A path reaches a position with the empty map. -/
theorem Context.WellFormed.reach (ht : t.store.Sound) (h : context.WellFormed t position)
    (hnone : context.at? position = none) :
    Context.WellFormed t position ((position, emptyMap) :: context) := by
  have hnew := Context.not_mem_positions hnone
  constructor
  · rw [Context.positions_cons, List.pairwise_append]
    refine ⟨h.increasing, List.pairwise_singleton _ _, ?_⟩
    intro before hbefore last hlast
    rw [List.mem_singleton] at hlast
    have hle := h.le_last before hbefore
    have hne : before ≠ position := fun heq => hnew (heq ▸ hbefore)
    omega
  · intro reached hreached
    rw [Context.positions_cons, List.mem_append, List.mem_singleton] at hreached
    rcases hreached with hreached | rfl
    · exact h.le_last reached hreached
    · exact le_rfl
  · intro reached map hmem
    rcases List.mem_cons.1 hmem with heq | hmem
    · cases heq
      exact Tables.holdsMap_empty ht position
    · exact h.maps reached map hmem

/-- A path that has reached a position may have another map there. -/
theorem Context.WellFormed.replace (h : context.WellFormed t last) (hmap : t.HoldsMap map position) :
    (context.replace position map).WellFormed t last := by
  constructor
  · rw [Context.positions_replace]
    exact h.increasing
  · rw [Context.positions_replace]
    exact h.le_last
  · intro reached other hmem
    rcases Context.mem_replace hmem with hmem | heq
    · exact h.maps reached other hmem
    · cases heq
      exact hmap

/-- The depth that is recorded for a site is the number of times it has been entered by then. -/
theorem Tables.HoldsMap.insert (ht : t.store.Sound) (h : t.HoldsMap map site.index) {s : Store}
    (hgrows : (t.store.withMap ((t.store.map map).insert site (t.counts.getD site 0 + 1))).Grows s) :
    (t.entered site s).HoldsMap (t.store.maps.intern
      ((t.store.map map).insert site (t.counts.getD site 0 + 1))).1 site.index := by
  obtain ⟨depths, hstored, hdepths⟩ := h
  refine ⟨_, hgrows.maps (Interner.get?_intern_self _ ht.maps _), ?_⟩
  intro other depth hmem
  rw [Store.map, Interner.get_eq_of_get? hstored] at hmem
  rcases RecursionMap.mem_insert_cases hmem with heq | hmem
  · cases heq
    refine ⟨rfl, Nat.le_add_left 1 _, ?_⟩
    rw [counts_entered, if_pos rfl]
  · obtain ⟨hindex, hpos, hle⟩ := hdepths other depth hmem
    exact ⟨hindex, hpos, hle.trans (counts_le_entered t site s other)⟩

/-- The context inside a site is well formed once the site is counted. -/
theorem Context.WellFormed.enter (ht : t.store.Sound) (h : context.WellFormed t site.index)
    {store s : Store}
    (henter : Store.enter context site (t.counts.getD site 0 + 1) t.store = (inner, store))
    (hgrows : store.Grows s) (hs : s.Sound) : inner.WellFormed (t.entered site s) site.index := by
  obtain ⟨-, hentered, -⟩ := ht.enter context site (t.counts.getD site 0 + 1)
  have hcases := Store.enter_store t.store context site (t.counts.getD site 0 + 1)
  rw [henter] at hentered hcases
  have hmono : context.WellFormed (t.entered site s) site.index :=
    h.mono (hentered.trans hgrows) (counts_le_entered t site s)
  rcases hcases with ⟨-, hnone, hinner⟩ | ⟨map, hmap, hstore, hinner⟩
  · rw [show inner = _ from hinner]
    exact hmono.reach hs hnone
  · rw [show inner = _ from hinner]
    rw [show store = _ from hstore] at hgrows
    have hold : t.HoldsMap map site.index := h.maps site.index map (Context.mem_of_at? hmap)
    exact hmono.replace (hold.insert ht hgrows)

end

/-! ### Paths -/

theorem Frame.Inside.eq {frame : Frame} {context other : Context} (h : frame.Inside context)
    (hother : frame.context? = some other) : other = context := by
  cases frame with
  | sequence | choice | many => exact (Option.some.inj hother).symm.trans h
  | complete | wrapped | option => cases hother

section

variable {t u : Tables} {context : Context} {frame : Frame} {frames : List Frame} {site : Site}

theorem Tables.Path.tail (h : t.Path (frame :: frames)) : t.Path frames := by
  cases h with
  | complete _ h => exact h
  | waits _ _ h => exact h

theorem Tables.Path.of_append {above : List Frame} (h : t.Path (above ++ frames)) :
    t.Path frames := by
  induction above with
  | nil => exact h
  | cons frame above ih => exact ih h.tail

/-- A construct with a context waits above its site. -/
theorem Tables.Path.exists_site (h : t.Path (frame :: frames))
    (hcontext : frame.context? = some context) :
    ∃ site rest, frames = .complete site :: rest ∧ context.WellFormed t site.index := by
  cases h with
  | complete site h => cases hcontext
  | waits hinside hwell h =>
    obtain rfl := hinside.eq hcontext
    exact ⟨_, _, rfl, hwell⟩

/-! ### Machines -/

theorem Machine.onPath_call {id : PatternId} {index : Nat} (hpath : t.Path frames)
    (hcontext : context.WellFormed t index) (hmaps : t.KeepsMaps) :
    Machine.OnPath ⟨.call id index context, frames, t⟩ where
  path := hpath
  call h := by
    cases h
    exact hcontext
  maps := hmaps

/-- What gives results calls nothing. -/
theorem Machine.onPath_give (results : List ResultId) (hpath : t.Path frames)
    (hmaps : t.KeepsMaps) : Machine.OnPath ⟨.give results, frames, t⟩ where
  path := hpath
  call h := by cases h
  maps := hmaps

end

/-! ### Remembered maps -/

theorem keepsMaps_empty : Tables.empty.KeepsMaps where
  failure h := by simp [Tables.empty, Store.empty, Interner.empty, Interner.get?] at h
  cutoff h := by simp [Tables.empty] at h

/-- The last cut-off among results is one of their failures. -/
theorem lastCutoff?_eq_some {s : Store} {results : List ResultId} {map : MapId}
    (h : lastCutoff? s results = some map) :
    ∃ r ∈ results, ∃ k, (s.result r).outcome = .failure k ∧ (s.result r).map = map := by
  -- on the last result, since a later cut-off takes the place of an earlier one
  induction results using List.reverseRecOn with
  | nil => cases h
  | append_singleton before r ih =>
    have hearlier (h : lastCutoff? s before = some map) : ∃ r' ∈ before ++ [r],
        ∃ k, (s.result r').outcome = .failure k ∧ (s.result r').map = map := by
      obtain ⟨r', hr', hfound⟩ := ih h
      exact ⟨r', List.mem_append_left _ hr', hfound⟩
    rw [lastCutoff?, List.foldl_append, List.foldl_cons, List.foldl_nil] at h
    dsimp only at h
    split at h
    · rename_i k hk
      split at h
      · exact ⟨r, List.mem_append_right _ List.mem_cons_self, k, hk, Option.some.inj h⟩
      · exact hearlier h
    · exact hearlier h

theorem cutoffs_record_cases {t : Tables} {site other : Site} {results : List ResultId} {map : MapId}
    (h : (t.record site results).cutoffs[other]? = some map) :
    t.cutoffs[other]? = some map ∨ other = site ∧ lastCutoff? t.store results = some map := by
  by_cases hother : other = site
  · subst hother
    unfold Tables.record at h
    dsimp only at h
    split at h
    · rename_i last hlast
      rw [Std.TreeMap.getElem?_insert_self] at h
      exact .inr ⟨rfl, hlast.trans h⟩
    · exact .inl h
  · rw [cutoffs_record_ne hother] at h
    exact .inl h

section

variable {τ ν : Type} [Token τ ν] {g : Grammar} {tokens : Array τ}

/-- A failure is remembered with a map of its own position, which is not before that of the site. -/
theorem Tables.KeepsMaps.record {t : Tables} (h : t.KeepsMaps) {id : PatternId} (site : Site)
    {results : List ResultId}
    (hresults : ∀ r ∈ results, t.store.Supports g tokens (.whole id) site.index r) :
    (t.record site results).KeepsMaps where
  failure hn := h.failure hn
  cutoff {other map} hother := by
    rcases cutoffs_record_cases hother with hbefore | ⟨rfl, hlast⟩
    · exact h.cutoff hbefore
    · obtain ⟨r, hr, k, hk, rfl⟩ := lastCutoff?_eq_some hlast
      -- no result stops before its pattern starts
      obtain ⟨⟨outcome, stop, map⟩, hstored, hle, -⟩ := hresults r hr
      rw [Store.result_eq hstored] at hk ⊢
      cases hk
      exact ⟨stop, hle, h.failure hstored⟩

/-! ### Steps -/

/-- The frames below a site wait for it at its position. -/
theorem Store.Stack.index_eq {s : Store} {site : Site} {frames : List Frame} {id : PatternId}
    {start : Nat} (h : s.Stack g tokens (.complete site :: frames) id start) :
    site.index = start := by
  cases h with
  | complete => rfl
  | waits hwaits => cases hwaits

/-- What a construct comes to is on the path to its site. -/
theorem Task.onPath {task : Task} {u : Tables} {context : Context} {site : Site}
    {frames : List Frame} {id : PatternId} (hpath : u.Path (.complete site :: frames))
    (hcontext : context.WellFormed u site.index) (hinside : task.Inside context)
    (hready : task.Ready g tokens u.store id site.index) (hmaps : u.KeepsMaps) :
    (task.machine (.complete site :: frames) u).OnPath := by
  cases task with
  | give results => exact Machine.onPath_give results hpath hmaps
  | call other index inner =>
    obtain ⟨-, rfl, -⟩ := hready
    obtain rfl : inner = context := hinside
    exact Machine.onPath_call hpath hcontext hmaps
  | wait child index inner frame =>
    obtain ⟨-, hle, -⟩ := hready
    obtain ⟨rfl, hframe⟩ := hinside
    exact Machine.onPath_call (.waits hframe hcontext hpath) (hcontext.of_le hle) hmaps

/-- A call stays on the path: the failure of a call that is cut off has the map of its position, and
what is matched is matched inside the site. -/
theorem invoke_onPath (hg : g.Closed) {t : Tables} (ht : t.Sound g tokens) {id : PatternId}
    {index : Nat} (hindex : index ≤ tokens.size) {context : Context} {frames : List Frame}
    (hcontext : context.WellFormed t index) (hpath : t.Path frames) (hmaps : t.KeepsMaps)
    {m : Machine} (h : invoke g (.ofTokens tokens) id index context frames t = .running m) :
    m.OnPath := by
  cases hp : g.pattern? id with
  | none => simp [invoke, hp] at h
  | some p =>
    rcases invoke_cases (.ofTokens tokens) hp index context t with ⟨results, -, heq⟩ |
      ⟨-, -, -, -, heq⟩ | ⟨-, -, -, map, failure, store, hmap, hfailure, heq⟩ |
      ⟨-, -, inner, store, henter, heq⟩
    · rw [heq] at h
      cases h
      exact Machine.onPath_give results hpath hmaps
    · rw [heq] at h
      cases h
    · -- the failure has the map that the path has at the position of the call
      rw [heq] at h
      cases h
      obtain ⟨r, s, k, hstored, hextends, -, -⟩ :=
        ht.store.failure_eq .infiniteRecursion index map
      rw [hstored] at hfailure
      cases hfailure
      have hcutoff : t.HoldsMap map index := hcontext.maps index map (Context.mem_of_at? hmap)
      refine Machine.onPath_give _ (hpath.mono hextends.grows fun _ => le_rfl) ?_
      refine hmaps.later hextends.grows (fun _ => le_rfl) rfl ?_
      intro n k stop other hn
      rw [show store = _ from (congrArg Prod.snd hstored).symm] at hn
      rcases Interner.get?_intern_cases t.store.results _ hn with hn | ⟨hnew, -⟩
      · exact .inl hn
      · cases hnew
        exact .inr (hcutoff.mono hextends.grows fun _ => le_rfl)
    · -- the site is counted as its depth is recorded, and so before anything else is called
      obtain ⟨task, s, hevaluate, -⟩ := evaluate_task hg (.ofTokens tokens) hp index inner store
      rw [heq, hevaluate] at h
      cases h
      obtain ⟨hsound, hentered, -⟩ := ht.store.enter context ⟨index, p.recognizer⟩
        (t.counts.getD ⟨index, p.recognizer⟩ 0 + 1)
      rw [henter] at hsound hentered
      obtain ⟨hextends, hready⟩ := evaluate_ready hsound hp hindex (hevaluate [])
      have hgrows := hentered.trans hextends.grows
      have hcounts := counts_le_entered t ⟨index, p.recognizer⟩ s
      have hinner := hcontext.enter ht.store henter hextends.grows hextends.sound
      refine Task.onPath ((hpath.mono hgrows hcounts).complete _) hinner
        (evaluate_inside (hevaluate [])) hready ?_
      refine hmaps.later hgrows hcounts rfl ?_
      intro n k stop map hn
      have hresults : store.results = t.store.results := by
        rw [show store = _ from (congrArg Prod.snd henter).symm]
        rfl
      rcases (evaluate_adds (hevaluate [])).failure_cases hn with hn | rfl
      · exact .inl (hresults ▸ hn)
      · exact .inr (Tables.holdsMap_empty hextends.sound stop)

/-- Giving results to a construct stays on the path. -/
theorem resume_onPath (hg : g.Closed) {t : Tables} (hplain : t.store.Plain) {frame : Frame}
    {frames : List Frame} {results : List ResultId}
    (hm : Machine.Sound g tokens ⟨.give results, frame :: frames, t⟩)
    (h : Machine.OnPath ⟨.give results, frame :: frames, t⟩) :
    (resume frame results frames t).OnPath := by
  obtain ⟨id, index, hindex, hstack, hresults⟩ := hm.gives results rfl
  have hadds := hm.adds hplain
  cases hstack with
  | @complete _ _ p _ hp hstack =>
    have hbelow : t.Path frames := h.path.tail
    have hgrows : t.store.Grows (t.record ⟨index, p.recognizer⟩ results).store := .refl _
    exact Machine.onPath_give results (hbelow.mono hgrows fun _ => le_rfl) (h.maps.record _ hresults)
  | @waits _ _ _ id' _ start hwaits hle hstack =>
    cases hpath : h.path with
    | complete site => cases hwaits
    | @waits _ rest site context hinside hcontext hbelow =>
      obtain rfl := hstack.index_eq
      obtain ⟨task, u, hresume, -⟩ := resume_task frame (hwaits.within hg) results t
      obtain ⟨s, hextends, rfl, hready⟩ :=
        resume_ready hm.tables.store hwaits hle hindex hresults (hresume [])
      have hcounts (site : Site) : t.counts.getD site 0 ≤ t.counts.getD site 0 := le_rfl
      rw [hresume] at hadds ⊢
      refine task.onPath (hbelow.mono hextends.grows hcounts)
        (hcontext.mono hextends.grows hcounts) (resume_inside hinside (hresume [])) hready ?_
      refine h.maps.later hextends.grows hcounts rfl ?_
      intro n k stop map hn
      rcases hadds.failure_cases hn with hn | rfl
      · exact .inl hn
      · exact .inr (Tables.holdsMap_empty hextends.sound stop)

/-- A step stays on the path. -/
theorem step_onPath (hg : g.Closed) {m m' : Machine} (hm : m.Plain g tokens) (h : m.OnPath)
    (hstep : step g (.ofTokens tokens) m = .running m') : m'.OnPath := by
  obtain ⟨hm, hplain⟩ := hm
  obtain ⟨control, frames, t⟩ := m
  cases control with
  | call id index context =>
    obtain ⟨hindex, -⟩ := hm.calls id index context rfl
    exact invoke_onPath hg hm.tables hindex (h.call rfl) h.path h.maps hstep
  | give results =>
    cases frames with
    | nil => cases hstep
    | cons frame frames =>
      cases hstep
      exact resume_onPath hg hplain hm h

/-- The first call is on a path that has reached nothing. -/
theorem initial_onPath (root : PatternId) : (Machine.initial root).OnPath :=
  Machine.onPath_call .nil (Context.wellFormed_nil _ 0) keepsMaps_empty

/-! ### Runs -/

/-- Every state of a run from the first token is on a path. -/
theorem onPath_of_run (hg : g.Closed) {root : PatternId} {fuel : Nat} {m : Machine}
    (h : run g (.ofTokens tokens) fuel (.initial root) = .running m) : m.OnPath := by
  have hkeeps : m.Plain g tokens ∧ m.OnPath := by
    refine run_keeps (P := fun m => m.Plain g tokens ∧ m.OnPath) ?_ fuel
      ⟨initial_plain root, initial_onPath root⟩ h
    rintro m m' ⟨hplain, hm⟩ hstep
    exact ⟨step_plain hg hplain hstep, step_onPath hg hplain hm hstep⟩
  exact hkeeps.2

/-- The contexts of a state are those of a path.  A call has reached no position after its own, and
what waits has reached none after that of the site below it.  What is remembered of the depths at a
site is of one position, which is not before the site. -/
structure Machine.WellFormed (m : Machine) : Prop where
  call : ∀ {id index context}, m.control = .call id index context →
    context.WellFormed m.tables index
  waiting : ∀ {above below : List Frame} {frame : Frame} {context : Context},
    m.frames = above ++ frame :: below → frame.context? = some context →
      ∃ site rest, below = .complete site :: rest ∧ context.WellFormed m.tables site.index
  cutoff : ∀ {site : Site} {map : MapId}, m.tables.cutoffs[site]? = some map →
    ∃ position, site.index ≤ position ∧ m.tables.HoldsMap map position

theorem Machine.OnPath.wellFormed {m : Machine} (h : m.OnPath) : m.WellFormed where
  call := h.call
  waiting hframes hcontext := by
    have hpath := h.path
    rw [hframes] at hpath
    exact hpath.of_append.exists_site hcontext
  cutoff := h.maps.cutoff

/-- In every state of a run the contexts are well formed, and so is what is remembered of depths,
also when the run ends. -/
theorem contexts_wellFormed (hg : g.Built) (tokens : Array τ) (root : PatternId) (fuel : Nat) :
    (∀ m, run g (.ofTokens tokens) fuel (.initial root) = .running m → m.WellFormed) ∧
    ∀ results t, run g (.ofTokens tokens) fuel (.initial root) = .finished results t →
      ∀ (site : Site) (map : MapId), t.cutoffs[site]? = some map →
        ∃ position, site.index ≤ position ∧ t.HoldsMap map position := by
  constructor
  · intro m h
    have hm : m.OnPath := onPath_of_run hg.closed h
    exact hm.wellFormed
  · intro results t h site map hsite
    -- the tables at the end are those of the state before it
    obtain ⟨fuel', h'⟩ := exists_running_of_finished h
    have hm : Machine.OnPath ⟨.give results, [], t⟩ := onPath_of_run hg.closed h'
    exact hm.maps.cutoff hsite

end

/-- An `a` with any number of `x` after it, left-recursively, and perhaps a `b` before it. -/
def Grammar.laterSuffixes : Grammar where
  patterns := #[{ id := 0, kind := .thunk 0 }, { id := 1, kind := .consume "x" },
    { id := 2, kind := .sequence [0, 1] }, { id := 3, kind := .consume "a" },
    { id := 4, kind := .choice [2, 3] .parallel none }, { id := 5, kind := .consume "b" },
    { id := 6, kind := .sequence [5, 4] }, { id := 7, kind := .choice [6, 3] .parallel none }]
  rules := #[⟨"suffixes", 4⟩]
  labels := #[]

theorem Grammar.built_laterSuffixes : laterSuffixes.Built :=
  ⟨[.rule "suffixes", .consume "x", .sequence [0, 1], .consume "a", .parallelChoice [2, 3],
    .define "suffixes" 4, .consume "b", .sequence [5, 4], .parallelChoice [6, 3]], by cbv⟩

/-- An `x` is called at the end of `b a` on a path that has reached two positions, and the depths that
are remembered of a site at the first one in the end are those of sites at the second one. -/
theorem contexts_wellFormed_laterSuffixes :
    (∃ m, run Grammar.laterSuffixes (.ofTokens #["b", "a"]) 38 (.initial 7) = .running m ∧
      m.control = .call 1 2 [(1, 3), (0, 1)] ∧
      Context.WellFormed m.tables 2 [(1, 3), (0, 1)]) ∧
    ∃ results t, run Grammar.laterSuffixes (.ofTokens #["b", "a"]) 60 (.initial 7) =
        .finished results t ∧
      t.cutoffs[(⟨0, .pattern 6⟩ : Site)]? = some 10 ∧ t.HoldsMap 10 1 := by
  constructor
  · have hrun : (match run Grammar.laterSuffixes (.ofTokens #["b", "a"]) 38 (.initial 7) with
        | .running ⟨.call id index context, _, _⟩ => (id, index, context)
        | .running ⟨.give _, _, _⟩ => default
        | .finished _ _ => default
        | .faulted _ => default) = (1, 2, [(1, 3), (0, 1)]) := by
      decide +kernel
    split at hrun
    · rename_i id index context frames t h
      simp only [Prod.mk.injEq] at hrun
      obtain ⟨rfl, rfl, rfl⟩ := hrun
      have hstates := (contexts_wellFormed (ν := String) Grammar.built_laterSuffixes #["b", "a"] 7
        38).1
      exact ⟨_, h, rfl, (hstates _ h).call rfl⟩
    all_goals cases hrun
  · have hrun : (match run Grammar.laterSuffixes (.ofTokens #["b", "a"]) 60 (.initial 7) with
        | .finished _ t => (t.cutoffs[(⟨0, .pattern 6⟩ : Site)]?, t.store.maps.get? 10)
        | .running _ => default
        | .faulted _ => default) =
          (some 10, some [(⟨1, .pattern 0⟩, 3), (⟨1, .pattern 2⟩, 3), (⟨1, .pattern 4⟩, 3)]) := by
      decide +kernel
    split at hrun
    · rename_i results t h
      obtain ⟨hcutoff, hmap⟩ := Prod.mk.inj hrun
      have hends := (contexts_wellFormed (ν := String) Grammar.built_laterSuffixes #["b", "a"] 7
        60).2
      obtain ⟨position, -, depths, hstored, hdepths⟩ := hends results t h _ _ hcutoff
      obtain rfl := Option.some.inj (hmap.symm.trans hstored)
      obtain rfl : 1 = position := (hdepths _ _ List.mem_cons_self).1
      exact ⟨results, t, h, hcutoff, _, hstored, hdepths⟩
    all_goals cases hrun

end ReversibleGrammar
