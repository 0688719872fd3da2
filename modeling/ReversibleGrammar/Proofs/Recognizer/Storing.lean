/-
Recursion maps of results.

A match is made of matches, and a match of a token has no recursion map.  A map comes into a result
where a call is cut off, and what is made of that failure is the failure itself.  So the constructs
merge nothing but empty maps.

* `Store.Plain` — no match carries a recursion map, and no failure but that of a recursion that was
  cut off;
* `Store.Adds` — a store with matches and failures without maps added to it;
* `resume_adds`, `evaluate_adds` — constructs add such results and nothing else;
* `step_changes`, `plain_of_run` — so a step adds them, enters a site or cuts a recursion off, and
  every store of a run is plain;
* `matches_carry_no_map` — in every state of a run, matches differ by their fragments and their
  ends, and merging their maps stores nothing.
-/
import ReversibleGrammar.Proofs.Grammar.Built
import ReversibleGrammar.Proofs.Recognizer.States

namespace ReversibleGrammar

namespace Store

/-- No match carries a recursion map, and no failure but that of a recursion that was cut off. -/
structure Plain (s : Store) : Prop where
  success_map : ∀ {n f stop map}, s.results.get? n = some ⟨.success f, stop, map⟩ → map = emptyMap
  failure_map : ∀ {n k stop map}, s.results.get? n = some ⟨.failure k, stop, map⟩ →
    map = emptyMap ∨ s.failures.get? k = some .infiniteRecursion

/-- The later store has matches and failures without maps besides what the earlier one has. -/
inductive Adds (s : Store) : Store → Prop
  | refl : Adds s s
  | success {t : Store} (h : Adds s t) (fragment : Fragment) (stop : Nat) :
      Adds s (Store.success fragment stop emptyMap t).2
  | failure {t : Store} (h : Adds s t) (kind : FailureKind) (position : Nat) :
      Adds s (Store.failure kind position emptyMap t).2

/-- What one step does to a store. -/
inductive Changes (s : Store) : Store → Prop
  | adds {t : Store} (h : s.Adds t) : Changes s t
  | enter {t : Store} (context : Context) (site : Site) (depth : Nat)
      (h : (Store.enter context site depth s).2.Adds t) : Changes s t
  | cutoff (position : Nat) (map : MapId) :
      Changes s (Store.failure .infiniteRecursion position map s).2

variable {s t : Store}

/-! ### Storing -/

theorem plain_empty : Store.empty.Plain where
  success_map h := by simp [Store.empty, Interner.empty, Interner.get?] at h
  failure_map h := by simp [Store.empty, Interner.empty, Interner.get?] at h

/-- A number that is not given out stands for a result without a map, too. -/
theorem Plain.map_eq (hs : s.Plain) {id : ResultId} {f : FragmentId}
    (hf : (s.result id).outcome = .success f) : (s.result id).map = emptyMap := by
  cases hr : s.results.get? id with
  | some r =>
    rw [result_eq hr] at hf ⊢
    obtain ⟨outcome, stop, map⟩ := r
    cases hf
    exact hs.success_map hr
  | none =>
    rw [result, Interner.get, Array.getD_eq_getD_getElem?,
      show s.results.values[id]? = none from hr]
    rfl

theorem Plain.success (hs : s.Plain) (fragment : Fragment) (stop : Nat) :
    (Store.success fragment stop emptyMap s).2.Plain where
  success_map hn := by
    rcases Interner.get?_intern_cases s.results _ hn with hn | ⟨heq, -⟩
    · exact hs.success_map hn
    · exact (Result.mk.inj heq).2.2
  failure_map hn := by
    rcases Interner.get?_intern_cases s.results _ hn with hn | ⟨heq, -⟩
    · exact hs.failure_map hn
    · cases heq

/-- A failure may be stored with a map if it is that of a recursion. -/
theorem Plain.failure (hs : s.Plain) {kind : FailureKind} (position : Nat) {map : MapId}
    (hmap : map = emptyMap ∨ s.failures.Faithful ∧ kind = .infiniteRecursion) :
    (Store.failure kind position map s).2.Plain where
  success_map hn := by
    rcases Interner.get?_intern_cases s.results _ hn with hn | ⟨heq, -⟩
    · exact hs.success_map hn
    · cases heq
  failure_map hn := by
    rcases Interner.get?_intern_cases s.results _ hn with hn | ⟨heq, -⟩
    · exact (hs.failure_map hn).imp id (Interner.get?_intern s.failures kind)
    · cases heq
      rcases hmap with hmap | ⟨hfaithful, rfl⟩
      · exact .inl hmap
      · exact .inr (Interner.get?_intern_self s.failures hfaithful _)

theorem Plain.enter (hs : s.Plain) (context : Context) (site : Site) (depth : Nat) :
    (Store.enter context site depth s).2.Plain :=
  ⟨hs.success_map, hs.failure_map⟩

theorem Adds.plain (h : s.Adds t) (hs : s.Plain) : t.Plain := by
  induction h with
  | refl => exact hs
  | success _ fragment stop ih => exact ih.success fragment stop
  | failure _ kind position ih => exact ih.failure position (.inl rfl)

/-- Results without maps store no map. -/
theorem Adds.maps_eq (h : s.Adds t) : t.maps = s.maps := by
  induction h with
  | refl => rfl
  | success _ fragment stop ih => exact ih
  | failure _ kind position ih => exact ih

/-- What is added is stored beside what there was. -/
theorem Adds.grows (h : s.Adds t) : s.Grows t := by
  induction h with
  | refl => exact .refl s
  | success _ fragment stop ih =>
    exact ih.trans ⟨Interner.get?_intern _ _, Interner.get?_intern _ _, id, id⟩
  | failure _ kind position ih =>
    exact ih.trans ⟨Interner.get?_intern _ _, id, Interner.get?_intern _ _, id⟩

/-- No failure with a map is added. -/
theorem Adds.failure_cases (h : s.Adds t) {n : ResultId} {k : FailureId} {stop : Nat} {map : MapId}
    (hn : t.results.get? n = some ⟨.failure k, stop, map⟩) :
    s.results.get? n = some ⟨.failure k, stop, map⟩ ∨ map = emptyMap := by
  induction h with
  | refl => exact .inl hn
  | success _ fragment stop ih =>
    rcases Interner.get?_intern_cases _ _ hn with hn | ⟨heq, -⟩
    · exact ih hn
    · cases heq
  | failure _ kind position ih =>
    rcases Interner.get?_intern_cases _ _ hn with hn | ⟨heq, -⟩
    · exact ih hn
    · exact .inr (Result.mk.inj heq).2.2

theorem Changes.plain (h : s.Changes t) (hfaithful : s.failures.Faithful) (hs : s.Plain) :
    t.Plain := by
  cases h with
  | adds h => exact h.plain hs
  | enter context site depth h => exact h.plain (hs.enter context site depth)
  | cutoff position map => exact hs.failure position (.inr ⟨hfaithful, rfl⟩)

end Store

/-- The prefix that a sequence extends carries no recursion map. -/
def Frame.Plain : Frame → Prop
  | .sequence frame => frame.current.map = emptyMap
  | _ => True

section

variable {s t : Store} (hs : s.Plain) (h : s.Adds t)

/-! ### Constructs -/

include h in
theorem matchToken_adds (input : Input) (terminal : String) (index : Nat) :
    s.Adds (matchToken input terminal index t).2 := by
  unfold matchToken
  split
  · split
    · exact h.success _ _
    · exact h.failure _ _
  · exact h.failure _ _

include hs h

theorem wrapResult_adds (wrapper : Wrapper) (id : ResultId) :
    s.Adds (wrapResult wrapper id t).2 := by
  unfold wrapResult
  dsimp only
  split
  · rename_i hf
    rw [(h.plain hs).map_eq hf]
    exact h.success _ _
  · exact h

theorem wrapResults_adds (wrapper : Wrapper) (ids : List ResultId) :
    s.Adds (ids.mapM (wrapResult wrapper) t).2 := by
  induction ids generalizing t with
  | nil => exact h
  | cons id ids ih =>
    rw [List.mapM_cons]
    exact ih (wrapResult_adds hs h wrapper id)

theorem optionResults_adds (ids : List ResultId) (out : ResultSet) :
    s.Adds (optionResults ids out t).2 := by
  induction ids generalizing out t with
  | nil => exact h
  | cons id ids ih =>
    unfold optionResults
    dsimp only
    split
    · rename_i hf
      rw [(h.plain hs).map_eq hf]
      exact ih (h.success _ _) _
    · exact ih h out

/-- A prefix and a child that both carry no map are merged without one. -/
theorem extendSequence_adds {current : Result} (hcurrent : current.map = emptyMap)
    (ids : List ResultId) (following : ResultSet) :
    s.Adds (extendSequence current ids following t).2 := by
  induction ids generalizing following t with
  | nil => exact h
  | cons id ids ih =>
    unfold extendSequence
    dsimp only
    split
    · rename_i hf
      rw [(h.plain hs).map_eq hf, Store.mergeMaps_empty, hcurrent]
      exact ih (h.success _ _) _
    · exact ih h _

theorem choiceResults_adds (index : Nat) (ids : List ResultId) (successes failures : ResultSet) :
    s.Adds (choiceResults index ids successes failures t).2 := by
  induction ids generalizing successes failures t with
  | nil => exact h
  | cons id ids ih =>
    unfold choiceResults
    dsimp only
    split
    · rename_i hf
      rw [(h.plain hs).map_eq hf]
      exact ih (h.success _ _) _ _
    · exact ih h _ _

theorem extendMany_adds {parent : Result}
    (hparent : ∀ f, parent.outcome = .success f → parent.map = emptyMap) (mark : Nat)
    (isSeparator : Bool) (ids : List ResultId) (frame : ManyFrame) :
    s.Adds (extendMany parent mark isSeparator ids frame t).2 := by
  induction ids generalizing frame t with
  | nil => exact h
  | cons id ids ih =>
    unfold extendMany
    dsimp only
    split
    · rename_i hbefore hf
      split
      · exact ih h frame
      · rw [(h.plain hs).map_eq hf, Store.mergeMaps_empty, hparent _ hbefore]
        exact ih (h.success _ _) _
    · exact ih h frame

omit hs in
theorem nextChoice_adds (frame : ChoiceFrame) (frames : List Frame) (later : List PatternId) :
    s.Adds (nextChoice frame frames later t).2 := by
  cases later with
  | cons alternative later => exact h
  | nil =>
    simp only [nextChoice]
    split
    · exact h.failure _ _
    · exact h

theorem resumeChoice_adds (frame : ChoiceFrame) (results : List ResultId) (frames : List Frame) :
    s.Adds (resumeChoice frame results frames t).2 := by
  have hresults := choiceResults_adds hs h frame.index results .empty .empty
  revert hresults
  unfold resumeChoice
  rcases choiceResults frame.index results .empty .empty t with ⟨⟨successes, failures⟩, u⟩
  intro hresults
  dsimp only
  split
  · exact hresults
  · exact nextChoice_adds hresults _ frames frame.later

end

/-! ### Steps -/

/-- A construct adds results without maps. -/
theorem resume_adds {t : Tables} (hs : t.store.Plain) {frame : Frame} (hframe : frame.Plain)
    (results : List ResultId) (frames : List Frame) :
    t.store.Adds (resume frame results frames t).tables.store := by
  obtain ⟨store, memo, counts, cutoffs⟩ := t
  cases frame with
  | complete site => exact .refl
  | wrapped wrapper => exact wrapResults_adds hs .refl wrapper results
  | option position => exact (optionResults_adds hs .refl results .empty).success _ _
  | sequence frame => exact extendSequence_adds hs .refl hframe results _
  | choice frame => exact resumeChoice_adds hs .refl frame results frames
  | many frame state isSeparator =>
    exact extendMany_adds hs .refl (fun _ hf => hs.map_eq hf) _ _ results frame

/-- A pattern starts with results without maps. -/
theorem evaluate_adds {g : Grammar} {input : Input} {p : Pattern} {index : Nat} {context : Context}
    {frames : List Frame} {turn : Turn} {s t : Store}
    (h : evaluate g input p index context frames s = .ok (turn, t)) : s.Adds t := by
  unfold evaluate at h
  cases hkind : p.kind <;> rw [hkind] at h
  case consume terminal =>
    cases h
    exact matchToken_adds .refl input terminal index
  case choice alternatives mode names =>
    dsimp only at h
    have hnext := nextChoice_adds (Store.Adds.refl : s.Adds s)
      { context, position := index, mode, label := p.label.bind g.labelText?, index := 0,
        later := [], found := .empty, matched := false } frames alternatives
    rwa [Except.ok.inj h] at hnext
  case sequence | many | literal | line =>
    cases h
    exact Store.Adds.refl.success _ _
  case option | indent | group | conditional =>
    cases h
    exact .refl
  case thunk rule =>
    dsimp only at h
    split at h
    · cases h
      exact .refl
    · cases h

section

variable {τ ν : Type} [Token τ ν] {g : Grammar} {tokens : Array τ}

/-- What waits for results is plain. -/
theorem Store.Stack.plain {s : Store} {frame : Frame} {frames : List Frame} {id : PatternId}
    {start : Nat} (h : s.Stack g tokens (frame :: frames) id start) : frame.Plain := by
  cases h with
  | complete => trivial
  | waits hwaits _ _ =>
    cases hwaits with
    | sequence h =>
      obtain ⟨p, before, -, -, ⟨r, f, -, hcurrent, -⟩, -⟩ := h.kind
      show _ = emptyMap
      rw [hcurrent]
    | wrapped | option | choice | item | separator => trivial

/-- Giving results to a frame adds results without maps. -/
theorem Machine.Sound.adds {frame : Frame} {frames : List Frame} {results : List ResultId}
    {t : Tables} (hm : Machine.Sound g tokens ⟨.give results, frame :: frames, t⟩)
    (hplain : t.store.Plain) : t.store.Adds (resume frame results frames t).tables.store := by
  obtain ⟨id, index, -, hstack, -⟩ := hm.gives results rfl
  exact resume_adds hplain hstack.plain results frames

/-- A step adds results without maps, perhaps in a site that it has entered, or cuts a recursion
off. -/
theorem step_changes {m m' : Machine} (hm : m.Sound g tokens) (hplain : m.tables.store.Plain)
    (h : step g (.ofTokens tokens) m = .running m') :
    m.tables.store.Changes m'.tables.store := by
  obtain ⟨control, frames, t⟩ := m
  cases control with
  | call id index context =>
    rcases invoke_eq_running h with ⟨p, -, ⟨known, -, rfl⟩ | ⟨map, failure, store, hfailure, rfl⟩ |
      ⟨inner, store, control, frames', store', henter, hevaluate, rfl⟩⟩
    · exact .adds .refl
    · have hcutoff := Store.Changes.cutoff (s := t.store) index map
      rwa [hfailure] at hcutoff
    · refine .enter context ⟨index, p.recognizer⟩ (t.counts.getD ⟨index, p.recognizer⟩ 0 + 1) ?_
      rw [henter]
      exact evaluate_adds hevaluate
  | give results =>
    cases frames with
    | nil => cases h
    | cons frame frames =>
      cases h
      exact .adds (hm.adds hplain)

/-- The state is sound, and its store is plain. -/
structure Machine.Plain (g : Grammar) (tokens : Array τ) (m : Machine) : Prop where
  sound : m.Sound g tokens
  plain : m.tables.store.Plain

theorem step_plain (hg : g.Closed) {m m' : Machine} (hm : m.Plain g tokens)
    (h : step g (.ofTokens tokens) m = .running m') : m'.Plain g tokens where
  sound := step_sound hg hm.sound h
  plain := (step_changes hm.sound hm.plain h).plain hm.sound.tables.store.failures hm.plain

theorem initial_plain (root : PatternId) : (Machine.initial root).Plain g tokens :=
  ⟨initial_sound root, Store.plain_empty⟩

/-- Every state of a run from the first token has a plain store. -/
theorem plain_of_run (hg : g.Closed) {root : PatternId} {fuel : Nat} {m : Machine}
    (h : run g (.ofTokens tokens) fuel (.initial root) = .running m) : m.Plain g tokens :=
  run_keeps (fun _ _ hm hstep => step_plain hg hm hstep) fuel (initial_plain root) h

/-! ### Matches -/

/-- Matches carry the empty recursion map, so that they differ by their fragments and their ends,
and merging their maps stores nothing. -/
structure Store.PlainMatches (s : Store) : Prop where
  plain : s.Plain
  map_empty : s.map emptyMap = []
  eq_iff : ∀ {n n' f f' stop stop' map map'}, s.results.get? n = some ⟨.success f, stop, map⟩ →
    s.results.get? n' = some ⟨.success f', stop', map'⟩ → (n = n' ↔ f = f' ∧ stop = stop')
  mergeMaps_eq : ∀ {n n' f f' stop stop' map map'},
    s.results.get? n = some ⟨.success f, stop, map⟩ →
    s.results.get? n' = some ⟨.success f', stop', map'⟩ →
      Store.mergeMaps map map' s = (emptyMap, s)

theorem Store.Sound.plainMatches {s : Store} (hs : s.Sound) (hplain : s.Plain) :
    s.PlainMatches where
  plain := hplain
  map_empty := Interner.get_eq_of_get? hs.map_empty
  eq_iff {n n' f f' stop stop' map map'} hn hn' := by
    obtain rfl := hplain.success_map hn
    obtain rfl := hplain.success_map hn'
    constructor
    · rintro rfl
      rw [hn] at hn'
      cases hn'
      exact ⟨rfl, rfl⟩
    · rintro ⟨rfl, rfl⟩
      exact Option.some.inj (((hs.results _ n).2 hn).symm.trans ((hs.results _ n').2 hn'))
  mergeMaps_eq hn hn' := by
    obtain rfl := hplain.success_map hn
    obtain rfl := hplain.success_map hn'
    exact Store.mergeMaps_empty emptyMap s

/-- In every state of a run, and when it ends, matches carry the empty recursion map, and only
failures of recursions that were cut off carry another one; and a construct that goes on stores no
map. -/
theorem matches_carry_no_map (hg : g.Built) (tokens : Array τ) (root : PatternId) (fuel : Nat) :
    (∀ m, run g (.ofTokens tokens) fuel (.initial root) = .running m →
      m.tables.store.PlainMatches ∧
      ∀ results frame frames, m.control = .give results → m.frames = frame :: frames →
        (resume frame results frames m.tables).tables.store.maps = m.tables.store.maps) ∧
    ∀ results t, run g (.ofTokens tokens) fuel (.initial root) = .finished results t →
      t.store.PlainMatches := by
  constructor
  · intro m h
    obtain ⟨hm, hplain⟩ : m.Plain g tokens := plain_of_run hg.closed h
    refine ⟨hm.tables.store.plainMatches hplain, ?_⟩
    obtain ⟨control, waiting, t⟩ := m
    rintro results frame frames rfl rfl
    exact (hm.adds hplain).maps_eq
  · intro results t h
    obtain ⟨fuel', h'⟩ := exists_running_of_finished h
    obtain ⟨hm, hplain⟩ : Machine.Plain g tokens _ := plain_of_run hg.closed h'
    exact hm.tables.store.plainMatches hplain

end

/-- A sequence is given two matches and the failure of a recursion that was cut off, which carries
the map of its path. -/
theorem matches_carry_no_map_suffixes :
    ∃ m frame frames, run Grammar.suffixes (.ofTokens #["a", "x"]) 35 (.initial 4) = .running m ∧
      m.control = .give [9, 1, 4] ∧ m.frames = frame :: frames ∧
      m.tables.store.result 1 = ⟨.failure 0, 0, 11⟩ ∧ m.tables.store.PlainMatches ∧
      (resume frame [9, 1, 4] frames m.tables).tables.store.maps = m.tables.store.maps := by
  have hrun : (match run Grammar.suffixes (.ofTokens #["a", "x"]) 35 (.initial 4) with
      | .running ⟨.give results, frames, t⟩ => (results, frames.length, t.store.result 1)
      | .running ⟨.call _ _ _, _, _⟩ => default
      | .finished _ _ => default
      | .faulted _ => default) = ([9, 1, 4], 10, ⟨.failure 0, 0, 11⟩) := by
    decide +kernel
  split at hrun
  · rename_i results frames t h
    simp only [Prod.mk.injEq] at hrun
    obtain ⟨rfl, hlength, hcutoff⟩ := hrun
    obtain ⟨frame, frames, rfl⟩ := List.exists_cons_of_length_eq_add_one hlength
    obtain ⟨hplain, hmaps⟩ := (matches_carry_no_map (ν := String) Grammar.built_suffixes
      #["a", "x"] 4 35).1 _ h
    exact ⟨_, frame, frames, h, rfl, rfl, hcutoff, hplain, hmaps _ _ _ rfl rfl⟩
  all_goals cases hrun

end ReversibleGrammar
