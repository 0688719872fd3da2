/-
Every result is made for a pattern at a position.

The pattern and the position of a task are nowhere written down; they are those
that its frame was made for.

* `Store.Waits` — a frame that waits for matches of one pattern at one position makes
  matches of another pattern from another position;
* `Tables.Sound` — what is remembered is what the pattern of its site matches there;
* `Yields.supports` — what a task gives are results of the pattern and position it is for.
-/
import ReversibleGrammar.Proofs.Recognizer.Evaluation
import ReversibleGrammar.Proofs.Recognizer.Reading

namespace ReversibleGrammar

section

variable {τ ν : Type} [Token τ ν] (g : Grammar) (tokens : Array τ)

namespace Store

/-- A sequence that waits for a child. -/
structure SequenceWaits (s : Store) (frame : SequenceFrame) (index : Nat) (id : PatternId)
    (start : Nat) : Prop where
  kind : ∃ p before, g.pattern? id = some p ∧
    p.kind = .sequence (before ++ frame.child :: frame.later) ∧
    (∃ r f, s.Matched r f index ∧ frame.current = ⟨.success f, index, emptyMap⟩ ∧
      s.Supports g tokens (.first before) start r) ∧
    (∀ r ∈ frame.pending, s.Supports g tokens (.first before) start r) ∧
    ∀ r ∈ frame.following.toList, s.Supports g tokens (.first (before ++ [frame.child])) start r
  finished : ∀ r ∈ frame.finished.toList, s.Fails tokens start r

/-- A choice that is to try some alternatives next. -/
structure ChoiceReady (s : Store) (frame : ChoiceFrame) (next : List PatternId) (id : PatternId)
    (start : Nat) : Prop where
  kind : ∃ p tried names, g.pattern? id = some p ∧
    p.kind = .choice (tried ++ next) frame.mode names ∧ tried.length = frame.index
  position : frame.position = start
  found : ∀ r ∈ frame.found.toList, s.Supports g tokens (.whole id) start r

/-- A state of a repetition. -/
structure StateReady (s : Store) (item : PatternId) (separator : Option PatternId) (start : Nat)
    (state : PartialMany) : Prop where
  matched : ∃ f stop, s.Matched state.result f stop ∧ state.mark ≤ stop
  supports : s.Supports g tokens (.chain item separator state.afterItem) start state.result

/-- A repetition that is to extend its states. -/
structure ManyReady (s : Store) (frame : ManyFrame) (id : PatternId) (start : Nat) : Prop where
  kind : ∃ p, g.pattern? id = some p ∧ p.kind = .many frame.item frame.separator
  states : ∀ state ∈ frame.front ++ frame.back,
    s.StateReady g tokens frame.item frame.separator start state
  emitted : ∀ r ∈ frame.emitted.toList, s.Supports g tokens (.whole id) start r

/-- The frame waits for matches of `child` at `index`, and makes matches of `id` from `start`. -/
inductive Waits (s : Store) : Frame → PatternId → Nat → PatternId → Nat → Prop
  | wrapped {wrapper : Wrapper} {id child : PatternId} {p : Pattern} {start : Nat}
      (hp : g.pattern? id = some p) (hkind : p.kind.wrapped? g = some (wrapper, child)) :
      Waits s (.wrapped wrapper) child start id start
  | option {id item : PatternId} {p : Pattern} {start : Nat} (hp : g.pattern? id = some p)
      (hkind : p.kind = .option item) : Waits s (.option start) item start id start
  | sequence {frame : SequenceFrame} {index start : Nat} {id : PatternId}
      (h : s.SequenceWaits g tokens frame index id start) :
      Waits s (.sequence frame) frame.child index id start
  | choice {frame : ChoiceFrame} {alternative id : PatternId} {start : Nat}
      (h : s.ChoiceReady g tokens frame (alternative :: frame.later) id start) :
      Waits s (.choice frame) alternative start id start
  | item {frame : ManyFrame} {state : PartialMany} {index start : Nat} {f : FragmentId}
      {id : PatternId} (h : s.ManyReady g tokens frame id start)
      (hstate : s.StateReady g tokens frame.item frame.separator start state)
      (hindex : s.Matched state.result f index)
      (hafter : (state.afterItem && frame.separator.isSome) = false) :
      Waits s (.many frame state false) frame.item index id start
  | separator {frame : ManyFrame} {state : PartialMany} {index start : Nat} {f : FragmentId}
      {id separator : PatternId} (h : s.ManyReady g tokens frame id start)
      (hstate : s.StateReady g tokens frame.item frame.separator start state)
      (hindex : s.Matched state.result f index) (hafter : state.afterItem = true)
      (hseparator : frame.separator = some separator) :
      Waits s (.many frame state true) separator index id start

end Store

/-- The task is for matches of a pattern from a position. -/
def Task.Ready (s : Store) (id : PatternId) (start : Nat) : Task → Prop
  | .call other index _ => other = id ∧ index = start ∧ index ≤ tokens.size
  | .give results => ∀ r ∈ results, s.Supports g tokens (.whole id) start r
  | .wait child index _ frame => s.Waits g tokens frame child index id start ∧
    start ≤ index ∧ index ≤ tokens.size

/-- What is remembered under a site are matches of its patterns from its position. -/
structure Tables.Sound (t : Tables) : Prop where
  store : t.store.Sound
  memo : ∀ {site : Site} {results : ResultSet}, t.memo[site]? = some results →
    ∀ id p, g.pattern? id = some p →
    p.recognizer = site.recognizer →
      ∀ r ∈ results.toList, t.store.Supports g tokens (.whole id) site.index r

end

section

variable {τ ν : Type} [Token τ ν] {g : Grammar} {tokens : Array τ} {s t : Store}
variable {id : PatternId} {p : Pattern} {start : Nat} {task : Task}

/-! ### What constructs turn to -/

/-- A sequence extends its next prefix or gives its derivations. -/
theorem nextSequence_ready (hs : s.Sound) (hp : g.pattern? id = some p) (context : Context)
    {before children : List PatternId} (hkind : p.kind = .sequence (before ++ children))
    {pending : List ResultId} {following finished : ResultSet}
    (hpending : ∀ r ∈ pending, s.Supports g tokens (.first before) start r)
    (hfollowing : ∀ child later, children = child :: later → ∀ r ∈ following.toList,
      s.Supports g tokens (.first (before ++ [child])) start r)
    (hfinished : ∀ r ∈ finished.toList, s.Fails tokens start r)
    (h : nextSequence context [] children pending following finished s = task.turn []) :
    task.Ready g tokens s id start := by
  induction children generalizing before pending following finished with
  | nil =>
    rw [List.append_nil] at hkind
    obtain rfl := Task.turn_give h.symm
    intro r hr
    rcases ResultSet.toList_insertAll_subset _ _ hr with hr | hr
    · obtain ⟨r', hr', haccepts⟩ := hpending r (ResultSet.toList_ofList_subset _ hr)
      exact ⟨r', hr', haccepts.le_stop, haccepts.stop_le, fun f hf =>
        Store.means_whole_of_first hs hp hkind (haccepts.means f hf)⟩
    · exact (hfinished r hr).supports le_rfl _
  | cons child later ih =>
    unfold nextSequence at h
    have hknown : ∀ r ∈ pending, s.Known r := fun r hr => (hpending r hr).known
    have hfails : ∀ r ∈ pending, s.Failed r → s.Fails tokens start r :=
      fun r hr hfailed => (hpending r hr).failed hfailed
    rcases takeSuccess_cases finished hs hknown with ⟨htake, hfailed⟩ |
      ⟨failed, r, f, stop, rest, rfl, hfailed, hmatched, htake⟩
    · rw [htake] at h
      refine ih (by rw [List.append_assoc]; exact hkind)
        (hfollowing child later rfl) ?_ ?_ h
      · intro _ _ _ r hr
        cases hr
      · intro r hr
        rcases ResultSet.toList_insertAll_subset _ _ hr with hr | hr
        · exact hfinished r hr
        · exact hfails r hr (hfailed r hr)
    · rw [htake] at h
      obtain rfl := Task.turn_wait h.symm
      obtain ⟨hle, hstop, -⟩ := (hpending r (by simp)).matched hmatched
      refine ⟨.sequence ⟨⟨p, before, hp, hkind, ⟨r, f, hmatched, rfl, hpending r (by simp)⟩,
        fun r hr => hpending r (by simp [hr]), hfollowing child later rfl⟩, ?_⟩, hle, hstop⟩
      intro r hr
      rcases ResultSet.toList_insertAll_subset _ _ hr with hr | hr
      · exact hfinished r hr
      · exact hfails r (by simp [hr]) (hfailed r hr)

/-- A choice tries its next alternative or gives what it has found. -/
theorem nextChoice_ready (hs : s.Sound) (hstart : start ≤ tokens.size) {frame : ChoiceFrame}
    {next : List PatternId} (hready : s.ChoiceReady g tokens frame next id start)
    (h : nextChoice frame [] next s = (task.turn [], t)) :
    s.Extends t ∧ task.Ready g tokens t id start := by
  obtain ⟨hkind, rfl, hfound⟩ := hready
  cases next with
  | cons alternative later =>
    injection h with h ht
    subst ht
    obtain rfl := Task.turn_wait h.symm
    have hnext : s.ChoiceReady g tokens { frame with later } (alternative :: later) id
        frame.position := ⟨hkind, rfl, hfound⟩
    exact ⟨.refl hs, .choice hnext, le_rfl, hstart⟩
  | nil =>
    simp only [nextChoice] at h
    split at h
    · rename_i label _ _
      obtain ⟨r, u, k, hfailure, hextends, -, hr⟩ :=
        hs.failure_eq (.alternativeFailed label) frame.position emptyMap
      simp only [hfailure] at h
      injection h with h ht
      subst ht
      obtain rfl := Task.turn_give h.symm
      refine ⟨hextends, fun r' hr' => ?_⟩
      rcases ResultSet.toList_insert_subset _ _ hr' with hr' | rfl
      · exact (hfound r' hr').mono hs hextends.grows
      · exact Store.Fails.supports le_rfl ⟨_, k, hr, rfl, le_rfl, hstart⟩ _
    · injection h with h ht
      subst ht
      obtain rfl := Task.turn_give h.symm
      exact ⟨.refl hs, hfound⟩

/-- A choice goes on after an alternative. -/
theorem resumeChoice_ready (hs : s.Sound) (hstart : start ≤ tokens.size) {frame : ChoiceFrame}
    {alternative : PatternId}
    (hready : s.ChoiceReady g tokens frame (alternative :: frame.later) id start)
    {results : List ResultId}
    (hresults : ∀ r ∈ results, s.Supports g tokens (.whole alternative) start r)
    (h : resumeChoice frame results [] s = (task.turn [], t)) :
    s.Extends t ∧ task.Ready g tokens t id start := by
  obtain ⟨⟨p, tried, names, hp, hkind, hindex⟩, hposition, hfound⟩ := hready
  obtain ⟨made, u, hmade, hextends, hremade⟩ := choiceResults_remade frame.index .empty .empty hs
    fun r hr => (hresults r hr).known
  have hsupports : ∀ r ∈ made, u.Supports g tokens (.whole id) start r := by
    intro r hr
    obtain ⟨r', hr', hremade⟩ := exists_of_forall₂_of_mem hremade hr
    refine ((hresults r' hr').mono hs hextends.grows).remade le_rfl hremade
      fun f f' stop hf' hmeans => ?_
    exact Store.means_choice hextends.sound hp hkind (by simp [← hindex]) hf' hmeans
  have hsuccesses : ∀ r ∈ (ResultSet.empty.insertAll (successesOf u made)).toList,
      u.Supports g tokens (.whole id) start r :=
    fun r hr => hsupports r (List.mem_of_mem_filter (ResultSet.toList_ofList_subset _ hr))
  have hfailures : ∀ r ∈ (ResultSet.empty.insertAll (failuresAmong u made)).toList,
      u.Supports g tokens (.whole id) start r :=
    fun r hr => hsupports r (List.mem_of_mem_filter (ResultSet.toList_ofList_subset _ hr))
  unfold resumeChoice at h
  simp only [hmade] at h
  split at h
  · injection h with h ht
    subst ht
    obtain rfl := Task.turn_give h.symm
    exact ⟨hextends, hsuccesses⟩
  · obtain ⟨hextends', hready⟩ : u.Extends t ∧ task.Ready g tokens t id start := by
      refine nextChoice_ready hextends.sound hstart ?_ h
      refine ⟨⟨p, tried ++ [alternative], names, hp, ?_, by simp [hindex]⟩, hposition,
        fun r hr => ?_⟩
      · rw [hkind, List.append_assoc]
        rfl
      · rcases ResultSet.toList_insertAll_subset _ _ hr with hr | hr
        · rcases ResultSet.toList_insertAll_subset _ _ hr with hr | hr
          · exact (hfound r hr).mono hs hextends.grows
          · exact hsuccesses r hr
        · exact hfailures r hr
    exact ⟨hextends.trans hextends', hready⟩

/-- A repetition extends a state. -/
theorem callMany_ready {frame : ManyFrame} {state : PartialMany}
    (hready : s.ManyReady g tokens frame id start)
    (hstate : s.StateReady g tokens frame.item frame.separator start state)
    (h : callMany frame state [] s = task.turn []) : task.Ready g tokens s id start := by
  obtain ⟨f, stop, hmatched, -⟩ := hstate.matched
  obtain ⟨hle, hstop, -⟩ := hstate.supports.matched hmatched
  unfold callMany at h
  simp only [hmatched.result_eq] at h
  split at h
  · rename_i separator hseparator hafter
    obtain rfl := Task.turn_wait h.symm
    exact ⟨.separator hready hstate hmatched hafter hseparator, hle, hstop⟩
  · rename_i hother
    obtain rfl := Task.turn_wait h.symm
    refine ⟨.item hready hstate hmatched ?_, hle, hstop⟩
    cases hseparator : frame.separator with
    | none => exact Bool.and_false _
    | some separator =>
      cases hafter : state.afterItem with
      | true => exact absurd hafter (hother separator hseparator)
      | false => rfl

/-- A repetition extends its next state or gives what it has found. -/
theorem nextMany_ready {frame : ManyFrame} (hready : s.ManyReady g tokens frame id start)
    (h : nextMany frame [] s = task.turn []) : task.Ready g tokens s id start := by
  obtain ⟨hkind, hstates, hemitted⟩ := hready
  unfold nextMany at h
  split at h
  · rename_i state front hfront
    rw [hfront] at hstates
    have hrest : s.ManyReady g tokens { frame with front } id start :=
      ⟨hkind, fun other hother => hstates other (List.mem_cons_of_mem state hother), hemitted⟩
    exact callMany_ready hrest (hstates state List.mem_cons_self) h
  · split at h
    · rename_i state front hback
      have hmem : ∀ other ∈ state :: front, other ∈ frame.front ++ frame.back := by
        intro other hother
        rw [← hback, List.mem_reverse] at hother
        exact List.mem_append_right _ hother
      have hrest : s.ManyReady g tokens { frame with front, back := [] } id start := by
        refine ⟨hkind, fun other hother => ?_, hemitted⟩
        rw [List.append_nil] at hother
        exact hstates other (hmem other (List.mem_cons_of_mem state hother))
      exact callMany_ready hrest (hstates state (hmem state List.mem_cons_self)) h
    · obtain rfl := Task.turn_give h.symm
      intro r hr
      exact hemitted r (List.mem_reverse.1 hr)

theorem Store.StateReady.mono (hs : s.Sound) (hgrows : s.Grows t) {item : PatternId}
    {separator : Option PatternId} {state : PartialMany}
    (h : s.StateReady g tokens item separator start state) :
    t.StateReady g tokens item separator start state := by
  obtain ⟨⟨f, stop, hmatched, hle⟩, hsupports⟩ := h
  exact ⟨⟨f, stop, hgrows.matched hmatched, hle⟩, hsupports.mono hs hgrows⟩

/-- A state of a repetition stops after its last item. -/
theorem Store.StateReady.mark_le {item : PatternId} {separator : Option PatternId}
    {state : PartialMany} (h : s.StateReady g tokens item separator start state) {f : FragmentId}
    {stop : Nat} (hmatched : s.Matched state.result f stop) : state.mark ≤ stop := by
  obtain ⟨f', stop', hmatched', hle⟩ := h.matched
  rw [Store.Matched, hmatched] at hmatched'
  cases hmatched'
  exact hle

theorem Store.ManyReady.mono (hs : s.Sound) (hgrows : s.Grows t) {frame : ManyFrame}
    (h : s.ManyReady g tokens frame id start) : t.ManyReady g tokens frame id start :=
  ⟨h.kind, fun state hstate => (h.states state hstate).mono hs hgrows,
    fun r hr => (h.emitted r hr).mono hs hgrows⟩

theorem Store.Waits.mono (hs : s.Sound) (hgrows : s.Grows t) {frame : Frame} {child : PatternId}
    {index : Nat} (h : s.Waits g tokens frame child index id start) :
    t.Waits g tokens frame child index id start := by
  cases h with
  | wrapped hp hkind => exact .wrapped hp hkind
  | option hp hkind => exact .option hp hkind
  | sequence h =>
    obtain ⟨⟨p, before, hp, hkind, ⟨r, f, hmatched, hcurrent, hsupports⟩, hpending, hfollowing⟩,
      hfinished⟩ := h
    exact .sequence ⟨⟨p, before, hp, hkind,
      ⟨r, f, hgrows.matched hmatched, hcurrent, hsupports.mono hs hgrows⟩,
      fun r hr => (hpending r hr).mono hs hgrows, fun r hr => (hfollowing r hr).mono hs hgrows⟩,
      fun r hr => (hfinished r hr).mono hgrows⟩
  | choice h =>
    exact .choice ⟨h.kind, h.position, fun r hr => (h.found r hr).mono hs hgrows⟩
  | item h hstate hindex hafter =>
    exact .item (h.mono hs hgrows) (hstate.mono hs hgrows) (hgrows.matched hindex) hafter
  | separator h hstate hindex hafter hseparator =>
    exact .separator (h.mono hs hgrows) (hstate.mono hs hgrows) (hgrows.matched hindex) hafter
      hseparator

theorem add_parts (frame : ManyFrame) (s : Store) (mark : Nat) (isSeparator : Bool)
    (r : ResultId) :
    (frame.add s mark isSeparator r).item = frame.item ∧
      (frame.add s mark isSeparator r).separator = frame.separator := by
  cases isSeparator with
  | true => exact separateMany_parts ..
  | false => exact emitMany_parts ..

/-- A repetition with one part more is ready if that part makes it a repetition. -/
theorem Store.ManyReady.add {frame : ManyFrame} (h : s.ManyReady g tokens frame id start)
    {mark : Nat} {isSeparator : Bool} {r : ResultId}
    (hstate : s.StateReady g tokens frame.item frame.separator start
      ⟨r, if isSeparator then mark else (s.result r).stop,
        !isSeparator && frame.separator.isSome⟩)
    (hwhole : isSeparator = false → s.Supports g tokens (.whole id) start r) :
    s.ManyReady g tokens (frame.add s mark isSeparator r) id start := by
  obtain ⟨hkind, hstates, hemitted⟩ := h
  have hcons {back : List PartialMany} {state : PartialMany}
      (hstate : s.StateReady g tokens frame.item frame.separator start state)
      (hback : ∀ state ∈ frame.front ++ back,
        s.StateReady g tokens frame.item frame.separator start state) :
      ∀ other ∈ frame.front ++ state :: back,
        s.StateReady g tokens frame.item frame.separator start other := by
    intro other hother
    rcases List.mem_append.1 hother with hother | hother
    · exact hback other (List.mem_append_left _ hother)
    · rcases List.mem_cons.1 hother with rfl | hother
      · exact hstate
      · exact hback other (List.mem_append_right _ hother)
  cases isSeparator with
  | true =>
    show s.ManyReady g tokens (separateMany frame r mark) id start
    unfold separateMany
    split
    · exact ⟨hkind, hstates, hemitted⟩
    · exact ⟨hkind, hcons hstate hstates, hemitted⟩
  | false =>
    show s.ManyReady g tokens (emitMany frame r (s.result r).stop) id start
    unfold emitMany
    split
    · exact ⟨hkind, hstates, hemitted⟩
    · refine ⟨hkind, hcons hstate hstates, fun other hother => ?_⟩
      rcases ResultSet.toList_insert_subset _ _ hother with hother | rfl
      · exact hemitted other hother
      · exact hwhole rfl

theorem Store.ManyReady.foldl_add {mark : Nat} {isSeparator : Bool} {rs : List ResultId}
    {frame : ManyFrame} (h : s.ManyReady g tokens frame id start)
    (hstates : ∀ r ∈ rs, s.StateReady g tokens frame.item frame.separator start
      ⟨r, if isSeparator then mark else (s.result r).stop,
        !isSeparator && frame.separator.isSome⟩)
    (hwhole : isSeparator = false → ∀ r ∈ rs, s.Supports g tokens (.whole id) start r) :
    s.ManyReady g tokens (rs.foldl (fun frame r => frame.add s mark isSeparator r) frame) id
      start := by
  induction rs generalizing frame with
  | nil => exact h
  | cons r rs ih =>
    obtain ⟨hitem, hseparator⟩ := add_parts frame s mark isSeparator r
    refine ih (h.add (hstates r List.mem_cons_self) fun h => hwhole h r List.mem_cons_self) ?_ ?_
    · rw [hitem, hseparator]
      exact fun r' hr' => hstates r' (List.mem_cons_of_mem r hr')
    · exact fun h r' hr' => hwhole h r' (List.mem_cons_of_mem r hr')

/-- A repetition is extended by the matches of its next part. -/
theorem extendMany_ready (hs : s.Sound) {frame : ManyFrame} {state : PartialMany}
    {isSeparator : Bool} {child : PatternId} {index : Nat} {results : List ResultId}
    (hwaits : s.Waits g tokens (.many frame state isSeparator) child index id start)
    (hle : start ≤ index)
    (hresults : ∀ r ∈ results, s.Supports g tokens (.whole child) index r) :
    ∃ extended t, extendMany (s.result state.result) state.mark isSeparator results frame s =
      (extended, t) ∧ s.Extends t ∧ t.ManyReady g tokens extended id start := by
  have hknown : ∀ r ∈ results, s.Known r := fun r hr => (hresults r hr).known
  cases hwaits with
  | item hready hstate hindex hafter =>
    rename_i before
    obtain ⟨made, t, hextend, hextends, hremade⟩ := extendMany_remade index state.mark false frame
      hs (hs.exists_fragment hindex) hknown
    rw [hindex.result_eq]
    obtain ⟨p, hp, hkind⟩ := hready.kind
    have hbefore := ((hstate.supports.mono hs hextends.grows).matched
      (hextends.grows.matched hindex)).2.2
    -- an item after the state is a repetition again
    have hitem : ∀ r ∈ successesOf t made, ∃ f stop, t.Matched r f stop ∧
        t.Supports g tokens (.chain frame.item frame.separator frame.separator.isSome) start r := by
      intro r hr
      obtain ⟨r', hr', f, stop, hmatched, hmade⟩ := exists_of_mem_successesOf hremade hr
      have hsupports := (hresults r' (List.mem_of_mem_filter hr')).mono hs hextends.grows
      obtain ⟨hle', hstop, hmeans⟩ := hsupports.matched hmatched
      obtain ⟨f', hf', hform⟩ := hmade
      refine ⟨f', stop, hf', Store.Made.supports ⟨f', hf', hform⟩ (hle.trans hle') hstop
        fun f' hf' => ?_⟩
      exact Store.means_chain_item hextends.sound hafter hf' hbefore hmeans
    refine ⟨_, t, hextend, hextends, (hready.mono hs hextends.grows).foldl_add ?_ ?_⟩
    · intro r hr
      obtain ⟨f, stop, hmatched, hsupports⟩ := hitem r hr
      exact ⟨⟨f, stop, hmatched, by simp [hmatched.result_eq]⟩, hsupports⟩
    · intro _ r hr
      obtain ⟨-, -, -, r', hr', hle', hstop, hmeans⟩ := hitem r hr
      exact ⟨r', hr', hle', hstop, fun f hf =>
        Store.means_whole_of_chain hextends.sound hp hkind (hmeans f hf)⟩
  | separator hready hstate hindex hafter hseparator =>
    rename_i before
    obtain ⟨made, t, hextend, hextends, hremade⟩ := extendMany_remade index state.mark true frame
      hs (hs.exists_fragment hindex) hknown
    rw [hindex.result_eq]
    have hbefore := ((hstate.supports.mono hs hextends.grows).matched
      (hextends.grows.matched hindex)).2.2
    have hmark := hstate.mark_le hindex
    refine ⟨_, t, hextend, hextends, (hready.mono hs hextends.grows).foldl_add ?_ ?_⟩
    · intro r hr
      obtain ⟨r', hr', f, stop, hmatched, hmade⟩ := exists_of_mem_successesOf hremade hr
      have hsupports := (hresults r' (List.mem_of_mem_filter hr')).mono hs hextends.grows
      obtain ⟨hle', hstop, hmeans⟩ := hsupports.matched hmatched
      obtain ⟨f', hf', hform⟩ := hmade
      refine ⟨⟨f', stop, hf', hmark.trans hle'⟩, Store.Made.supports ⟨f', hf', hform⟩
        (hle.trans hle') hstop fun f' hf' => ?_⟩
      rw [hafter, hseparator] at hbefore
      rw [hseparator]
      exact Store.means_chain_separator hextends.sound hf' hbefore hmeans
    · exact fun h => absurd h (by simp)

/-! ### What steps lead to -/

/-- A pattern that is started is matched from its position. -/
theorem evaluate_ready (hs : s.Sound) (hp : g.pattern? id = some p) (hstart : start ≤ tokens.size)
    {context : Context}
    (h : evaluate g (.ofTokens tokens) p start context [] s = .ok (task.turn [], t)) :
    s.Extends t ∧ task.Ready g tokens t id start := by
  unfold evaluate at h
  -- a construct around one child waits for it
  have hwrapped {wrapper : Wrapper} {child : PatternId}
      (hkind : p.kind.wrapped? g = some (wrapper, child))
      (hok : (.ok ((.call child start context, [.wrapped wrapper]), s) :
        Except Fault (Turn × Store)) = .ok (task.turn [], t)) :
      s.Extends t ∧ task.Ready g tokens t id start := by
    injection hok with hok
    injection hok with hok ht
    subst ht
    obtain rfl := Task.turn_wait hok.symm
    exact ⟨.refl hs, .wrapped hp hkind, le_rfl, hstart⟩
  -- a mark matches nothing
  have hmark {marker : Marker} (hkind : p.kind.mark? = some marker)
      (hok : (.ok ((.give [(Store.success (.mark marker) start emptyMap s).1], []),
        (Store.success (.mark marker) start emptyMap s).2) :
        Except Fault (Turn × Store)) = .ok (task.turn [], t)) :
      s.Extends t ∧ task.Ready g tokens t id start := by
    obtain ⟨r, u, hstored, hextends, hmade⟩ :=
      hs.made (.mark marker) (by simp [Fragment.parts]) start
    rw [hstored] at hok
    injection hok with hok
    injection hok with hok ht
    subst ht
    obtain rfl := Task.turn_give hok.symm
    refine ⟨hextends, fun r' hr' => ?_⟩
    rw [List.mem_singleton.1 hr']
    exact hmade.supports le_rfl hstart fun f hf => Store.means_mark hp hkind hf
  cases hkind : p.kind with
  | consume terminal =>
    obtain ⟨r, u, hmatch, hextends, hr⟩ := matchToken_cases hs (.ofTokens tokens) terminal start
    simp only [hkind, hmatch] at h
    injection h with h
    injection h with h ht
    subst ht
    obtain rfl := Task.turn_give h.symm
    refine ⟨hextends, fun r' hr' => ?_⟩
    rw [List.mem_singleton.1 hr']
    split at hr
    · rename_i hmatches
      have hlt : start < tokens.size := hmatches.1
      have his := hmatches.2
      simp only [Input.ofTokens, Array.getElem?_eq_getElem hlt] at his
      exact hr.supports (Nat.le_succ start) hlt fun f hf =>
        Store.means_leaf hp hkind hf (Array.getElem?_eq_getElem hlt) his
    · obtain ⟨k, kind, hr, -⟩ := hr
      exact Store.Fails.supports le_rfl ⟨_, k, hr, rfl, le_rfl, hstart⟩ _
  | sequence children =>
    obtain ⟨r, u, hstored, hextends, hmade⟩ :=
      hs.made .sequenceStart (by simp [Fragment.parts]) start
    simp only [hkind, hstored] at h
    injection h with h
    injection h with h ht
    subst ht
    have hfirst : ∀ r' ∈ [r], u.Supports g tokens (.first []) start r' := by
      intro r' hr'
      rw [List.mem_singleton.1 hr']
      exact hmade.supports le_rfl hstart fun f hf => Store.means_first_nil hf
    have hkind : p.kind = .sequence ([] ++ children) := hkind
    refine ⟨hextends, nextSequence_ready hextends.sound hp context hkind hfirst ?_ ?_ h⟩
    · exact fun _ _ _ => List.forall_mem_nil _
    · exact List.forall_mem_nil _
  | choice alternatives mode names =>
    simp only [hkind] at h
    injection h with h
    refine nextChoice_ready hs hstart ?_ h
    exact ⟨⟨p, [], names, hp, hkind, rfl⟩, rfl, List.forall_mem_nil _⟩
  | many item separator =>
    obtain ⟨r, u, hstored, hextends, hmade⟩ :=
      hs.made .manyStart (by simp [Fragment.parts]) start
    simp only [hkind, startMany, hstored] at h
    injection h with h
    injection h with h ht
    subst ht
    refine ⟨hextends, nextMany_ready ⟨⟨p, hp, hkind⟩, ?_, ?_⟩ h⟩
    · intro state hstate
      obtain rfl : state = ⟨r, start, false⟩ := by simpa using hstate
      obtain ⟨f, hf, hform⟩ := hmade
      exact ⟨⟨f, start, hf, le_rfl⟩, Store.Made.supports ⟨f, hf, hform⟩ le_rfl hstart
        fun f hf => Store.means_chain_nil hf⟩
    · intro r' hr'
      rcases ResultSet.toList_insert_subset _ _ hr' with hr' | rfl
      · cases hr'
      · exact hmade.supports le_rfl hstart fun f hf =>
          Store.means_whole_manyStart hextends.sound hp hkind hf
  | option item =>
    simp only [hkind] at h
    injection h with h
    injection h with h ht
    subst ht
    obtain rfl := Task.turn_wait h.symm
    exact ⟨.refl hs, .option hp hkind, le_rfl, hstart⟩
  | thunk rule =>
    cases hbody : g.ruleBody? rule with
    | some body =>
      simp only [hkind, hbody] at h
      exact hwrapped (by simp [hkind, PatternKind.wrapped?, hbody]) h
    | none => simp [hkind, hbody] at h
  | indent child | group child | conditional child _ _ _ =>
    simp only [hkind] at h
    exact hwrapped (by rw [hkind]; rfl) h
  | literal _ | line _ =>
    simp only [hkind] at h
    exact hmark (by rw [hkind]; rfl) h

/-- A construct goes on with the results that it waits for. -/
theorem resume_ready {t u : Tables} {frame : Frame} {child : PatternId} {index : Nat}
    {results : List ResultId} (hs : t.store.Sound)
    (hwaits : t.store.Waits g tokens frame child index id start) (hle : start ≤ index)
    (hindex : index ≤ tokens.size)
    (hresults : ∀ r ∈ results, t.store.Supports g tokens (.whole child) index r)
    (h : resume frame results [] t = task.machine [] u) :
    ∃ s, t.store.Extends s ∧ u = { t with store := s } ∧ task.Ready g tokens s id start := by
  obtain ⟨store, memo, counts, cutoffs⟩ := t
  replace hs : store.Sound := hs
  replace hresults : ∀ r ∈ results, store.Supports g tokens (.whole child) index r := hresults
  have hknown : ∀ r ∈ results, store.Known r := fun r hr => (hresults r hr).known
  have hstart : start ≤ tokens.size := hle.trans hindex
  cases hwaits with
  | wrapped hp hkind =>
    rename_i wrapper p
    obtain ⟨made, s, hmade, hextends, hremade⟩ := wrapResult_remade wrapper hs hknown
    simp only [resume, hmade] at h
    obtain ⟨hturn, rfl⟩ := Task.of_machine h
    obtain rfl := Task.turn_give hturn.symm
    refine ⟨s, hextends, rfl, fun r hr => ?_⟩
    obtain ⟨r', hr', hremade⟩ := exists_of_forall₂_of_mem hremade hr
    exact ((hresults r' hr').mono hs hextends.grows).remade le_rfl hremade
      fun f f' stop hf' hmeans => Store.means_wrapped hextends.sound hp hkind hf' hmeans
  | option hp hkind =>
    obtain ⟨made, s, hmade, hextends, hremade⟩ := optionResults_remade .empty hs hknown
    obtain ⟨absent, s', hstored, hextends', habsent⟩ := hextends.sound.made .absent
      (by simp [Fragment.parts]) start
    simp only [resume, hmade, hstored] at h
    obtain ⟨hturn, rfl⟩ := Task.of_machine h
    obtain rfl := Task.turn_give hturn.symm
    refine ⟨s', hextends.trans hextends', rfl, fun r hr => ?_⟩
    rcases ResultSet.toList_insert_subset _ _ hr with hr | rfl
    · have hr := List.mem_of_mem_filter (ResultSet.toList_ofList_subset _ hr)
      obtain ⟨r', hr', hremade⟩ := exists_of_forall₂_of_mem hremade hr
      have hsupports := ((hresults r' hr').mono hs hextends.grows).remade le_rfl hremade
        fun f f' stop hf' hmeans => Store.means_present hextends.sound hp hkind hf' hmeans
      exact hsupports.mono hextends.sound hextends'.grows
    · exact habsent.supports le_rfl hstart fun f hf => Store.means_absent hp hkind hf
  | sequence hsequence =>
    rename_i frame
    obtain ⟨⟨p, before, hp, hkind, ⟨r, f, hmatched, hcurrent, hsupports⟩, hpending, hfollowing⟩,
      hfinished⟩ := hsequence
    obtain ⟨made, s, hmade, hextends, hremade⟩ := extendSequence_remade index frame.following hs
      (hs.exists_fragment hmatched) hknown
    simp only [resume, hcurrent, hmade] at h
    obtain ⟨hturn, rfl⟩ := Task.of_machine h
    have hbefore :=
      ((hsupports.mono hs hextends.grows).matched (hextends.grows.matched hmatched)).2.2
    refine ⟨s, hextends, rfl, nextSequence_ready hextends.sound hp frame.context hkind
      (fun r hr => (hpending r hr).mono hs hextends.grows) ?_
      (fun r hr => (hfinished r hr).mono hextends.grows) hturn⟩
    intro child later heq r hr
    cases heq
    rcases ResultSet.toList_insertAll_subset _ _ hr with hr | hr
    · exact (hfollowing r hr).mono hs hextends.grows
    · obtain ⟨r', hr', hremade⟩ := exists_of_forall₂_of_mem hremade hr
      refine ((hresults r' hr').mono hs hextends.grows).remade hle hremade
        fun f₁ f' stop hf' hmeans => ?_
      exact Store.means_first_append hextends.sound hf' hbefore hmeans
  | choice hready =>
    rename_i frame
    rcases hresume : resumeChoice frame results [] store with ⟨⟨control, frames⟩, s⟩
    simp only [resume, hresume] at h
    obtain ⟨hturn, rfl⟩ := Task.of_machine h
    rw [hturn] at hresume
    obtain ⟨hextends, hready⟩ := resumeChoice_ready hs hindex hready hresults hresume
    exact ⟨s, hextends, rfl, hready⟩
  | item hready hstate hmatched hafter =>
    rename_i frame state f
    obtain ⟨extended, s, hextend, hextends, hready⟩ :=
      extendMany_ready hs (.item hready hstate hmatched hafter) hle hresults
    simp only [resume, hextend] at h
    obtain ⟨hturn, rfl⟩ := Task.of_machine h
    exact ⟨s, hextends, rfl, nextMany_ready hready hturn⟩
  | separator hready hstate hmatched hafter hseparator =>
    rename_i frame state f
    obtain ⟨extended, s, hextend, hextends, hready⟩ :=
      extendMany_ready hs (.separator hready hstate hmatched hafter hseparator) hle hresults
    simp only [resume, hextend] at h
    obtain ⟨hturn, rfl⟩ := Task.of_machine h
    exact ⟨s, hextends, rfl, nextMany_ready hready hturn⟩

/-! ### What is remembered -/

theorem Tables.sound_empty : (Tables.empty : Tables).Sound g tokens where
  store := Store.sound_empty
  memo h := by simp [Tables.empty] at h

/-- A later store keeps what is remembered. -/
theorem Tables.Sound.withStore {t : Tables} (ht : t.Sound g tokens) (hs : s.Sound)
    (hgrows : t.store.Grows s) (counts : Std.TreeMap Site Nat) :
    ({ t with store := s, counts } : Tables).Sound g tokens where
  store := hs
  memo h other p hp hrecognizer r hr := (ht.memo h other p hp hrecognizer r hr).mono ht.store hgrows

/-- Patterns with the same recognizer are the same, or share a label. -/
theorem Store.Supports.of_recognizer_eq (hg : g.Closed) {other : PatternId} {q : Pattern}
    (hp : g.pattern? id = some p) (hq : g.pattern? other = some q)
    (heq : q.recognizer = p.recognizer) {r : ResultId}
    (h : s.Supports g tokens (.whole id) start r) : s.Supports g tokens (.whole other) start r := by
  obtain ⟨r', hr, hle, hstop, hmeans⟩ := h
  refine ⟨r', hr, hle, hstop, fun f hf => ⟨(hmeans f hf).spans, fun hl => ?_⟩⟩
  rw [hl.eq_of_recognizer_eq hg.id_eq hq hp heq]
  exact (hmeans f hf).holds hl

theorem record_memo (t : Tables) (site : Site) (results : List ResultId) :
    (t.record site results).memo =
      t.memo.insert site ((t.memo.getD site .empty).insertAll (successesOf t.store results)) :=
  rfl

theorem memo_record_self (t : Tables) (site : Site) (results : List ResultId) :
    (t.record site results).memo[site]? =
      some ((t.memo.getD site .empty).insertAll (successesOf t.store results)) := by
  rw [record_memo]
  simp

theorem memo_record_ne (t : Tables) {site other : Site} (h : other ≠ site)
    (results : List ResultId) : (t.record site results).memo[other]? = t.memo[other]? := by
  rw [record_memo, Std.TreeMap.getElem?_insert,
    if_neg fun hcmp => h (Std.LawfulEqCmp.eq_of_compare hcmp).symm]

theorem counts_record (t : Tables) (site : Site) (results : List ResultId) :
    (t.record site results).counts = t.counts := rfl

/-- Remembering the matches of a pattern under its site. -/
theorem Tables.Sound.record {t : Tables} (hg : g.Closed) (ht : t.Sound g tokens)
    (hp : g.pattern? id = some p) {results : List ResultId}
    (hresults : ∀ r ∈ results, t.store.Supports g tokens (.whole id) start r) :
    (t.record ⟨start, p.recognizer⟩ results).Sound g tokens where
  store := ht.store
  memo := by
    intro site set h other q hq hrecognizer r hr
    rw [record_memo, Std.TreeMap.getElem?_insert] at h
    split at h
    · rename_i hsite
      obtain rfl := Std.LawfulEqCmp.eq_of_compare hsite
      rw [← Option.some.inj h] at hr
      rcases ResultSet.toList_insertAll_subset _ _ hr with hr | hr
      · cases hmemo : t.memo[(⟨start, p.recognizer⟩ : Site)]? with
        | some known =>
          rw [Std.TreeMap.getD_eq_getD_getElem?, hmemo] at hr
          exact ht.memo hmemo other q hq hrecognizer r hr
        | none =>
          rw [Std.TreeMap.getD_eq_getD_getElem?, hmemo] at hr
          cases hr
      · exact (hresults r (List.mem_of_mem_filter hr)).of_recognizer_eq hg hp hq hrecognizer
    · exact ht.memo h other q hq hrecognizer r hr

theorem replay?_eq_some {t : Tables} {site : Site} {context : Context} {results : List ResultId}
    (h : t.replay? site context = some results) :
    ∃ known, t.memo[site]? = some known ∧ results = known.toList := by
  unfold Tables.replay? at h
  cases hmemo : t.memo[site]? with
  | none => simp [hmemo] at h
  | some known =>
    simp only [hmemo, Option.ite_none_right_eq_some, Option.some.injEq] at h
    exact ⟨known, rfl, h.2.symm⟩

/-- What a task gives are matches of its pattern from its position, or failures. -/
theorem Yields.supports (hg : g.Closed) {t u : Tables} {results : List ResultId}
    (h : Yields g (.ofTokens tokens) task t results u) (ht : t.Sound g tokens)
    (hready : task.Ready g tokens t.store id start) :
    u.Sound g tokens ∧ t.store.Grows u.store ∧
      ∀ r ∈ results, u.store.Supports g tokens (.whole id) start r := by
  induction h generalizing id start with
  | give results t => exact ⟨ht, .refl _, hready⟩
  | replay hp hreplay =>
    obtain ⟨rfl, rfl, -⟩ := hready
    obtain ⟨known, hmemo, rfl⟩ := replay?_eq_some hreplay
    exact ⟨ht, .refl _, ht.memo hmemo _ _ hp rfl⟩
  | @cutoff _ _ index _ t map _ _ hp hreplay hbounded hcount hmap hfailure =>
    obtain ⟨rfl, rfl, hindex⟩ := hready
    obtain ⟨r, s, k, hstored, hextends, -, hr⟩ :=
      ht.store.failure_eq .infiniteRecursion index map
    rw [hstored] at hfailure
    cases hfailure
    refine ⟨ht.withStore hextends.sound hextends.grows _, hextends.grows, fun r' hr' => ?_⟩
    rw [List.mem_singleton.1 hr']
    exact Store.Fails.supports le_rfl ⟨_, k, hr, rfl, le_rfl, hindex⟩ _
  | @evaluate _ p index context inner t _ store _ _ _ hp hreplay hcount henter hevaluate h ih =>
    obtain ⟨rfl, rfl, hindex⟩ := hready
    obtain ⟨hsound, hgrows, -⟩ := ht.store.enter context ⟨index, p.recognizer⟩
      (t.counts.getD ⟨index, p.recognizer⟩ 0 + 1)
    rw [henter] at hsound hgrows
    obtain ⟨hextends, hready⟩ := evaluate_ready hsound hp hindex (hevaluate [])
    have hgrows := hgrows.trans hextends.grows
    obtain ⟨hu, hgrows', hresults⟩ := ih (ht.withStore hextends.sound hgrows _) hready
    exact ⟨hu.record hg hp hresults, hgrows.trans hgrows', hresults⟩
  | wait h hresume h' ih ih' =>
    obtain ⟨hwaits, hle, hindex⟩ := hready
    obtain ⟨hu, hgrows, hresults⟩ := ih ht ⟨rfl, rfl, hindex⟩
    obtain ⟨s, hextends, rfl, hready⟩ :=
      resume_ready hu.store (hwaits.mono ht.store hgrows) hle hindex hresults (hresume [])
    obtain ⟨hw, hgrows', hresults'⟩ :=
      ih' (hu.withStore hextends.sound hextends.grows _) hready
    exact ⟨hw, hgrows.trans (hextends.grows.trans hgrows'), hresults'⟩

end

end ReversibleGrammar
