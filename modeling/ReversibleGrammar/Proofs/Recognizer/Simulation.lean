/-
Recognition sees the types of tokens only.

Two machines run side by side over token lists with the same types.  Their stores may share
fragments differently; all else is the same, step by step: the results have the same numbers, and
so have the sets of results, the contexts and what is remembered.

* `FramePaired`, `TurnPaired`, `Machine.Paired` — two machines at the same point, where each frame
  waits for results from one position and makes results from another;
* `resume_paired`, `step_paired` — one step keeps them together;
* `run_paired` — and so does a run, whether it ends, is given up or goes on.
-/
import ReversibleGrammar.Proofs.Recognizer.Pairing

namespace ReversibleGrammar

section

variable (input input' : Input) (s s' : Store)

/-- The states of a repetition and what it has found are matches from a position. -/
structure ManyTwin (start : Nat) (frame : ManyFrame) : Prop where
  states : ∀ state ∈ frame.front ++ frame.back, s.Twin input input' s' start state.result
  emitted : ∀ r ∈ frame.emitted.toList, s.Twin input input' s' start r

/-- The frames are the same but for a fragment; they wait for results from `index` and make results
from `start`. -/
inductive FramePaired : Frame → Frame → (index start : Nat) → Prop
  | complete (site : Site) : FramePaired (.complete site) (.complete site) site.index site.index
  | wrapped (wrapper : Wrapper) (i : Nat) : FramePaired (.wrapped wrapper) (.wrapped wrapper) i i
  | option (i : Nat) : FramePaired (.option i) (.option i) i i
  | sequence {frame : SequenceFrame} {f f' : FragmentId} {stop start : Nat}
      (hcurrent : frame.current = ⟨.success f, stop, emptyMap⟩)
      (halike : s.Alike input input' s' f f' start stop)
      (hpending : ∀ r ∈ frame.pending, s.Twin input input' s' start r)
      (hfollowing : ∀ r ∈ frame.following.toList, s.Twin input input' s' start r)
      (hfinished : ∀ r ∈ frame.finished.toList, s.Twin input input' s' start r) :
      FramePaired (.sequence frame)
        (.sequence { frame with current := ⟨.success f', stop, emptyMap⟩ }) stop start
  | choice {frame : ChoiceFrame}
      (hfound : ∀ r ∈ frame.found.toList, s.Twin input input' s' frame.position r) :
      FramePaired (.choice frame) (.choice frame) frame.position frame.position
  | many {frame : ManyFrame} {state : PartialMany} {start : Nat} (isSeparator : Bool)
      (hframe : ManyTwin input input' s s' start frame)
      (hstate : s.Twin input input' s' start state.result) :
      FramePaired (.many frame state isSeparator) (.many frame state isSeparator)
        (s.result state.result).stop start

/-- The frames are the same but for fragments; the first ones wait for results from a position, and
the last ones make results from the first position. -/
inductive FramesPaired : List Frame → List Frame → Nat → Prop
  | nil : FramesPaired [] [] 0
  | cons {frame frame' : Frame} {frames frames' : List Frame} {index start : Nat}
      (h : FramePaired input input' s s' frame frame' index start)
      (hrest : FramesPaired frames frames' start) :
      FramesPaired (frame :: frames) (frame' :: frames') index

/-- Two pieces of work leave their machines at the same point. -/
inductive TurnPaired : Turn → Turn → Prop
  | give {results : List ResultId} {frames frames' : List Frame} {i : Nat}
      (hframes : FramesPaired input input' s s' frames frames' i)
      (hresults : ∀ r ∈ results, s.Twin input input' s' i r) :
      TurnPaired (.give results, frames) (.give results, frames')
  | call {id : PatternId} {index : Nat} {context : Context} {frames frames' : List Frame}
      (hframes : FramesPaired input input' s s' frames frames' index) :
      TurnPaired (.call id index context, frames) (.call id index context, frames')

/-- The same is remembered, and under each site results from its position. -/
structure Tables.Paired (t t' : Tables) : Prop where
  store : t.store.Paired input input' t'.store
  memo : t.memo = t'.memo
  counts : t.counts = t'.counts
  cutoffs : t.cutoffs = t'.cutoffs
  twin : ∀ {site : Site} {results : ResultSet}, t.memo[site]? = some results →
    ∀ r ∈ results.toList, t.store.Twin input input' t'.store site.index r

/-- The machines are at the same point. -/
structure Machine.Paired (m m' : Machine) : Prop where
  turn : TurnPaired input input' m.tables.store m'.tables.store (m.control, m.frames)
    (m'.control, m'.frames)
  tables : m.tables.Paired input input' m'.tables

/-- The steps come to the same. -/
inductive Progress.Paired : Progress → Progress → Prop
  | running {m m' : Machine} (h : m.Paired input input' m') : Paired (.running m) (.running m')
  | finished {results : List ResultId} {t t' : Tables} (ht : t.Paired input input' t')
      (hresults : ∀ r ∈ results, t.store.Twin input input' t'.store 0 r) :
      Paired (.finished results t) (.finished results t')
  | faulted (fault : Fault) : Paired (.faulted fault) (.faulted fault)

end

variable {input input' : Input} {s s' t t' u u' : Store} {i j : Nat} {r : ResultId}

/-! ### Later stores -/

theorem ManyTwin.advance {start : Nat} {frame : ManyFrame}
    (h : ManyTwin input input' s s' start frame) (hstep : Store.Advance input input' s s' t t') :
    ManyTwin input input' t t' start frame :=
  ⟨fun state hstate => (h.states state hstate).advance hstep,
    fun r hr => (h.emitted r hr).advance hstep⟩

theorem Store.Twin.cases (h : s.Twin input input' s' i r) :
    (∃ f f' stop, s.Matched r f stop ∧ s'.Matched r f' stop ∧
      s.Alike input input' s' f f' i stop) ∨
    ∃ k stop map, s.result r = ⟨.failure k, stop, map⟩ ∧ s'.result r = ⟨.failure k, stop, map⟩ ∧
      ∀ j, s.Twin input input' s' j r := by
  rcases h with h | ⟨k, stop, map, hr, hr'⟩
  · exact .inl h
  · exact .inr ⟨k, stop, map, Store.result_eq hr, Store.result_eq hr',
      fun _ => .inr ⟨k, stop, map, hr, hr'⟩⟩

theorem Store.Twin.stop_eq (h : s.Twin input input' s' i r) :
    (s.result r).stop = (s'.result r).stop := by
  rcases h.cases with ⟨f, f', stop, hr, hr', -⟩ | ⟨k, stop, map, hr, hr', -⟩
  · rw [hr.result_eq, hr'.result_eq]
  · rw [hr, hr']

theorem Store.Grows.result_eq (hgrows : s.Grows t) (h : s.Known r) : t.result r = s.result r := by
  obtain ⟨x, hx⟩ := h
  rw [Store.result_eq hx, Store.result_eq (hgrows.results hx)]

theorem FramePaired.advance {frame frame' : Frame} {index start : Nat}
    (h : FramePaired input input' s s' frame frame' index start)
    (hstep : Store.Advance input input' s s' t t') :
    FramePaired input input' t t' frame frame' index start := by
  cases h with
  | complete site => exact .complete site
  | wrapped wrapper => exact .wrapped wrapper _
  | option => exact .option _
  | sequence hcurrent halike hpending hfollowing hfinished =>
    exact .sequence hcurrent (halike.mono hstep.grows hstep.grows')
      (fun r hr => (hpending r hr).advance hstep) (fun r hr => (hfollowing r hr).advance hstep)
      fun r hr => (hfinished r hr).advance hstep
  | choice hfound => exact .choice fun r hr => (hfound r hr).advance hstep
  | many isSeparator hframe hstate =>
    rw [← hstep.grows.result_eq hstate.known]
    exact .many isSeparator (hframe.advance hstep) (hstate.advance hstep)

theorem FramesPaired.advance {frames frames' : List Frame}
    (h : FramesPaired input input' s s' frames frames' i)
    (hstep : Store.Advance input input' s s' t t') :
    FramesPaired input input' t t' frames frames' i := by
  induction h with
  | nil => exact .nil
  | cons h _ ih => exact .cons (h.advance hstep) ih

/-! ### Single results -/

theorem matchToken_paired (h : s.Paired input input' s') (hsize : input.size = input'.size)
    {terminal : String} {index : Nat}
    (hsame : index < input.size → input.is index terminal = input'.is index terminal) :
    ∃ r t t', matchToken input terminal index s = (r, t) ∧
      matchToken input' terminal index s' = (r, t') ∧
      Store.Advance input input' s s' t t' ∧ t.Twin input input' t' index r := by
  unfold matchToken
  rw [← hsize]
  by_cases hlt : index < input.size
  · rw [if_pos hlt, if_pos hlt, ← hsame hlt]
    split
    · exact h.success hsize (by simp [Fragment.parts]) (by simp [Fragment.parts])
        fun _ _ hf hf' => .leaf hf hf' hlt
    · exact h.failure _ index emptyMap index
  · rw [if_neg hlt, if_neg hlt]
    exact h.failure _ index emptyMap index

/-- Both stores store a match without parts that holds no token. -/
theorem success_bare (h : s.Paired input input' s') (hsize : input.size = input'.size)
    (x : Fragment) (hleaf : x.isLeaf = false) (hparts : x.parts = []) (index : Nat) :
    ∃ r t t', Store.success x index emptyMap s = (r, t) ∧
      Store.success x index emptyMap s' = (r, t') ∧
      Store.Advance input input' s s' t t' ∧ t.Twin input input' t' index r :=
  h.success hsize (by simp [hparts]) (by simp [hparts])
    fun _ _ hf hf' => .bare index hf hf' hleaf hparts

/-- Both stores store a match around one part. -/
theorem success_one (h : s.Paired input input' s') (hsize : input.size = input'.size)
    (make : FragmentId → Fragment) (hparts : ∀ f, (make f).parts = [f])
    (hmake : ∀ f f', (make f).skeleton = (make f').skeleton) {f f' : FragmentId}
    (halike : s.Alike input input' s' f f' i j) :
    ∃ r t t', Store.success (make f) j emptyMap s = (r, t) ∧
      Store.success (make f') j emptyMap s' = (r, t') ∧
      Store.Advance input input' s s' t t' ∧ t.Twin input input' t' i r := by
  refine h.success hsize ?_ ?_ fun hgrows hgrows' hnew hnew' =>
    .one hnew hnew' (hmake f f') (hparts f) (hparts f') (halike.mono hgrows hgrows')
  · rw [hparts]
    exact List.forall_mem_singleton.2 halike.exists_fragment.1
  · rw [hparts]
    exact List.forall_mem_singleton.2 halike.exists_fragment.2

/-- Both stores store a match with one part more. -/
theorem success_two (h : s.Paired input input' s') (hsize : input.size = input'.size)
    (make : FragmentId → FragmentId → Fragment) (hparts : ∀ f g, (make f g).parts = [f, g])
    (hmake : ∀ f g f' g', (make f g).skeleton = (make f' g').skeleton) {f f' g g' : FragmentId}
    {k : Nat} (halike : s.Alike input input' s' f f' i j)
    (halike' : s.Alike input input' s' g g' j k) :
    ∃ r t t', Store.success (make f g) k emptyMap s = (r, t) ∧
      Store.success (make f' g') k emptyMap s' = (r, t') ∧
      Store.Advance input input' s s' t t' ∧ t.Twin input input' t' i r := by
  refine h.success hsize ?_ ?_ fun hgrows hgrows' hnew hnew' =>
    .two hnew hnew' (hmake f g f' g') (hparts f g) (hparts f' g') (halike.mono hgrows hgrows')
      (halike'.mono hgrows hgrows')
  · rw [hparts]
    exact List.forall_mem_cons.2
      ⟨halike.exists_fragment.1, List.forall_mem_singleton.2 halike'.exists_fragment.1⟩
  · rw [hparts]
    exact List.forall_mem_cons.2
      ⟨halike.exists_fragment.2, List.forall_mem_singleton.2 halike'.exists_fragment.2⟩

theorem wrapResult_paired (h : s.Paired input input' s') (hsize : input.size = input'.size)
    (wrapper : Wrapper) (hr : s.Twin input input' s' i r) :
    ∃ r' t t', wrapResult wrapper r s = (r', t) ∧ wrapResult wrapper r s' = (r', t') ∧
      Store.Advance input input' s s' t t' ∧ t.Twin input input' t' i r' := by
  unfold wrapResult
  rcases hr.cases with ⟨f, f', stop, hm, hm', halike⟩ | ⟨k, stop, map, hm, hm', -⟩
  · simp only [hm.result_eq, hm'.result_eq]
    exact success_one h hsize (.wrapped wrapper) (fun _ => rfl) (fun _ _ => rfl) halike
  · simp only [hm, hm']
    exact ⟨r, s, s', rfl, rfl, h.refl_advance, hr⟩

theorem wrapResults_paired (h : s.Paired input input' s') (hsize : input.size = input'.size)
    (wrapper : Wrapper) {ids : List ResultId} (hids : ∀ r ∈ ids, s.Twin input input' s' i r) :
    ∃ made t t', ids.mapM (wrapResult wrapper) s = (made, t) ∧
      ids.mapM (wrapResult wrapper) s' = (made, t') ∧
      Store.Advance input input' s s' t t' ∧ ∀ r ∈ made, t.Twin input input' t' i r := by
  induction ids generalizing s s' with
  | nil => exact ⟨[], s, s', rfl, rfl, h.refl_advance, List.forall_mem_nil _⟩
  | cons id ids ih =>
    obtain ⟨r, t, t', hr, hr', hstep, htwin⟩ :=
      wrapResult_paired h hsize wrapper (hids id List.mem_cons_self)
    obtain ⟨made, u, u', hmade, hmade', hstep', htwins⟩ := ih hstep.paired
      fun r hr => (hids r (List.mem_cons_of_mem id hr)).advance hstep
    refine ⟨r :: made, u, u', ?_, ?_, hstep.trans hstep',
      List.forall_mem_cons.2 ⟨htwin.advance hstep', htwins⟩⟩
    · rw [List.mapM_cons]
      simp only [bind, StateT.bind, hr, hmade, pure, StateT.pure]
    · rw [List.mapM_cons]
      simp only [bind, StateT.bind, hr', hmade', pure, StateT.pure]

theorem optionResults_paired (h : s.Paired input input' s') (hsize : input.size = input'.size)
    {ids : List ResultId} (hids : ∀ r ∈ ids, s.Twin input input' s' i r) (out : ResultSet)
    (hout : ∀ r ∈ out.toList, s.Twin input input' s' i r) :
    ∃ made t t', optionResults ids out s = (made, t) ∧ optionResults ids out s' = (made, t') ∧
      Store.Advance input input' s s' t t' ∧ ∀ r ∈ made.toList, t.Twin input input' t' i r := by
  induction ids generalizing s s' out with
  | nil => exact ⟨out, s, s', rfl, rfl, h.refl_advance, hout⟩
  | cons id ids ih =>
    have hrest : ∀ r ∈ ids, s.Twin input input' s' i r :=
      fun r hr => hids r (List.mem_cons_of_mem id hr)
    unfold optionResults
    rcases (hids id List.mem_cons_self).cases with ⟨f, f', stop, hm, hm', halike⟩ |
      ⟨k, stop, map, hm, hm', -⟩
    · obtain ⟨r, t, t', hr, hr', hstep, htwin⟩ :=
        success_one h hsize .present (fun _ => rfl) (fun _ _ => rfl) halike
      simp only [hm.result_eq, hm'.result_eq, hr, hr']
      obtain ⟨made, u, u', hmade, hmade', hstep', htwins⟩ := ih hstep.paired
        (fun r hr => (hrest r hr).advance hstep) (out.insert r) (fun r' hr' => by
          rcases ResultSet.toList_insert_subset _ _ hr' with hr' | rfl
          · exact (hout r' hr').advance hstep
          · exact htwin)
      exact ⟨made, u, u', hmade, hmade', hstep.trans hstep', htwins⟩
    · simp only [hm, hm']
      exact ih h hrest out hout

/-! ### Sequences -/

/-- Both take the same match of a list, or none. -/
theorem takeSuccess_paired {ids : List ResultId} (hids : ∀ r ∈ ids, s.Twin input input' s' i r)
    {finished : ResultSet} (hfinished : ∀ r ∈ finished.toList, s.Twin input input' s' i r) :
    ∃ finished', (∀ r ∈ finished'.toList, s.Twin input input' s' i r) ∧
      (takeSuccess s finished ids = (finished', none) ∧
          takeSuccess s' finished ids = (finished', none) ∨
        ∃ f f' stop rest, (∀ r ∈ rest, s.Twin input input' s' i r) ∧
          s.Alike input input' s' f f' i stop ∧
          takeSuccess s finished ids =
            (finished', some (⟨.success f, stop, emptyMap⟩, rest)) ∧
          takeSuccess s' finished ids =
            (finished', some (⟨.success f', stop, emptyMap⟩, rest))) := by
  induction ids generalizing finished with
  | nil => exact ⟨finished, hfinished, .inl ⟨rfl, rfl⟩⟩
  | cons id ids ih =>
    have hrest : ∀ r ∈ ids, s.Twin input input' s' i r :=
      fun r hr => hids r (List.mem_cons_of_mem id hr)
    have hid := hids id List.mem_cons_self
    unfold takeSuccess
    rcases hid.cases with ⟨f, f', stop, hm, hm', halike⟩ | ⟨k, stop, map, hm, hm', -⟩
    · refine ⟨finished, hfinished, .inr ⟨f, f', stop, ids, hrest, halike, ?_, ?_⟩⟩
      · simp only [hm.result_eq]
      · simp only [hm'.result_eq]
    · simp only [hm, hm']
      refine ih hrest fun r hr => ?_
      rcases ResultSet.toList_insert_subset _ _ hr with hr | rfl
      · exact hfinished r hr
      · exact hid

theorem nextSequence_paired (context : Context) {frames frames' : List Frame}
    (hframes : FramesPaired input input' s s' frames frames' i) {children : List PatternId}
    {pending : List ResultId} {following finished : ResultSet}
    (hpending : ∀ r ∈ pending, s.Twin input input' s' i r)
    (hfollowing : ∀ r ∈ following.toList, s.Twin input input' s' i r)
    (hfinished : ∀ r ∈ finished.toList, s.Twin input input' s' i r) :
    TurnPaired input input' s s' (nextSequence context frames children pending following finished s)
      (nextSequence context frames' children pending following finished s') := by
  induction children generalizing pending following finished with
  | nil =>
    refine .give hframes fun r hr => ?_
    rcases ResultSet.toList_insertAll_subset _ _ hr with hr | hr
    · exact hpending r (ResultSet.toList_ofList_subset _ hr)
    · exact hfinished r hr
  | cons child later ih =>
    unfold nextSequence
    obtain ⟨finished', hfinished', ⟨h, h'⟩ | ⟨f, f', stop, rest, hrest, halike, h, h'⟩⟩ :=
      takeSuccess_paired hpending hfinished
    · simp only [h, h']
      exact ih hfollowing (List.forall_mem_nil _) hfinished'
    · simp only [h, h']
      exact .call (.cons (.sequence rfl halike hrest hfollowing hfinished') hframes)

theorem extendSequence_paired (h : s.Paired input input' s') (hsize : input.size = input'.size)
    {f f' : FragmentId} {stop : Nat} (halike : s.Alike input input' s' f f' i stop)
    {ids : List ResultId} (hids : ∀ r ∈ ids, s.Twin input input' s' stop r)
    (following : ResultSet) (hfollowing : ∀ r ∈ following.toList, s.Twin input input' s' i r) :
    ∃ made t t', extendSequence ⟨.success f, stop, emptyMap⟩ ids following s = (made, t) ∧
      extendSequence ⟨.success f', stop, emptyMap⟩ ids following s' = (made, t') ∧
      Store.Advance input input' s s' t t' ∧ ∀ r ∈ made.toList, t.Twin input input' t' i r := by
  induction ids generalizing s s' following with
  | nil => exact ⟨following, s, s', rfl, rfl, h.refl_advance, hfollowing⟩
  | cons id ids ih =>
    have hrest : ∀ r ∈ ids, s.Twin input input' s' stop r :=
      fun r hr => hids r (List.mem_cons_of_mem id hr)
    unfold extendSequence
    rcases (hids id List.mem_cons_self).cases with ⟨g, g', last, hm, hm', hlast⟩ |
      ⟨k, last, map, hm, hm', hfailed⟩
    · obtain ⟨r, t, t', hr, hr', hstep, htwin⟩ := success_two h hsize .sequenceStep
        (fun _ _ => rfl) (fun _ _ _ _ => rfl) halike hlast
      simp only [hm.result_eq, hm'.result_eq, Store.mergeMaps_empty, hr, hr']
      obtain ⟨made, u, u', hmade, hmade', hstep', htwins⟩ := ih hstep.paired
        (halike.mono hstep.grows hstep.grows') (fun r hr => (hrest r hr).advance hstep)
        (following.insert r) (fun r' hr' => by
          rcases ResultSet.toList_insert_subset _ _ hr' with hr' | rfl
          · exact (hfollowing r' hr').advance hstep
          · exact htwin)
      exact ⟨made, u, u', hmade, hmade', hstep.trans hstep', htwins⟩
    · simp only [hm, hm']
      refine ih h halike hrest (following.insert id) fun r hr => ?_
      rcases ResultSet.toList_insert_subset _ _ hr with hr | rfl
      · exact hfollowing r hr
      · exact hfailed i

/-! ### Choices -/

theorem nextChoice_paired (h : s.Paired input input' s') (frame : ChoiceFrame)
    {frames frames' : List Frame}
    (hframes : FramesPaired input input' s s' frames frames' frame.position)
    (hfound : ∀ r ∈ frame.found.toList, s.Twin input input' s' frame.position r)
    (next : List PatternId) :
    ∃ turn turn' t t', nextChoice frame frames next s = (turn, t) ∧
      nextChoice frame frames' next s' = (turn', t') ∧ Store.Advance input input' s s' t t' ∧
      TurnPaired input input' t t' turn turn' := by
  cases next with
  | cons alternative later =>
    refine ⟨_, _, s, s', rfl, rfl, h.refl_advance, .call (.cons ?_ hframes)⟩
    exact FramePaired.choice hfound
  | nil =>
    simp only [nextChoice]
    split
    · rename_i label _ _
      obtain ⟨r, t, t', hr, hr', hstep, htwin⟩ :=
        h.failure (.alternativeFailed label) frame.position emptyMap frame.position
      simp only [hr, hr']
      refine ⟨_, _, t, t', rfl, rfl, hstep, .give (hframes.advance hstep) fun r' hr' => ?_⟩
      rcases ResultSet.toList_insert_subset _ _ hr' with hr' | rfl
      · exact (hfound r' hr').advance hstep
      · exact htwin
    · exact ⟨_, _, s, s', rfl, rfl, h.refl_advance, .give hframes hfound⟩

theorem choiceResults_paired (h : s.Paired input input' s') (hsize : input.size = input'.size)
    (index : Nat) {ids : List ResultId} (hids : ∀ r ∈ ids, s.Twin input input' s' i r)
    (successes failures : ResultSet)
    (hsuccesses : ∀ r ∈ successes.toList, s.Twin input input' s' i r)
    (hfailures : ∀ r ∈ failures.toList, s.Twin input input' s' i r) :
    ∃ made t t', choiceResults index ids successes failures s = (made, t) ∧
      choiceResults index ids successes failures s' = (made, t') ∧
      Store.Advance input input' s s' t t' ∧
      (∀ r ∈ made.1.toList, t.Twin input input' t' i r) ∧
      ∀ r ∈ made.2.toList, t.Twin input input' t' i r := by
  induction ids generalizing s s' successes failures with
  | nil => exact ⟨_, s, s', rfl, rfl, h.refl_advance, hsuccesses, hfailures⟩
  | cons id ids ih =>
    have hid := hids id List.mem_cons_self
    have hrest : ∀ r ∈ ids, s.Twin input input' s' i r :=
      fun r hr => hids r (List.mem_cons_of_mem id hr)
    unfold choiceResults
    rcases hid.cases with ⟨f, f', stop, hm, hm', halike⟩ | ⟨k, stop, map, hm, hm', -⟩
    · obtain ⟨r, t, t', hr, hr', hstep, htwin⟩ := success_one h hsize (.choice index)
        (fun _ => rfl) (fun _ _ => rfl) halike
      simp only [hm.result_eq, hm'.result_eq, hr, hr']
      obtain ⟨made, u, u', hmade, hmade', hstep', htwins⟩ := ih hstep.paired
        (fun r hr => (hrest r hr).advance hstep) (successes.insert r) failures
        (fun r' hr' => by
          rcases ResultSet.toList_insert_subset _ _ hr' with hr' | rfl
          · exact (hsuccesses r' hr').advance hstep
          · exact htwin)
        fun r hr => (hfailures r hr).advance hstep
      exact ⟨made, u, u', hmade, hmade', hstep.trans hstep', htwins⟩
    · simp only [hm, hm']
      refine ih h hrest successes (failures.insert id) hsuccesses fun r hr => ?_
      rcases ResultSet.toList_insert_subset _ _ hr with hr | rfl
      · exact hfailures r hr
      · exact hid

theorem resumeChoice_paired (h : s.Paired input input' s') (hsize : input.size = input'.size)
    {frame : ChoiceFrame} {frames frames' : List Frame}
    (hframes : FramesPaired input input' s s' frames frames' frame.position)
    (hfound : ∀ r ∈ frame.found.toList, s.Twin input input' s' frame.position r)
    {results : List ResultId}
    (hresults : ∀ r ∈ results, s.Twin input input' s' frame.position r) :
    ∃ turn turn' t t', resumeChoice frame results frames s = (turn, t) ∧
      resumeChoice frame results frames' s' = (turn', t') ∧ Store.Advance input input' s s' t t' ∧
      TurnPaired input input' t t' turn turn' := by
  obtain ⟨⟨successes, failures⟩, t, t', hmade, hmade', hstep, hsuccesses, hfailures⟩ :=
    choiceResults_paired h hsize frame.index hresults .empty .empty
      (List.forall_mem_nil _) (List.forall_mem_nil _)
  unfold resumeChoice
  simp only [hmade, hmade']
  split
  · exact ⟨_, _, t, t', rfl, rfl, hstep, .give (hframes.advance hstep) hsuccesses⟩
  · obtain ⟨turn, turn', u, u', hturn, hturn', hstep', hpaired⟩ := nextChoice_paired hstep.paired
      ({ frame with
        index := frame.index + 1
        found := (frame.found.insertAll successes.toList).insertAll failures.toList
        matched := frame.matched || !successes.isEmpty })
      (hframes.advance hstep) (fun r hr => by
        rcases ResultSet.toList_insertAll_subset _ _ hr with hr | hr
        · rcases ResultSet.toList_insertAll_subset _ _ hr with hr | hr
          · exact (hfound r hr).advance hstep
          · exact hsuccesses r hr
        · exact hfailures r hr) frame.later
    exact ⟨turn, turn', u, u', hturn, hturn', hstep.trans hstep', hpaired⟩

/-! ### Repetitions -/

theorem callMany_paired {frame : ManyFrame} {state : PartialMany}
    (hframe : ManyTwin input input' s s' i frame)
    (hstate : s.Twin input input' s' i state.result) {frames frames' : List Frame}
    (hframes : FramesPaired input input' s s' frames frames' i) :
    TurnPaired input input' s s' (callMany frame state frames s)
      (callMany frame state frames' s') := by
  unfold callMany
  rw [← hstate.stop_eq]
  split
  · exact .call (.cons (.many true hframe hstate) hframes)
  · exact .call (.cons (.many false hframe hstate) hframes)

theorem nextMany_paired {frame : ManyFrame} (hframe : ManyTwin input input' s s' i frame)
    {frames frames' : List Frame} (hframes : FramesPaired input input' s s' frames frames' i) :
    TurnPaired input input' s s' (nextMany frame frames s) (nextMany frame frames' s') := by
  obtain ⟨hstates, hemitted⟩ := hframe
  unfold nextMany
  split
  · rename_i state front hfront
    rw [hfront] at hstates
    have hrest : ManyTwin input input' s s' i { frame with front } :=
      ⟨fun other hother => hstates other (List.mem_cons_of_mem state hother), hemitted⟩
    exact callMany_paired hrest (hstates state List.mem_cons_self) hframes
  · split
    · rename_i state front hback
      have hmem : ∀ other ∈ state :: front, s.Twin input input' s' i other.result := by
        intro other hother
        rw [← hback, List.mem_reverse] at hother
        exact hstates other (List.mem_append_right _ hother)
      have hrest : ManyTwin input input' s s' i { frame with front, back := [] } := by
        refine ⟨fun other hother => ?_, hemitted⟩
        rw [List.append_nil] at hother
        exact hmem other (List.mem_cons_of_mem state hother)
      exact callMany_paired hrest (hmem state List.mem_cons_self) hframes
    · exact .give hframes fun r hr => hemitted r (List.mem_reverse.1 hr)

theorem ManyTwin.emit {frame : ManyFrame} (h : ManyTwin input input' s s' i frame)
    (hr : s.Twin input input' s' i r) (stop : Nat) :
    ManyTwin input input' s s' i (emitMany frame r stop) := by
  unfold emitMany
  split
  · exact h
  · refine ⟨fun state hstate => ?_, fun r' hr' => ?_⟩
    · rcases List.mem_append.1 hstate with hstate | hstate
      · exact h.states state (List.mem_append_left _ hstate)
      · rcases List.mem_cons.1 hstate with rfl | hstate
        · exact hr
        · exact h.states state (List.mem_append_right _ hstate)
    · rcases ResultSet.toList_insert_subset _ _ hr' with hr' | rfl
      · exact h.emitted r' hr'
      · exact hr

theorem ManyTwin.separate {frame : ManyFrame} (h : ManyTwin input input' s s' i frame)
    (hr : s.Twin input input' s' i r) (mark : Nat) :
    ManyTwin input input' s s' i (separateMany frame r mark) := by
  unfold separateMany
  split
  · exact h
  · refine ⟨fun state hstate => ?_, h.emitted⟩
    rcases List.mem_append.1 hstate with hstate | hstate
    · exact h.states state (List.mem_append_left _ hstate)
    · rcases List.mem_cons.1 hstate with rfl | hstate
      · exact hr
      · exact h.states state (List.mem_append_right _ hstate)

theorem extendMany_paired (h : s.Paired input input' s') (hsize : input.size = input'.size)
    {state : PartialMany} (hstate : s.Twin input input' s' i state.result) (isSeparator : Bool)
    {ids : List ResultId}
    (hids : ∀ r ∈ ids, s.Twin input input' s' (s.result state.result).stop r)
    {frame : ManyFrame} (hframe : ManyTwin input input' s s' i frame) :
    ∃ extended t t',
      extendMany (s.result state.result) state.mark isSeparator ids frame s = (extended, t) ∧
      extendMany (s'.result state.result) state.mark isSeparator ids frame s' = (extended, t') ∧
      Store.Advance input input' s s' t t' ∧ ManyTwin input input' t t' i extended := by
  -- a state that is a failure is not extended
  rcases hstate.cases with ⟨f, f', stop, hm, hm', halike⟩ | ⟨k, stop, map, hm, hm', -⟩
  · rw [hm.result_eq] at hids ⊢
    rw [hm'.result_eq]
    clear hm hm'
    induction ids generalizing s s' frame with
    | nil => exact ⟨frame, s, s', rfl, rfl, h.refl_advance, hframe⟩
    | cons id ids ih =>
      have hrest : ∀ r ∈ ids, s.Twin input input' s' stop r :=
        fun r hr => hids r (List.mem_cons_of_mem id hr)
      unfold extendMany
      rcases (hids id List.mem_cons_self).cases with ⟨g, g', last, hg, hg', hlast⟩ |
        ⟨k, last, map, hg, hg', -⟩
      · simp only [hg.result_eq, hg'.result_eq, Store.mergeMaps_empty]
        split
        · exact ih h hstate hframe hrest halike
        · obtain ⟨r, t, t', hr, hr', hstep, htwin⟩ := success_two h hsize
            (Fragment.manyStep isSeparator) (by cases isSeparator <;> exact fun _ _ => rfl)
            (by cases isSeparator <;> exact fun _ _ _ _ => rfl) halike hlast
          have hadded : ManyTwin input input' t t' i
              (if isSeparator then separateMany frame r state.mark else emitMany frame r last) := by
            split
            · exact (hframe.advance hstep).separate htwin _
            · exact (hframe.advance hstep).emit htwin _
          unfold Fragment.manyStep at hr hr'
          simp only [hr, hr']
          obtain ⟨extended, u, u', hextend, hextend', hstep', hmany⟩ := ih hstep.paired
            (hstate.advance hstep) hadded (fun r hr => (hrest r hr).advance hstep)
            (halike.mono hstep.grows hstep.grows')
          exact ⟨extended, u, u', hextend, hextend', hstep.trans hstep', hmany⟩
      · simp only [hg, hg']
        exact ih h hstate hframe hrest halike
  · rw [hm, hm']
    have hsame (s : Store) (frame : ManyFrame) :
        extendMany ⟨.failure k, stop, map⟩ state.mark isSeparator ids frame s = (frame, s) := by
      induction ids with
      | nil => rfl
      | cons id ids ih =>
        unfold extendMany
        exact ih fun r hr => hids r (List.mem_cons_of_mem id hr)
    exact ⟨frame, s, s', hsame s frame, hsame s' frame, h.refl_advance, hframe⟩

/-! ### What is remembered -/

/-- Cut-offs and matches among results that both stores have are the same. -/
theorem lastCutoff?_paired (h : s.Paired input input' s') {ids : List ResultId}
    (hids : ∀ r ∈ ids, s.Twin input input' s' i r) : lastCutoff? s ids = lastCutoff? s' ids := by
  unfold lastCutoff?
  refine List.foldl_ext _ _ _ fun last id hid => ?_
  rcases (hids id hid).cases with ⟨f, f', stop, hm, hm', -⟩ | ⟨k, stop, map, hm, hm', -⟩
  · simp only [hm.result_eq, hm'.result_eq]
  · simp only [hm, hm', Store.failureKind, h.failures]

theorem successesOf_paired {ids : List ResultId}
    (hids : ∀ r ∈ ids, s.Twin input input' s' i r) : successesOf s ids = successesOf s' ids := by
  refine List.filter_congr fun id hid => ?_
  rcases (hids id hid).cases with ⟨f, f', stop, hm, hm', -⟩ | ⟨k, stop, map, hm, hm', -⟩
  · rw [hm.result_eq, hm'.result_eq]
  · rw [hm, hm']

/-- The tables of a later store. -/
theorem Tables.Paired.advance {t t' : Tables} (h : t.Paired input input' t')
    (hstep : Store.Advance input input' t.store t'.store u u') (counts : Std.TreeMap Site Nat) :
    ({ t with store := u, counts } : Tables).Paired input input'
      { t' with store := u', counts } where
  store := hstep.paired
  memo := h.memo
  counts := rfl
  cutoffs := h.cutoffs
  twin hmemo r hr := (h.twin hmemo r hr).advance hstep

theorem Tables.Paired.record {t t' : Tables} (h : t.Paired input input' t') (site : Site)
    {results : List ResultId}
    (hresults : ∀ r ∈ results, t.store.Twin input input' t'.store site.index r) :
    (t.record site results).Paired input input' (t'.record site results) where
  store := h.store
  memo := by
    simp only [Tables.record, ← h.memo, successesOf_paired hresults]
  counts := h.counts
  cutoffs := by
    simp only [Tables.record, ← h.cutoffs, lastCutoff?_paired h.store hresults]
  twin := by
    intro other set hset r hr
    simp only [Tables.record] at hset
    rw [Std.TreeMap.getElem?_insert] at hset
    split at hset
    · rename_i hsite
      obtain rfl := Std.LawfulEqCmp.eq_of_compare hsite
      rw [← Option.some.inj hset] at hr
      rcases ResultSet.toList_insertAll_subset _ _ hr with hr | hr
      · rw [Std.TreeMap.getD_eq_getD_getElem?] at hr
        cases hmemo : t.memo[site]? with
        | some known =>
          rw [hmemo] at hr
          exact h.twin hmemo r hr
        | none =>
          rw [hmemo] at hr
          cases hr
      · exact hresults r (List.mem_of_mem_filter hr)
    · exact h.twin hset r hr

theorem replay?_paired {t t' : Tables} (h : t.Paired input input' t') (site : Site)
    (context : Context) : t.replay? site context = t'.replay? site context := by
  unfold Tables.replay?
  simp only [← h.memo, ← h.cutoffs, Store.map, h.store.maps]

/-! ### Steps -/

/-- A construct goes on with results that both stores have. -/
theorem resume_paired (hsize : input.size = input'.size) {t t' : Tables}
    (ht : t.Paired input input' t') {frame frame' : Frame} {index start : Nat}
    (hframe : FramePaired input input' t.store t'.store frame frame' index start)
    {frames frames' : List Frame}
    (hframes : FramesPaired input input' t.store t'.store frames frames' start)
    {results : List ResultId}
    (hresults : ∀ r ∈ results, t.store.Twin input input' t'.store index r) :
    (resume frame results frames t).Paired input input' (resume frame' results frames' t') := by
  obtain ⟨store, memo, counts, cutoffs⟩ := t
  obtain ⟨store', memo', counts', cutoffs'⟩ := t'
  have hstore : store.Paired input input' store' := ht.store
  have hcounts : counts = counts' := ht.counts
  replace hresults : ∀ r ∈ results, store.Twin input input' store' index r := hresults
  replace hframes : FramesPaired input input' store store' frames frames' start := hframes
  -- the construct leaves later stores and turns to the same
  have hturn {turn turn' : Turn} {u u' : Store}
      (hstep : Store.Advance input input' store store' u u')
      (hpaired : TurnPaired input input' u u' turn turn') :
      Machine.Paired input input' ⟨turn.1, turn.2, ⟨u, memo, counts, cutoffs⟩⟩
        ⟨turn'.1, turn'.2, ⟨u', memo', counts', cutoffs'⟩⟩ :=
    ⟨hpaired, hcounts ▸ ht.advance hstep counts⟩
  cases hframe with
  | complete site => exact ⟨.give hframes hresults, ht.record site hresults⟩
  | wrapped wrapper =>
    obtain ⟨made, u, u', hmade, hmade', hstep, htwins⟩ :=
      wrapResults_paired hstore hsize wrapper hresults
    simp only [resume, hmade, hmade']
    exact hturn hstep (.give (hframes.advance hstep) htwins)
  | option =>
    obtain ⟨made, u, u', hmade, hmade', hstep, htwins⟩ :=
      optionResults_paired hstore hsize hresults .empty (List.forall_mem_nil _)
    obtain ⟨r, v, v', hr, hr', hstep', htwin⟩ :=
      success_bare hstep.paired hsize .absent rfl rfl index
    simp only [resume, hmade, hmade', hr, hr']
    refine hturn (hstep.trans hstep') (.give (hframes.advance (hstep.trans hstep'))
      fun r' hr' => ?_)
    rcases ResultSet.toList_insert_subset _ _ hr' with hr' | rfl
    · exact (htwins r' hr').advance hstep'
    · exact htwin
  | @sequence frame f f' _ _ hcurrent halike hpending hfollowing hfinished =>
    replace halike : store.Alike input input' store' f f' start index := halike
    obtain ⟨made, u, u', hmade, hmade', hstep, htwins⟩ :=
      extendSequence_paired hstore hsize halike hresults frame.following hfollowing
    simp only [resume, hcurrent, hmade, hmade']
    exact hturn hstep (nextSequence_paired frame.context (hframes.advance hstep)
      (fun r hr => (hpending r hr).advance hstep) htwins
      fun r hr => (hfinished r hr).advance hstep)
  | choice hfound =>
    obtain ⟨turn, turn', u, u', hresume, hresume', hstep, hpaired⟩ :=
      resumeChoice_paired hstore hsize hframes hfound hresults
    simp only [resume, hresume, hresume']
    exact hturn hstep hpaired
  | @many frame state _ isSeparator hframe hstate =>
    obtain ⟨extended, u, u', hextend, hextend', hstep, hmany⟩ :=
      extendMany_paired hstore hsize hstate isSeparator hresults hframe
    simp only [resume, hextend, hextend']
    exact hturn hstep (nextMany_paired hmany (hframes.advance hstep))

/-- Both start to match a pattern, or give up for the same reason. -/
theorem evaluate_paired (hsize : input.size = input'.size) (g : Grammar) {p : Pattern}
    {index : Nat} (hsame : ∀ terminal, p.kind = .consume terminal → index < input.size →
      input.is index terminal = input'.is index terminal)
    (context : Context) (h : s.Paired input input' s') {frames frames' : List Frame}
    (hframes : FramesPaired input input' s s' frames frames' index) :
    (∃ turn turn' t t', evaluate g input p index context frames s = .ok (turn, t) ∧
      evaluate g input' p index context frames' s' = .ok (turn', t') ∧
      Store.Advance input input' s s' t t' ∧ TurnPaired input input' t t' turn turn') ∨
    ∃ fault, evaluate g input p index context frames s = .error fault ∧
      evaluate g input' p index context frames' s' = .error fault := by
  have hwrapped {wrapper : Wrapper} (child : PatternId) :
      TurnPaired input input' s s' (.call child index context, .wrapped wrapper :: frames)
        (.call child index context, .wrapped wrapper :: frames') :=
    .call (.cons (.wrapped wrapper index) hframes)
  unfold evaluate
  cases hkind : p.kind with
  | consume terminal =>
    obtain ⟨r, t, t', hr, hr', hstep, htwin⟩ :=
      matchToken_paired h hsize (hsame terminal hkind)
    simp only [hr, hr']
    exact .inl ⟨_, _, t, t', rfl, rfl, hstep,
      .give (hframes.advance hstep) (List.forall_mem_singleton.2 htwin)⟩
  | sequence children =>
    obtain ⟨r, t, t', hr, hr', hstep, htwin⟩ := success_bare h hsize .sequenceStart rfl rfl index
    simp only [hr, hr']
    exact .inl ⟨_, _, t, t', rfl, rfl, hstep, nextSequence_paired context (hframes.advance hstep)
      (List.forall_mem_singleton.2 htwin) (List.forall_mem_nil _) (List.forall_mem_nil _)⟩
  | choice alternatives mode names =>
    obtain ⟨turn, turn', t, t', hnext, hnext', hstep, hpaired⟩ := nextChoice_paired h
      ({ context, position := index, mode, label := p.label.bind g.labelText?,
                  index := 0, later := [], found := .empty, matched := false })
      hframes (List.forall_mem_nil _) alternatives
    exact .inl ⟨turn, turn', t, t', congrArg _ hnext, congrArg _ hnext', hstep, hpaired⟩
  | many item separator =>
    obtain ⟨r, t, t', hr, hr', hstep, htwin⟩ := success_bare h hsize .manyStart rfl rfl index
    simp only [startMany, hr, hr']
    refine .inl ⟨_, _, t, t', rfl, rfl, hstep, nextMany_paired ⟨fun state hstate => ?_,
      fun r' hr' => ?_⟩ (hframes.advance hstep)⟩
    · rw [List.append_nil, List.mem_singleton] at hstate
      exact hstate ▸ htwin
    · rcases ResultSet.toList_insert_subset _ _ hr' with hr' | rfl
      · cases hr'
      · exact htwin
  | option item =>
    exact .inl ⟨_, _, s, s', rfl, rfl, h.refl_advance,
      .call (.cons (.option index) hframes)⟩
  | thunk rule =>
    cases hbody : g.ruleBody? rule with
    | some body =>
      simp only [hbody]
      exact .inl ⟨_, _, s, s', rfl, rfl, h.refl_advance, hwrapped body⟩
    | none =>
      simp only [hbody]
      exact .inr ⟨_, rfl, rfl⟩
  | indent child | group child | conditional child _ _ _ =>
    exact .inl ⟨_, _, s, s', rfl, rfl, h.refl_advance, hwrapped child⟩
  | literal text =>
    obtain ⟨r, t, t', hr, hr', hstep, htwin⟩ := success_bare h hsize (.mark .literal) rfl rfl index
    simp only [hr, hr']
    exact .inl ⟨_, _, t, t', rfl, rfl, hstep,
      .give (hframes.advance hstep) (List.forall_mem_singleton.2 htwin)⟩
  | line kind =>
    obtain ⟨r, t, t', hr, hr', hstep, htwin⟩ := success_bare h hsize (.mark .line) rfl rfl index
    simp only [hr, hr']
    exact .inl ⟨_, _, t, t', rfl, rfl, hstep,
      .give (hframes.advance hstep) (List.forall_mem_singleton.2 htwin)⟩

/-- Both enter a site under the same context. -/
theorem enter_paired (h : s.Paired input input' s') (context : Context) (site : Site)
    (depth : Nat) : ∃ inner t t', Store.enter context site depth s = (inner, t) ∧
      Store.enter context site depth s' = (inner, t') ∧
      Store.Advance input input' s s' t t' := by
  obtain ⟨hsound, hgrows, -⟩ := h.sound.enter context site depth
  obtain ⟨hsound', hgrows', -⟩ := h.sound'.enter context site depth
  have hinner : (Store.enter context site depth s').1 = (Store.enter context site depth s).1 := by
    simp only [Store.enter, h.maps]
  refine ⟨(Store.enter context site depth s).1, (Store.enter context site depth s).2,
    (Store.enter context site depth s').2, rfl, Prod.ext hinner rfl,
    ⟨hsound, hsound', ?_, ?_, ?_, ?_⟩, hgrows, hgrows'⟩
  · exact h.failures
  · simp only [Store.enter, h.maps]
  · exact h.size
  · intro r x hr
    obtain ⟨i, htwin⟩ := h.twin (show s.results.get? r = some x from hr)
    exact ⟨i, htwin.mono hgrows hgrows'⟩

/-- A pattern of the grammar asks for tokens of the type. -/
def Grammar.Consumes (g : Grammar) (terminal : String) : Prop :=
  ∃ p ∈ g.patterns, p.kind = .consume terminal

/-- Two inputs agree on the types that a grammar asks for. -/
structure Grammar.SameTypes (g : Grammar) (input input' : Input) : Prop where
  size : input.size = input'.size
  is : ∀ terminal, g.Consumes terminal → ∀ i < input.size,
    input.is i terminal = input'.is i terminal

variable {g : Grammar}

theorem invoke_paired (hg : g.SameTypes input input') {id : PatternId} {index : Nat}
    (context : Context) {t t' : Tables} (ht : t.Paired input input' t')
    {frames frames' : List Frame}
    (hframes : FramesPaired input input' t.store t'.store frames frames' index) :
    (invoke g input id index context frames t).Paired input input'
      (invoke g input' id index context frames' t') := by
  unfold invoke
  cases hp : g.pattern? id with
  | none => exact .faulted _
  | some p =>
    dsimp only
    rw [← replay?_paired ht]
    cases hreplay : t.replay? ⟨index, p.recognizer⟩ context with
    | some results =>
      refine .running ⟨.give hframes ?_, ht⟩
      have hknown : ∃ known, t.memo[(⟨index, p.recognizer⟩ : Site)]? = some known ∧
          results = known.toList := by
        unfold Tables.replay? at hreplay
        split at hreplay
        · cases hreplay
        · rename_i known hmemo
          simp only [Option.ite_none_right_eq_some, Option.some.injEq] at hreplay
          exact ⟨known, hmemo, hreplay.2.symm⟩
      obtain ⟨known, hmemo, rfl⟩ := hknown
      exact ht.twin hmemo
    | none =>
      obtain ⟨store, memo, counts, cutoffs⟩ := t
      obtain ⟨store', memo', counts', cutoffs'⟩ := t'
      obtain rfl : counts = counts' := ht.counts
      have hstore : store.Paired input input' store' := ht.store
      replace hframes : FramesPaired input input' store store' frames frames' index := hframes
      dsimp only
      rw [← hg.size]
      split
      · cases context.at? index with
        | none => exact .faulted _
        | some map =>
          obtain ⟨r, u, u', hr, hr', hstep, htwin⟩ :=
            hstore.failure .infiniteRecursion index map index
          simp only [hr, hr']
          exact .running ⟨.give (hframes.advance hstep) (List.forall_mem_singleton.2 htwin),
            ht.advance hstep counts⟩
      · obtain ⟨inner, u, u', henter, henter', hstep⟩ := enter_paired hstore context
          ⟨index, p.recognizer⟩ (counts.getD ⟨index, p.recognizer⟩ 0 + 1)
        simp only [henter, henter']
        have hcomplete : FramesPaired input input' u u' (.complete ⟨index, p.recognizer⟩ :: frames)
            (.complete ⟨index, p.recognizer⟩ :: frames') index :=
          .cons (.complete ⟨index, p.recognizer⟩) (hframes.advance hstep)
        have hsame : ∀ terminal, p.kind = .consume terminal → index < input.size →
            input.is index terminal = input'.is index terminal :=
          fun terminal hkind hlt => hg.is terminal ⟨p, Array.mem_of_getElem? hp, hkind⟩ index hlt
        rcases evaluate_paired hg.size g hsame inner hstep.paired hcomplete with
          ⟨⟨control, frames⟩, ⟨control', frames'⟩, v, v', hevaluate, hevaluate', hstep', hturn⟩ |
          ⟨fault, hevaluate, hevaluate'⟩
        · simp only [hevaluate, hevaluate']
          exact .running ⟨hturn, ht.advance (hstep.trans hstep') _⟩
        · simp only [hevaluate, hevaluate']
          exact .faulted fault

/-- One step keeps the machines together. -/
theorem step_paired (hg : g.SameTypes input input') {m m' : Machine}
    (h : m.Paired input input' m') :
    (step g input m).Paired input input' (step g input' m') := by
  obtain ⟨control, frames, t⟩ := m
  obtain ⟨control', frames', t'⟩ := m'
  obtain ⟨hturn, ht⟩ := h
  cases hturn with
  | call hframes => exact invoke_paired hg _ ht hframes
  | give hframes hresults =>
    cases hframes with
    | nil => exact .finished ht hresults
    | cons hframe hframes => exact .running (resume_paired hg.size ht hframe hframes hresults)

/-- A run keeps the machines together: both end with the same results, or are given up for the same
reason, or both go on. -/
theorem run_paired (hg : g.SameTypes input input') (fuel : Nat) {m m' : Machine}
    (h : m.Paired input input' m') :
    (run g input fuel m).Paired input input' (run g input' fuel m') := by
  induction fuel generalizing m m' with
  | zero => exact .running h
  | succ fuel ih =>
    have hstep := step_paired hg h
    simp only [run]
    generalize step g input m = p at hstep ⊢
    generalize step g input' m' = p' at hstep ⊢
    cases hstep with
    | running h => exact ih h
    | finished ht hresults => exact .finished ht hresults
    | faulted fault => exact .faulted fault

/-- The machines before they match a pattern at the first token. -/
theorem initial_paired (input input' : Input) (id : PatternId) :
    (Machine.initial id).Paired input input' (.initial id) := by
  have hstore : Store.empty.Paired input input' .empty :=
    ⟨Store.sound_empty, Store.sound_empty, rfl, rfl, rfl,
      fun hr => by simp [Store.empty, Interner.empty, Interner.get?] at hr⟩
  refine ⟨.call .nil, hstore, rfl, rfl, rfl, fun hmemo => ?_⟩
  simp [Machine.initial, Tables.empty] at hmemo

end ReversibleGrammar
