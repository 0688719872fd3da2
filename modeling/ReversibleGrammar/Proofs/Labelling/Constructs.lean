/-
Constructs with labels and without.

A machine over a grammar without labels and one over the same grammar with labels run side by side.
What waits for results has the same results in both, but for failures of labelled choices.  Such
failures are only kept, so that no construct turns on them.

* `FrameTwinned`, `TurnTwinned`, `Machine.Twinned` — two machines at the same point;
* `wrapResults_twinned`, `optionResults_twinned`, `nextSequence_twinned`, `extendSequence_twinned`,
  `resumeChoice_twinned`, `nextMany_twinned`, `extendMany_twinned` — each construct comes to the same.
-/
import ReversibleGrammar.Proofs.Labelling.Lines

namespace ReversibleGrammar

/-! ### Machines -/

namespace Store

/-- The same results in order, and failures of labelled choices between those of the second list. -/
def Gives (s s' : Store) (rs rs' : List ResultId) : Prop := Lined (s.Same s') s'.Added rs rs'

/-- The same for sets. -/
def Keeps (s s' : Store) (set set' : ResultSet) : Prop := SetLined (s.Same s') s'.Added set set'

/-- Sets of the same results. -/
def Matches (s s' : Store) (set set' : ResultSet) : Prop :=
  SetLined (s.Same s') (fun _ => False) set set'

end Store

section

variable (g : Grammar) (s s' : Store)

/-- The states are the same repetition as far as it has come. -/
structure StateTwinned (state state' : PartialMany) : Prop where
  matched : ∃ f stop, s.Matched state.result f stop ∧ s'.Matched state'.result f stop
  mark : state.mark = state'.mark
  afterItem : state.afterItem = state'.afterItem

/-- The repetitions have found the same and have the same states to extend. -/
inductive ManyTwinned : ManyFrame → ManyFrame → Prop
  | intro {context : Context} {item : PatternId} {separator : Option PatternId}
      {front front' back back' : List PartialMany} {emitted emitted' separated separated' : ResultSet}
      (hfront : List.Forall₂ (StateTwinned s s') front front')
      (hback : List.Forall₂ (StateTwinned s s') back back')
      (hemitted : s.Matches s' emitted emitted') (hseparated : s.Matches s' separated separated') :
      ManyTwinned ⟨context, item, separator, front, back, emitted, separated⟩
        ⟨context, item, separator, front', back', emitted', separated'⟩

/-- The frames wait for the same; a choice of the first machine has no label. -/
inductive FrameTwinned : Frame → Frame → Prop
  | complete {site site' : Site} (h : g.SameSite site site') :
      FrameTwinned (.complete site) (.complete site')
  | wrapped (wrapper : Wrapper) : FrameTwinned (.wrapped wrapper) (.wrapped wrapper)
  | option (position : Nat) : FrameTwinned (.option position) (.option position)
  | sequence {context : Context} {child : PatternId} {later : List PatternId} {f : FragmentId}
      {stop : Nat} {pending pending' : List ResultId}
      {following following' finished finished' : ResultSet} (hf : s.HasFragment f)
      (hpending : s.Gives s' pending pending') (hfollowing : s.Keeps s' following following')
      (hfinished : s.Keeps s' finished finished') :
      FrameTwinned
        (.sequence ⟨context, child, later, ⟨.success f, stop, emptyMap⟩, pending, following,
          finished⟩)
        (.sequence ⟨context, child, later, ⟨.success f, stop, emptyMap⟩, pending', following',
          finished'⟩)
  | choice {context : Context} {position : Nat} {mode : ChoiceMode} {label : Option String}
      {index : Nat} {later : List PatternId} {found found' : ResultSet} {matched : Bool}
      (hfound : s.Keeps s' found found') :
      FrameTwinned (.choice ⟨context, position, mode, none, index, later, found, matched⟩)
        (.choice ⟨context, position, mode, label, index, later, found', matched⟩)
  | many {frame frame' : ManyFrame} {state state' : PartialMany} (isSeparator : Bool)
      (hframe : ManyTwinned s s' frame frame') (hstate : StateTwinned s s' state state') :
      FrameTwinned (.many frame state isSeparator) (.many frame' state' isSeparator)

/-- Two pieces of work leave their machines at the same point. -/
inductive TurnTwinned : Turn → Turn → Prop
  | give {results results' : List ResultId} {frames frames' : List Frame}
      (hframes : List.Forall₂ (FrameTwinned g s s') frames frames')
      (hresults : s.Gives s' results results') :
      TurnTwinned (.give results, frames) (.give results', frames')
  | call {id : PatternId} {index : Nat} {context : Context} {frames frames' : List Frame}
      (hframes : List.Forall₂ (FrameTwinned g s s') frames frames') :
      TurnTwinned (.call id index context, frames) (.call id index context, frames')

/-- The same is remembered of sites that correspond. -/
structure Tables.Twinned (t t' : Tables) : Prop where
  store : t.store.Twinned g t'.store
  memo : ∀ {site site'}, g.SameSite site site' →
    Option.Rel (t.store.Matches t'.store) t.memo[site]? t'.memo[site']?
  counts : ∀ {site site'}, g.SameSite site site' → t.counts[site]? = t'.counts[site']?
  cutoffs : ∀ {site site'}, g.SameSite site site' → t.cutoffs[site]? = t'.cutoffs[site']?

/-- The machines are at the same point. -/
structure Machine.Twinned (m m' : Machine) : Prop where
  turn : TurnTwinned g m.tables.store m'.tables.store (m.control, m.frames)
    (m'.control, m'.frames)
  tables : m.tables.Twinned g m'.tables

/-- The steps come to the same. -/
inductive Progress.Twinned : Progress → Progress → Prop
  | running {m m' : Machine} (h : m.Twinned g m') : Twinned (.running m) (.running m')
  | finished {results results' : List ResultId} {t t' : Tables}
      (ht : t.store.Twinned g t'.store) (hresults : t.store.Gives t'.store results results') :
      Twinned (.finished results t) (.finished results' t')
  | faulted (fault fault' : Fault) : Twinned (.faulted fault) (.faulted fault')

end

variable {g : Grammar} {s s' t t' : Store}

/-! ### Later stores -/

namespace Store

theorem Gives.onward {rs rs' : List ResultId} (h : s.Gives s' rs rs')
    (hstep : Onward g s s' t t') : t.Gives t' rs rs' :=
  Lined.imp (fun hr => hr.onward hstep) (fun hr => hr.onward hstep) h

theorem Keeps.onward {set set' : ResultSet} (h : s.Keeps s' set set')
    (hstep : Onward g s s' t t') : t.Keeps t' set set' :=
  SetLined.imp (fun hr => hr.onward hstep) (fun hr => hr.onward hstep) h

theorem Matches.onward {set set' : ResultSet} (h : s.Matches s' set set')
    (hstep : Onward g s s' t t') : t.Matches t' set set' :=
  SetLined.imp (fun hr => hr.onward hstep) id h

theorem Matches.keeps {set set' : ResultSet} (h : s.Matches s' set set') : s.Keeps s' set set' :=
  SetLined.imp id False.elim h

theorem Keeps.insert (hs : s.Twinned g s') {set set' : ResultSet} (h : s.Keeps s' set set')
    {r r' : ResultId} (hr : s.Same s' r r') : s.Keeps s' (set.insert r) (set'.insert r') :=
  SetLined.insert hs.oneToOne Same.not_added h hr

theorem Keeps.insertAll (hs : s.Twinned g s') {set set' : ResultSet} (h : s.Keeps s' set set')
    {rs rs' : List ResultId} (hrs : s.Gives s' rs rs') :
    s.Keeps s' (set.insertAll rs) (set'.insertAll rs') :=
  SetLined.insertAll hs.oneToOne Same.not_added h hrs

theorem Matches.insert (hs : s.Twinned g s') {set set' : ResultSet} (h : s.Matches s' set set')
    {r r' : ResultId} (hr : s.Same s' r r') : s.Matches s' (set.insert r) (set'.insert r') :=
  SetLined.insert hs.oneToOne (fun _ => not_false) h hr

end Store

theorem StateTwinned.onward {state state' : PartialMany} (h : StateTwinned s s' state state')
    (hstep : Store.Onward g s s' t t') : StateTwinned t t' state state' := by
  obtain ⟨f, stop, hr, hr'⟩ := h.matched
  exact ⟨⟨f, stop, hstep.grows.matched hr, hstep.grows'.matched hr'⟩, h.mark, h.afterItem⟩

theorem ManyTwinned.onward {frame frame' : ManyFrame} (h : ManyTwinned s s' frame frame')
    (hstep : Store.Onward g s s' t t') : ManyTwinned t t' frame frame' := by
  cases h with
  | intro hfront hback hemitted hseparated =>
    exact .intro (hfront.imp fun _ _ h => h.onward hstep) (hback.imp fun _ _ h => h.onward hstep)
      (hemitted.onward hstep) (hseparated.onward hstep)

theorem FrameTwinned.onward {frame frame' : Frame} (h : FrameTwinned g s s' frame frame')
    (hstep : Store.Onward g s s' t t') : FrameTwinned g t t' frame frame' := by
  cases h with
  | complete h => exact .complete h
  | wrapped wrapper => exact .wrapped wrapper
  | option position => exact .option position
  | sequence hf hpending hfollowing hfinished =>
    exact .sequence (hf.imp fun _ => hstep.grows.fragments) (hpending.onward hstep)
      (hfollowing.onward hstep) (hfinished.onward hstep)
  | choice hfound => exact .choice (hfound.onward hstep)
  | many isSeparator hframe hstate =>
    exact .many isSeparator (hframe.onward hstep) (hstate.onward hstep)

theorem frames_onward {frames frames' : List Frame}
    (h : List.Forall₂ (FrameTwinned g s s') frames frames') (hstep : Store.Onward g s s' t t') :
    List.Forall₂ (FrameTwinned g t t') frames frames' :=
  h.imp fun _ _ h => h.onward hstep

/-! ### Single results -/

/-- The same result is read alike. -/
theorem Store.Same.result_cases {r r' : ResultId} (h : s.Same s' r r') :
    (∃ f stop, s.Matched r f stop ∧ s.result r = ⟨.success f, stop, emptyMap⟩ ∧
      s'.result r' = ⟨.success f, stop, emptyMap⟩) ∨
    ∃ k k' stop map, s.result r = ⟨.failure k, stop, map⟩ ∧
      s'.result r' = ⟨.failure k', stop, map⟩ := by
  rcases h with ⟨f, stop, hr, hr'⟩ | ⟨kind, stop, map, -, ⟨k, hr, -⟩, ⟨k', hr', -⟩⟩
  · exact .inl ⟨f, stop, hr, hr.result_eq, hr'.result_eq⟩
  · exact .inr ⟨k, k', stop, map, Store.result_eq hr, Store.result_eq hr'⟩

theorem Store.Added.result_eq {r : ResultId} (h : s.Added r) :
    ∃ k stop map, s.result r = ⟨.failure k, stop, map⟩ := by
  obtain ⟨label, stop, map, k, hr, -⟩ := h
  exact ⟨k, stop, map, Store.result_eq hr⟩

/-- Both stores store a match without parts. -/
theorem success_alone (h : s.Twinned g s') {fragment : Fragment} (hparts : fragment.parts = [])
    (stop : Nat) :
    ∃ r r' t t', Store.success fragment stop emptyMap s = (r, t) ∧
      Store.success fragment stop emptyMap s' = (r', t') ∧ Store.Onward g s s' t t' ∧
      t.Same t' r r' :=
  h.success (hparts ▸ List.forall_mem_nil _) stop

theorem matchToken_twinned (h : s.Twinned g s') (input : Input) (terminal : String)
    (index : Nat) :
    ∃ r r' t t', matchToken input terminal index s = (r, t) ∧
      matchToken input terminal index s' = (r', t') ∧ Store.Onward g s s' t t' ∧
      t.Same t' r r' := by
  unfold matchToken
  split
  · split
    · exact success_alone h rfl (index + 1)
    · exact h.failure rfl index emptyMap
  · exact h.failure rfl index emptyMap

/-- Both stores store a match around one that both have. -/
theorem success_around (h : s.Twinned g s') {make : FragmentId → Fragment}
    (hmake : ∀ f, (make f).parts = [f]) {r : ResultId} {f : FragmentId} {stop : Nat}
    (hr : s.Matched r f stop) :
    ∃ r r' t t', Store.success (make f) stop emptyMap s = (r, t) ∧
      Store.success (make f) stop emptyMap s' = (r', t') ∧ Store.Onward g s s' t t' ∧
      t.Same t' r r' := by
  refine h.success ?_ stop
  rw [hmake]
  exact List.forall_mem_singleton.2 (h.sound.exists_fragment hr)

theorem wrapResults_twinned (h : s.Twinned g s') (wrapper : Wrapper) {ids ids' : List ResultId}
    (hids : s.Gives s' ids ids') :
    ∃ made made' t t', ids.mapM (wrapResult wrapper) s = (made, t) ∧
      ids'.mapM (wrapResult wrapper) s' = (made', t') ∧ Store.Onward g s s' t t' ∧
      t.Gives t' made made' := by
  induction ids' generalizing s s' ids with
  | nil =>
    cases hids
    exact ⟨[], [], s, s', rfl, rfl, h.refl_onward, .nil⟩
  | cons id' ids' ih =>
    cases hids with
    | @both id _ ids _ hr hrest =>
      obtain ⟨r, r', t, t', hone, hone', hstep, hsame⟩ : ∃ r r' t t',
          wrapResult wrapper id s = (r, t) ∧ wrapResult wrapper id' s' = (r', t') ∧
            Store.Onward g s s' t t' ∧ t.Same t' r r' := by
        unfold wrapResult
        rcases hr.result_cases with ⟨f, stop, hm, hf, hf'⟩ | ⟨k, k', stop, map, hk, hk'⟩
        · simp only [hf, hf']
          exact success_around h (fun _ => rfl) hm
        · simp only [hk, hk']
          exact ⟨id, id', s, s', rfl, rfl, h.refl_onward, hr⟩
      obtain ⟨made, made', u, u', hall, hall', hstep', hgives⟩ :=
        ih hstep.twinned (Store.Gives.onward hrest hstep)
      refine ⟨r :: made, r' :: made', u, u', ?_, ?_, hstep.trans hstep',
        .both (hsame.onward hstep') hgives⟩
      · simp only [List.mapM_cons, bind, StateT.bind, hone, hall, pure, StateT.pure]
      · simp only [List.mapM_cons, bind, StateT.bind, hone', hall', pure, StateT.pure]
    | more hr hrest =>
      obtain ⟨k, stop, map, hk⟩ := hr.result_eq
      obtain ⟨made, made', t, t', hall, hall', hstep, hgives⟩ := ih h hrest
      refine ⟨made, id' :: made', t, t', hall, ?_, hstep, .more (hr.onward hstep) hgives⟩
      simp only [List.mapM_cons, bind, StateT.bind, wrapResult, hk, hall', pure, StateT.pure]

/-- An option drops failures. -/
theorem optionResults_twinned (h : s.Twinned g s') {ids ids' : List ResultId}
    (hids : s.Gives s' ids ids') {out out' : ResultSet} (hout : s.Matches s' out out') :
    ∃ made made' t t', optionResults ids out s = (made, t) ∧
      optionResults ids' out' s' = (made', t') ∧ Store.Onward g s s' t t' ∧
      t.Matches t' made made' := by
  induction ids' generalizing s s' ids out out' with
  | nil =>
    cases hids
    exact ⟨out, out', s, s', rfl, rfl, h.refl_onward, hout⟩
  | cons id' ids' ih =>
    cases hids with
    | both hr hrest =>
      unfold optionResults
      rcases hr.result_cases with ⟨f, stop, hm, hf, hf'⟩ | ⟨k, k', stop, map, hk, hk'⟩
      · obtain ⟨r, r', t, t', hone, hone', hstep, hsame⟩ :=
          success_around h (fun _ => rfl : ∀ f, (Fragment.present f).parts = [f]) hm
        obtain ⟨made, made', u, u', hall, hall', hstep', hmatches⟩ := ih hstep.twinned
          (Store.Gives.onward hrest hstep) ((hout.onward hstep).insert hstep.twinned hsame)
        simp only [hf, hf', hone, hone']
        exact ⟨made, made', u, u', hall, hall', hstep.trans hstep', hmatches⟩
      · simp only [hk, hk']
        exact ih h hrest hout
    | more hr hrest =>
      obtain ⟨k, stop, map, hk⟩ := hr.result_eq
      obtain ⟨made, made', t, t', hall, hall', hstep, hmatches⟩ := ih h hrest hout
      refine ⟨made, made', t, t', hall, ?_, hstep, hmatches⟩
      unfold optionResults
      simp only [hk]
      exact hall'

/-! ### Sequences -/

/-- Both find the same first match, or none. -/
theorem takeSuccess_twinned (h : s.Twinned g s') {ids ids' : List ResultId}
    (hids : s.Gives s' ids ids') {finished finished' : ResultSet}
    (hfinished : s.Keeps s' finished finished') :
    (∃ out out', takeSuccess s finished ids = (out, none) ∧
      takeSuccess s' finished' ids' = (out', none) ∧ s.Keeps s' out out') ∨
    ∃ out out' f stop rest rest', s.HasFragment f ∧
      takeSuccess s finished ids = (out, some (⟨.success f, stop, emptyMap⟩, rest)) ∧
      takeSuccess s' finished' ids' = (out', some (⟨.success f, stop, emptyMap⟩, rest')) ∧
      s.Keeps s' out out' ∧ s.Gives s' rest rest' := by
  unfold Store.Gives at hids
  induction hids generalizing finished finished' with
  | nil => exact .inl ⟨finished, finished', rfl, rfl, hfinished⟩
  | both hr hrest ih =>
    unfold takeSuccess
    rcases hr.result_cases with ⟨f, stop, hm, hf, hf'⟩ | ⟨k, k', stop, map, hk, hk'⟩
    · simp only [hf, hf']
      exact .inr ⟨finished, finished', f, stop, _, _, h.sound.exists_fragment hm, rfl, rfl,
        hfinished, hrest⟩
    · simp only [hk, hk']
      exact ih (hfinished.insert h hr)
  | @more r' rs rs' hr hrest ih =>
    obtain ⟨k, stop, map, hk⟩ := hr.result_eq
    have hnext : takeSuccess s' finished' (r' :: rs') = takeSuccess s' (finished'.insert r') rs' := by
      rw [takeSuccess]
      simp only [hk]
    rw [hnext]
    exact ih (SetLined.insertMore hfinished hr)

theorem nextSequence_twinned (h : s.Twinned g s') (context : Context) {frames frames' : List Frame}
    (hframes : List.Forall₂ (FrameTwinned g s s') frames frames') (children : List PatternId)
    {pending pending' : List ResultId} {following following' finished finished' : ResultSet}
    (hpending : s.Gives s' pending pending') (hfollowing : s.Keeps s' following following')
    (hfinished : s.Keeps s' finished finished') :
    TurnTwinned g s s' (nextSequence context frames children pending following finished s)
      (nextSequence context frames' children pending' following' finished' s') := by
  induction children generalizing pending pending' following following' finished finished' with
  | nil =>
    have hset : s.Keeps s' (.ofList pending) (.ofList pending') :=
      Store.Keeps.insertAll h .empty hpending
    exact .give hframes (hset.insertAll h hfinished.lined).lined
  | cons child later ih =>
    unfold nextSequence
    rcases takeSuccess_twinned h hpending hfinished with ⟨out, out', htake, htake', hout⟩ |
      ⟨out, out', f, stop, rest, rest', hf, htake, htake', hout, hrest⟩
    · simp only [htake, htake']
      exact ih hfollowing.lined .empty hout
    · simp only [htake, htake']
      exact .call (.cons (.sequence hf hrest hfollowing hout) hframes)

/-- A prefix is extended by the same results. -/
theorem extendSequence_twinned (h : s.Twinned g s') {f : FragmentId} (hf : s.HasFragment f)
    (stop : Nat) {ids ids' : List ResultId} (hids : s.Gives s' ids ids')
    {following following' : ResultSet} (hfollowing : s.Keeps s' following following') :
    ∃ out out' t t',
      extendSequence ⟨.success f, stop, emptyMap⟩ ids following s = (out, t) ∧
      extendSequence ⟨.success f, stop, emptyMap⟩ ids' following' s' = (out', t') ∧
      Store.Onward g s s' t t' ∧ t.Keeps t' out out' := by
  induction ids' generalizing s s' ids following following' with
  | nil =>
    cases hids
    exact ⟨following, following', s, s', rfl, rfl, h.refl_onward, hfollowing⟩
  | cons id' ids' ih =>
    cases hids with
    | both hr hrest =>
      unfold extendSequence
      rcases hr.result_cases with ⟨f', stop', hm, hf', hf''⟩ | ⟨k, k', stop', map, hk, hk'⟩
      · have hparts : ∀ q ∈ (Fragment.sequenceStep f f').parts,
            ∃ part, s.fragments.get? q = some part :=
          List.forall_mem_cons.2 ⟨hf, List.forall_mem_singleton.2 (h.sound.exists_fragment hm)⟩
        obtain ⟨r, r', t, t', hone, hone', hstep, hsame⟩ := h.success hparts stop'
        obtain ⟨out, out', u, u', hall, hall', hstep', hkeeps⟩ := ih hstep.twinned
          (hf.imp fun _ => hstep.grows.fragments) (Store.Gives.onward hrest hstep)
          ((hfollowing.onward hstep).insert hstep.twinned hsame)
        simp only [hf', hf'', Store.mergeMaps_empty, hone, hone']
        exact ⟨out, out', u, u', hall, hall', hstep.trans hstep', hkeeps⟩
      · simp only [hk, hk']
        exact ih h hf hrest (hfollowing.insert h hr)
    | more hr hrest =>
      obtain ⟨k, stop', map, hk⟩ := hr.result_eq
      obtain ⟨out, out', t, t', hall, hall', hstep, hkeeps⟩ :=
        ih h hf hrest (SetLined.insertMore hfollowing hr)
      refine ⟨out, out', t, t', hall, ?_, hstep, hkeeps⟩
      unfold extendSequence
      simp only [hk]
      exact hall'

/-! ### Choices -/

theorem nextChoice_twinned (h : s.Twinned g s') (context : Context) (position : Nat)
    (mode : ChoiceMode) (label : Option String) (index : Nat) (waiting later : List PatternId)
    {found found' : ResultSet} (hfound : s.Keeps s' found found') (matched : Bool)
    {frames frames' : List Frame}
    (hframes : List.Forall₂ (FrameTwinned g s s') frames frames') :
    ∃ turn turn' t',
      nextChoice ⟨context, position, mode, none, index, waiting, found, matched⟩ frames later s =
        (turn, s) ∧
      nextChoice ⟨context, position, mode, label, index, waiting, found', matched⟩ frames' later s' =
        (turn', t') ∧
      Store.Onward g s s' s t' ∧ TurnTwinned g s t' turn turn' := by
  cases later with
  | cons alternative later =>
    exact ⟨_, _, s', rfl, rfl, h.refl_onward, .call (.cons (.choice hfound) hframes)⟩
  | nil =>
    have hgive {t' : Store} (hstep : Store.Onward g s s' s t') {found' : ResultSet}
        (hfound : s.Keeps t' found found') :
        TurnTwinned g s t' (.give found.toList, frames) (.give found'.toList, frames') :=
      .give (frames_onward hframes hstep) hfound.lined
    cases matched with
    | true => exact ⟨_, _, s', rfl, rfl, h.refl_onward, hgive h.refl_onward hfound⟩
    | false =>
      cases label with
      | none => exact ⟨_, _, s', rfl, rfl, h.refl_onward, hgive h.refl_onward hfound⟩
      | some label =>
        obtain ⟨r', t', hfailure, hstep, hadded⟩ := h.addLabel label position emptyMap
        refine ⟨_, (.give (found'.insert r').toList, frames'), t', rfl, ?_, hstep,
          hgive hstep (SetLined.insertMore (hfound.onward hstep) hadded)⟩
        simp only [nextChoice, hfailure]

/-- Matches and failures are kept apart alike. -/
theorem choiceResults_twinned (h : s.Twinned g s') (index : Nat) {ids ids' : List ResultId}
    (hids : s.Gives s' ids ids') {successes successes' failures failures' : ResultSet}
    (hsuccesses : s.Matches s' successes successes') (hfailures : s.Keeps s' failures failures') :
    ∃ made made' failed failed' t t',
      choiceResults index ids successes failures s = ((made, failed), t) ∧
      choiceResults index ids' successes' failures' s' = ((made', failed'), t') ∧
      Store.Onward g s s' t t' ∧ t.Matches t' made made' ∧ t.Keeps t' failed failed' := by
  induction ids' generalizing s s' ids successes successes' failures failures' with
  | nil =>
    cases hids
    exact ⟨successes, successes', failures, failures', s, s', rfl, rfl, h.refl_onward, hsuccesses,
      hfailures⟩
  | cons id' ids' ih =>
    cases hids with
    | both hr hrest =>
      unfold choiceResults
      rcases hr.result_cases with ⟨f, stop, hm, hf, hf'⟩ | ⟨k, k', stop, map, hk, hk'⟩
      · obtain ⟨r, r', t, t', hone, hone', hstep, hsame⟩ :=
          success_around h (fun _ => rfl : ∀ f, (Fragment.choice index f).parts = [f]) hm
        obtain ⟨made, made', failed, failed', u, u', hall, hall', hstep', hkeeps⟩ :=
          ih hstep.twinned (Store.Gives.onward hrest hstep)
            ((hsuccesses.onward hstep).insert hstep.twinned hsame) (hfailures.onward hstep)
        simp only [hf, hf', hone, hone']
        exact ⟨made, made', failed, failed', u, u', hall, hall', hstep.trans hstep', hkeeps⟩
      · simp only [hk, hk']
        exact ih h hrest hsuccesses (hfailures.insert h hr)
    | more hr hrest =>
      obtain ⟨k, stop, map, hk⟩ := hr.result_eq
      obtain ⟨made, made', failed, failed', t, t', hall, hall', hstep, hkeeps⟩ :=
        ih h hrest hsuccesses (SetLined.insertMore hfailures hr)
      refine ⟨made, made', failed, failed', t, t', hall, ?_, hstep, hkeeps⟩
      unfold choiceResults
      simp only [hk]
      exact hall'

theorem resumeChoice_twinned (h : s.Twinned g s') (context : Context) (position : Nat)
    (mode : ChoiceMode) (label : Option String) (index : Nat) (later : List PatternId)
    {found found' : ResultSet} (hfound : s.Keeps s' found found') (matched : Bool)
    {frames frames' : List Frame}
    (hframes : List.Forall₂ (FrameTwinned g s s') frames frames') {results results' : List ResultId}
    (hresults : s.Gives s' results results') :
    ∃ turn turn' t t',
      resumeChoice ⟨context, position, mode, none, index, later, found, matched⟩ results frames s =
        (turn, t) ∧
      resumeChoice ⟨context, position, mode, label, index, later, found', matched⟩ results' frames'
        s' = (turn', t') ∧
      Store.Onward g s s' t t' ∧ TurnTwinned g t t' turn turn' := by
  obtain ⟨made, made', failed, failed', t, t', hall, hall', hstep, hmade, hfailed⟩ :=
    choiceResults_twinned h index hresults .empty .empty
  have hframes := frames_onward hframes hstep
  simp only [resumeChoice, hall, hall', ← hmade.isEmpty_eq]
  split
  · exact ⟨_, _, t, t', rfl, rfl, hstep, .give hframes hmade.keeps.lined⟩
  · have hnext := ((hfound.onward hstep).insertAll hstep.twinned hmade.keeps.lined).insertAll
      hstep.twinned hfailed.lined
    obtain ⟨turn, turn', u', hturn, hturn', hstep', hpaired⟩ := nextChoice_twinned hstep.twinned
      context position mode label (index + 1) later later hnext (matched || !made.isEmpty) hframes
    exact ⟨turn, turn', t, u', hturn, hturn', hstep.trans hstep', hpaired⟩

/-! ### Repetitions -/

theorem callMany_twinned {frame frame' : ManyFrame} (hframe : ManyTwinned s s' frame frame')
    {state state' : PartialMany} (hstate : StateTwinned s s' state state')
    {frames frames' : List Frame} (hframes : List.Forall₂ (FrameTwinned g s s') frames frames') :
    TurnTwinned g s s' (callMany frame state frames s) (callMany frame' state' frames' s') := by
  have hstop : (s.result state.result).stop = (s'.result state'.result).stop := by
    obtain ⟨f, stop, hr, hr'⟩ := hstate.matched
    rw [hr.result_eq, hr'.result_eq]
  have hwaits (isSeparator : Bool) :
      List.Forall₂ (FrameTwinned g s s') (.many frame state isSeparator :: frames)
        (.many frame' state' isSeparator :: frames') :=
    .cons (.many isSeparator hframe hstate) hframes
  unfold callMany
  rw [← hstop, ← hstate.afterItem]
  cases hframe with
  | @intro context item separator =>
    cases separator with
    | none => exact .call (hwaits false)
    | some separator =>
      cases state.afterItem with
      | true => exact .call (hwaits true)
      | false => exact .call (hwaits false)

theorem nextMany_twinned {frame frame' : ManyFrame} (hframe : ManyTwinned s s' frame frame')
    {frames frames' : List Frame} (hframes : List.Forall₂ (FrameTwinned g s s') frames frames') :
    TurnTwinned g s s' (nextMany frame frames s) (nextMany frame' frames' s') := by
  cases hframe with
  | intro hfront hback hemitted hseparated =>
    unfold nextMany
    cases hfront with
    | cons hstate hrest =>
      exact callMany_twinned (.intro hrest hback hemitted hseparated) hstate hframes
    | nil =>
      have hreverse := List.rel_reverse hback
      dsimp only
      generalize List.reverse _ = states at hreverse ⊢
      generalize List.reverse _ = states' at hreverse ⊢
      cases hreverse with
      | cons hstate hrest =>
        exact callMany_twinned (.intro hrest .nil hemitted hseparated) hstate hframes
      | nil => exact .give hframes hemitted.keeps.lined.reverse

theorem ManyTwinned.emit (h : s.Twinned g s') {frame frame' : ManyFrame}
    (hframe : ManyTwinned s s' frame frame') {r r' : ResultId} {f : FragmentId} {stop : Nat}
    (hr : s.Matched r f stop) (hr' : s'.Matched r' f stop) :
    ManyTwinned s s' (emitMany frame r stop) (emitMany frame' r' stop) := by
  have hsame : s.Same s' r r' := .inl ⟨f, stop, hr, hr'⟩
  cases hframe with
  | intro hfront hback hemitted hseparated =>
    unfold emitMany
    dsimp only
    rw [← hemitted.holds_eq h.oneToOne (fun _ => not_false) hsame]
    split
    · exact .intro hfront hback hemitted hseparated
    · exact .intro hfront (.cons ⟨⟨f, stop, hr, hr'⟩, rfl, rfl⟩ hback) (hemitted.insert h hsame)
        hseparated

theorem ManyTwinned.separate (h : s.Twinned g s') {frame frame' : ManyFrame}
    (hframe : ManyTwinned s s' frame frame') {r r' : ResultId} {f : FragmentId} {stop : Nat}
    (hr : s.Matched r f stop) (hr' : s'.Matched r' f stop) (mark : Nat) :
    ManyTwinned s s' (separateMany frame r mark) (separateMany frame' r' mark) := by
  have hsame : s.Same s' r r' := .inl ⟨f, stop, hr, hr'⟩
  cases hframe with
  | intro hfront hback hemitted hseparated =>
    unfold separateMany
    dsimp only
    rw [← hseparated.holds_eq h.oneToOne (fun _ => not_false) hsame]
    split
    · exact .intro hfront hback hemitted hseparated
    · exact .intro hfront (.cons ⟨⟨f, stop, hr, hr'⟩, rfl, rfl⟩ hback) hemitted
        (hseparated.insert h hsame)

/-- A repetition is extended by the same matches. -/
theorem extendMany_twinned (h : s.Twinned g s') {f : FragmentId} (hf : s.HasFragment f)
    (stop mark : Nat) (isSeparator : Bool) {ids ids' : List ResultId} (hids : s.Gives s' ids ids')
    {frame frame' : ManyFrame} (hframe : ManyTwinned s s' frame frame') :
    ∃ out out' t t',
      extendMany ⟨.success f, stop, emptyMap⟩ mark isSeparator ids frame s = (out, t) ∧
      extendMany ⟨.success f, stop, emptyMap⟩ mark isSeparator ids' frame' s' = (out', t') ∧
      Store.Onward g s s' t t' ∧ ManyTwinned t t' out out' := by
  induction ids' generalizing s s' ids frame frame' with
  | nil =>
    cases hids
    exact ⟨frame, frame', s, s', rfl, rfl, h.refl_onward, hframe⟩
  | cons id' ids' ih =>
    cases hids with
    | both hr hrest =>
      unfold extendMany
      rcases hr.result_cases with ⟨f', stop', hm, hf', hf''⟩ | ⟨k, k', stop', map, hk, hk'⟩
      · simp only [hf', hf'', Store.mergeMaps_empty]
        split
        · exact ih h hf hrest hframe
        · have hparts : ∀ q ∈ (if isSeparator = true then Fragment.manySeparator f f'
              else Fragment.manyItem f f').parts, ∃ part, s.fragments.get? q = some part := by
            split <;>
            exact List.forall_mem_cons.2 ⟨hf, List.forall_mem_singleton.2 (h.sound.exists_fragment hm)⟩
          obtain ⟨r, r', t, t', made, hone, hone', hstep, hmade, hmade'⟩ :=
            h.success_matched hparts stop'
          have hnext : ManyTwinned t t'
              (if isSeparator then separateMany frame r mark else emitMany frame r stop')
              (if isSeparator then separateMany frame' r' mark else emitMany frame' r' stop') := by
            split
            · exact (hframe.onward hstep).separate hstep.twinned hmade hmade' mark
            · exact (hframe.onward hstep).emit hstep.twinned hmade hmade'
          obtain ⟨out, out', u, u', hall, hall', hstep', hmany⟩ := ih hstep.twinned
            (hf.imp fun _ => hstep.grows.fragments) (Store.Gives.onward hrest hstep) hnext
          simp only [hone, hone']
          exact ⟨out, out', u, u', hall, hall', hstep.trans hstep', hmany⟩
      · simp only [hk, hk']
        exact ih h hf hrest hframe
    | more hr hrest =>
      obtain ⟨k, stop', map, hk⟩ := hr.result_eq
      obtain ⟨out, out', t, t', hall, hall', hstep, hmany⟩ := ih h hf hrest hframe
      refine ⟨out, out', t, t', hall, ?_, hstep, hmany⟩
      unfold extendMany
      simp only [hk]
      exact hall'

end ReversibleGrammar
