/-
Steps with labels and without.

Two machines, over a grammar without labels and over the same grammar with labels, call the same
patterns at the same positions in the same contexts, and remember the same of them.

* `Tables.Twinned.record`, `replay?_twinned` — what is remembered, and given again;
* `resume_twinned`, `evaluate_twinned`, `step_twinned` — one step keeps the machines together;
* `run_twinned` — and so does a run, whether it ends, is given up or goes on.
-/
import ReversibleGrammar.Proofs.Labelling.Constructs

namespace ReversibleGrammar

variable {g : Grammar} {s s' t t' : Store}

/-! ### What is remembered -/

theorem Store.FailedWith.result_eq {r : ResultId} {kind : FailureKind} {stop : Nat} {map : MapId}
    (h : s.FailedWith r kind stop map) :
    ∃ k, s.result r = ⟨.failure k, stop, map⟩ ∧ s.failureKind k = kind := by
  obtain ⟨k, hr, hk⟩ := h
  exact ⟨k, Store.result_eq hr, Interner.get_eq_of_get? hk⟩

/-- The last cut-off is the same; labelled choices that failed are none. -/
theorem lastCutoff?_twinned {ids ids' : List ResultId} (hids : s.Gives s' ids ids') :
    lastCutoff? s ids = lastCutoff? s' ids' := by
  unfold lastCutoff?
  generalize (none : Option MapId) = last
  unfold Store.Gives at hids
  induction hids generalizing last with
  | nil => rfl
  | both hr _ ih =>
    rw [List.foldl_cons, List.foldl_cons, ih]
    rcases hr with ⟨f, stop, hr, hr'⟩ | ⟨kind, stop, map, -, hr, hr'⟩
    · simp only [hr.result_eq, hr'.result_eq]
    · obtain ⟨k, hk, hkind⟩ := hr.result_eq
      obtain ⟨k', hk', hkind'⟩ := hr'.result_eq
      simp only [hk, hk', hkind, hkind']
  | more hr _ ih =>
    obtain ⟨label, stop, map, hr⟩ := hr
    obtain ⟨k, hk, hkind⟩ := hr.result_eq
    rw [List.foldl_cons, ih]
    simp only [hk, hkind, reduceCtorEq, if_false]

theorem successesOf_twinned {ids ids' : List ResultId} (hids : s.Gives s' ids ids') :
    Lined (s.Same s') (fun _ => False) (successesOf s ids) (successesOf s' ids') := by
  unfold Store.Gives at hids
  induction hids with
  | nil => exact .nil
  | both hr _ ih =>
    rcases hr with ⟨f, stop, hr, hr'⟩ | ⟨kind, stop, map, -, hr, hr'⟩
    · rw [successesOf_cons_of_matched hr, successesOf_cons_of_matched hr']
      exact .both (.inl ⟨f, stop, hr, hr'⟩) ih
    · rw [successesOf_cons_of_failed hr.failed, successesOf_cons_of_failed hr'.failed]
      exact ih
  | more hr _ ih =>
    obtain ⟨label, stop, map, hr⟩ := hr
    rw [successesOf_cons_of_failed hr.failed]
    exact ih

theorem optionRel_imp {α β : Type} {R R' : α → β → Prop} (hR : ∀ {a b}, R a b → R' a b)
    {x : Option α} {y : Option β} (h : Option.Rel R x y) : Option.Rel R' x y := by
  cases h with
  | none => exact .none
  | some h => exact .some (hR h)

/-- The tables of later stores. -/
theorem Tables.Twinned.onward {t t' : Tables} (h : t.Twinned g t') {u u' : Store}
    (hstep : Store.Onward g t.store t'.store u u') :
    ({ t with store := u } : Tables).Twinned g { t' with store := u' } where
  store := hstep.twinned
  memo hsite := optionRel_imp (fun hset => hset.onward hstep) (h.memo hsite)
  counts := h.counts
  cutoffs := h.cutoffs

section

variable {site site' : Site}

/-- Tables that are changed at sites that correspond. -/
theorem getElem?_insert_twinned (hsites : Relator.BiUnique g.SameSite)
    (hsite : g.SameSite site site') {α : Type} {R : Option α → Option α → Prop}
    {map map' : Std.TreeMap Site α} {a a' : α} (ha : R (some a) (some a'))
    (h : ∀ {site site'}, g.SameSite site site' → R map[site]? map'[site']?) {other other' : Site}
    (hother : g.SameSite other other') :
    R (map.insert site a)[other]? (map'.insert site' a')[other']? := by
  rw [Std.TreeMap.getElem?_insert, Std.TreeMap.getElem?_insert]
  simp only [Std.LawfulEqCmp.compare_eq_iff_eq]
  by_cases heq : site = other
  · rwa [if_pos heq, if_pos ((Relator.rel_eq hsites hsite hother).1 heq)]
  · rw [if_neg heq, if_neg fun heq' => heq ((Relator.rel_eq hsites hsite hother).2 heq')]
    exact h hother

theorem Tables.Twinned.record (hsites : Relator.BiUnique g.SameSite) {t t' : Tables}
    (h : t.Twinned g t') (hsite : g.SameSite site site') {results results' : List ResultId}
    (hresults : t.store.Gives t'.store results results') :
    (t.record site results).Twinned g (t'.record site' results') where
  store := h.store
  memo hother := by
    refine getElem?_insert_twinned hsites hsite (.some ?_) h.memo hother
    refine SetLined.insertAll h.store.oneToOne (fun _ => not_false) ?_
      (successesOf_twinned hresults)
    rw [Std.TreeMap.getD_eq_getD_getElem?, Std.TreeMap.getD_eq_getD_getElem?]
    have hknown := h.memo hsite
    generalize t.memo[site]? = known at hknown ⊢
    generalize t'.memo[site']? = known' at hknown ⊢
    cases hknown with
    | none => exact .empty
    | some hset => exact hset
  counts := h.counts
  cutoffs hother := by
    simp only [Tables.record]
    rw [← lastCutoff?_twinned hresults]
    cases lastCutoff? t.store results with
    | none => exact h.cutoffs hother
    | some map => exact getElem?_insert_twinned hsites hsite rfl h.cutoffs hother

/-- The same is given again, or nothing. -/
theorem replay?_twinned {t t' : Tables} (h : t.Twinned g t') (hsite : g.SameSite site site')
    (context : Context) :
    Option.Rel (t.store.Gives t'.store) (t.replay? site context) (t'.replay? site' context) := by
  unfold Tables.replay?
  rw [← hsite.index_eq, ← h.cutoffs hsite]
  have hknown := h.memo hsite
  generalize t.memo[site]? = known at hknown ⊢
  generalize t'.memo[site']? = known' at hknown ⊢
  cases hknown with
  | none => exact .none
  | some hset =>
    dsimp only
    rw [← hset.isEmpty_eq, ← (h.store.maps _).allows_eq (h.store.maps _)]
    split
    · exact .some hset.keeps.lined
    · exact .none

end

/-! ### Steps -/

/-- A construct goes on with the same results. -/
theorem resume_twinned (hsites : Relator.BiUnique g.SameSite) {t t' : Tables}
    (ht : t.Twinned g t') {frame frame' : Frame}
    (hframe : FrameTwinned g t.store t'.store frame frame') {frames frames' : List Frame}
    (hframes : List.Forall₂ (FrameTwinned g t.store t'.store) frames frames')
    {results results' : List ResultId} (hresults : t.store.Gives t'.store results results') :
    (resume frame results frames t).Twinned g (resume frame' results' frames' t') := by
  obtain ⟨store, memo, counts, cutoffs⟩ := t
  obtain ⟨store', memo', counts', cutoffs'⟩ := t'
  have hstore : store.Twinned g store' := ht.store
  replace hframes : List.Forall₂ (FrameTwinned g store store') frames frames' := hframes
  replace hresults : store.Gives store' results results' := hresults
  -- the construct leaves later stores and turns to the same
  have hturn {turn turn' : Turn} {u u' : Store} (hstep : Store.Onward g store store' u u')
      (htwinned : TurnTwinned g u u' turn turn') :
      Machine.Twinned g ⟨turn.1, turn.2, ⟨u, memo, counts, cutoffs⟩⟩
        ⟨turn'.1, turn'.2, ⟨u', memo', counts', cutoffs'⟩⟩ :=
    ⟨htwinned, ht.onward hstep⟩
  cases hframe with
  | complete hsite => exact ⟨.give hframes hresults, ht.record hsites hsite hresults⟩
  | wrapped wrapper =>
    obtain ⟨made, made', u, u', hmade, hmade', hstep, hgives⟩ :=
      wrapResults_twinned hstore wrapper hresults
    simp only [resume, hmade, hmade']
    exact hturn hstep (.give (frames_onward hframes hstep) hgives)
  | option position =>
    obtain ⟨made, made', u, u', hmade, hmade', hstep, hmatches⟩ :=
      optionResults_twinned hstore hresults .empty
    obtain ⟨r, r', v, v', hr, hr', hstep', hsame⟩ :=
      success_alone hstep.twinned (rfl : Fragment.absent.parts = []) position
    simp only [resume, hmade, hmade', hr, hr']
    exact hturn (hstep.trans hstep') (.give (frames_onward hframes (hstep.trans hstep'))
      ((hmatches.onward hstep').insert hstep'.twinned hsame).keeps.lined)
  | @sequence context child later f stop _ _ _ _ _ _ hf hpending hfollowing hfinished =>
    obtain ⟨out, out', u, u', hout, hout', hstep, hkeeps⟩ :=
      extendSequence_twinned hstore hf stop hresults hfollowing
    simp only [resume, hout, hout']
    exact hturn hstep (nextSequence_twinned hstep.twinned context (frames_onward hframes hstep)
      (child :: later) (hpending.onward hstep) hkeeps (hfinished.onward hstep))
  | @choice context position mode label index later _ _ matched hfound =>
    obtain ⟨turn, turn', u, u', hresume, hresume', hstep, htwinned⟩ :=
      resumeChoice_twinned hstore context position mode label index later hfound matched hframes
        hresults
    simp only [resume, hresume, hresume']
    exact hturn hstep htwinned
  | @many frame frame' state state' isSeparator hframe hstate =>
    obtain ⟨f, stop, hr, hr'⟩ := hstate.matched
    obtain ⟨out, out', u, u', hout, hout', hstep, hmany⟩ := extendMany_twinned hstore
      (hstore.sound.exists_fragment hr) stop state.mark isSeparator hresults hframe
    simp only [resume, Store.Matched.result_eq hr, Store.Matched.result_eq hr', ← hstate.mark,
      hout, hout']
    exact hturn hstep (nextMany_twinned hmany (frames_onward hframes hstep))

/-- Both start to match a pattern, or give up. -/
theorem evaluate_twinned {g' : Grammar} (hg : g.Labelling g') (input : Input) (p : Pattern)
    (index : Nat) (context : Context) (h : s.Twinned g' s') {frames frames' : List Frame}
    (hframes : List.Forall₂ (FrameTwinned g' s s') frames frames') :
    (∃ turn turn' t t', evaluate g input p.unlabelled index context frames s = .ok (turn, t) ∧
      evaluate g' input p index context frames' s' = .ok (turn', t') ∧
      Store.Onward g' s s' t t' ∧ TurnTwinned g' t t' turn turn') ∨
    ∃ fault fault', evaluate g input p.unlabelled index context frames s = .error fault ∧
      evaluate g' input p index context frames' s' = .error fault' := by
  have hwrapped (wrapper : Wrapper) (child : PatternId) :
      TurnTwinned g' s s' (.call child index context, .wrapped wrapper :: frames)
        (.call child index context, .wrapped wrapper :: frames') :=
    .call (.cons (.wrapped wrapper) hframes)
  have hsingle {r r' : ResultId} {t t' : Store} (hstep : Store.Onward g' s s' t t')
      (hsame : t.Same t' r r') : TurnTwinned g' t t' (.give [r], frames) (.give [r'], frames') :=
    .give (frames_onward hframes hstep) (.singleton hsame)
  unfold evaluate
  rw [show p.unlabelled.kind = p.kind from rfl]
  cases p.kind with
  | consume terminal =>
    obtain ⟨r, r', t, t', hr, hr', hstep, hsame⟩ := matchToken_twinned h input terminal index
    simp only [hr, hr']
    exact .inl ⟨_, _, t, t', rfl, rfl, hstep, hsingle hstep hsame⟩
  | sequence children =>
    obtain ⟨r, r', t, t', hr, hr', hstep, hsame⟩ :=
      success_alone h (rfl : Fragment.sequenceStart.parts = []) index
    simp only [hr, hr']
    exact .inl ⟨_, _, t, t', rfl, rfl, hstep, nextSequence_twinned hstep.twinned context
      (frames_onward hframes hstep) children (.singleton hsame) .empty .empty⟩
  | choice alternatives mode names =>
    obtain ⟨turn, turn', t', hnext, hnext', hstep, htwinned⟩ := nextChoice_twinned h context index
      mode (p.label.bind g'.labelText?) 0 [] alternatives .empty false hframes
    exact .inl ⟨turn, turn', s, t', congrArg _ hnext, congrArg _ hnext', hstep, htwinned⟩
  | many item separator =>
    have hparts : ∀ q ∈ Fragment.manyStart.parts, ∃ part, s.fragments.get? q = some part :=
      List.forall_mem_nil _
    obtain ⟨r, r', t, t', f, hr, hr', hstep, hm, hm'⟩ := h.success_matched hparts index
    simp only [startMany, hr, hr']
    have hmany : ManyTwinned t t'
        ⟨context, item, separator, [⟨r, index, false⟩], [], ResultSet.empty.insert r, .empty⟩
        ⟨context, item, separator, [⟨r', index, false⟩], [], ResultSet.empty.insert r', .empty⟩ :=
      .intro (.cons ⟨⟨f, index, hm, hm'⟩, rfl, rfl⟩ .nil) .nil
        (Store.Matches.insert hstep.twinned .empty (.inl ⟨f, index, hm, hm'⟩)) .empty
    exact .inl ⟨_, _, t, t', rfl, rfl, hstep, nextMany_twinned hmany (frames_onward hframes hstep)⟩
  | option item =>
    exact .inl ⟨_, _, s, s', rfl, rfl, h.refl_onward, .call (.cons (.option index) hframes)⟩
  | thunk rule =>
    dsimp only
    rw [hg.ruleBody?_eq]
    cases g'.ruleBody? rule with
    | some body => exact .inl ⟨_, _, s, s', rfl, rfl, h.refl_onward, hwrapped .thunk body⟩
    | none => exact .inr ⟨_, _, rfl, rfl⟩
  | indent child =>
    exact .inl ⟨_, _, s, s', rfl, rfl, h.refl_onward, hwrapped .indent child⟩
  | group child =>
    exact .inl ⟨_, _, s, s', rfl, rfl, h.refl_onward, hwrapped .group child⟩
  | conditional child =>
    exact .inl ⟨_, _, s, s', rfl, rfl, h.refl_onward, hwrapped .conditional child⟩
  | literal text =>
    obtain ⟨r, r', t, t', hr, hr', hstep, hsame⟩ :=
      success_alone h (rfl : (Fragment.mark .literal).parts = []) index
    simp only [hr, hr']
    exact .inl ⟨_, _, t, t', rfl, rfl, hstep, hsingle hstep hsame⟩
  | line kind =>
    obtain ⟨r, r', t, t', hr, hr', hstep, hsame⟩ :=
      success_alone h (rfl : (Fragment.mark .line).parts = []) index
    simp only [hr, hr']
    exact .inl ⟨_, _, t, t', rfl, rfl, hstep, hsingle hstep hsame⟩

section

variable {g' : Grammar} (hg : g.Labelling g') (hc : g.Closed) (hl : g'.DistinctLabels)

include hg hc hl

theorem invoke_twinned (input : Input) (id : PatternId) (index : Nat) (context : Context)
    {t t' : Tables} (ht : t.Twinned g' t') {frames frames' : List Frame}
    (hframes : List.Forall₂ (FrameTwinned g' t.store t'.store) frames frames') :
    (invoke g input id index context frames t).Twinned g'
      (invoke g' input id index context frames' t') := by
  have hsites := hg.biUnique hc hl
  unfold invoke
  rw [hg.pattern?_eq]
  cases hp : g'.pattern? id with
  | none => exact .faulted _ _
  | some p =>
    have hsite := hg.sameSite hc hp index
    have hreplay := replay?_twinned ht hsite context
    simp only [Option.map_some]
    generalize t.replay? _ context = replayed at hreplay ⊢
    generalize t'.replay? _ context = replayed' at hreplay ⊢
    cases hreplay with
    | some hresults => exact .running ⟨.give hframes hresults, ht⟩
    | none =>
      obtain ⟨store, memo, counts, cutoffs⟩ := t
      obtain ⟨store', memo', counts', cutoffs'⟩ := t'
      have hstore : store.Twinned g' store' := ht.store
      have hcounts : counts.getD ⟨index, p.unlabelled.recognizer⟩ 0 =
          counts'.getD ⟨index, p.recognizer⟩ 0 := by
        rw [Std.TreeMap.getD_eq_getD_getElem?, Std.TreeMap.getD_eq_getD_getElem?]
        exact congrArg (Option.getD · 0) (ht.counts hsite)
      dsimp only
      rw [hcounts, show p.unlabelled.kind = p.kind from rfl]
      generalize counts'.getD ⟨index, p.recognizer⟩ 0 = count
      split
      · cases context.at? index with
        | none => exact .faulted _ _
        | some map =>
          obtain ⟨r, r', u, u', hr, hr', hstep, hsame⟩ :=
            hstore.failure (rfl : FailureKind.infiniteRecursion.isLabel = false) index map
          simp only [hr, hr']
          exact .running ⟨.give (frames_onward hframes hstep) (.singleton hsame),
            ht.onward hstep⟩
      · obtain ⟨inner, u, u', henter, henter', hstep⟩ :=
          hstore.enter hsites context hsite (count + 1)
        simp only [henter, henter']
        have hcomplete : List.Forall₂ (FrameTwinned g' u u')
            (.complete ⟨index, p.unlabelled.recognizer⟩ :: frames)
            (.complete ⟨index, p.recognizer⟩ :: frames') :=
          .cons (.complete hsite) (frames_onward hframes hstep)
        rcases evaluate_twinned hg input p index inner hstep.twinned hcomplete with
          ⟨⟨control, frames⟩, ⟨control', frames'⟩, v, v', hevaluate, hevaluate', hstep', hturn⟩ |
          ⟨fault, fault', hevaluate, hevaluate'⟩
        · simp only [hevaluate, hevaluate']
          have hlater := ht.onward (hstep.trans hstep')
          exact .running ⟨hturn, hlater.store, hlater.memo, fun hother =>
            getElem?_insert_twinned hsites hsite rfl ht.counts hother, hlater.cutoffs⟩
        · simp only [hevaluate, hevaluate']
          exact .faulted fault fault'

/-- One step keeps the machines together. -/
theorem step_twinned (input : Input) {m m' : Machine} (h : m.Twinned g' m') :
    (step g input m).Twinned g' (step g' input m') := by
  obtain ⟨control, frames, t⟩ := m
  obtain ⟨control', frames', t'⟩ := m'
  obtain ⟨hturn, ht⟩ := h
  cases hturn with
  | call hframes => exact invoke_twinned hg hc hl input _ _ _ ht hframes
  | give hframes hresults =>
    cases hframes with
    | nil => exact .finished ht.store hresults
    | cons hframe hframes =>
      exact .running (resume_twinned (hg.biUnique hc hl) ht hframe hframes hresults)

/-- A run keeps the machines together: both end with the same results, or are given up, or both go
on. -/
theorem run_twinned (input : Input) (fuel : Nat) {m m' : Machine} (h : m.Twinned g' m') :
    (run g input fuel m).Twinned g' (run g' input fuel m') := by
  induction fuel generalizing m m' with
  | zero => exact .running h
  | succ fuel ih =>
    have hstep := step_twinned hg hc hl input h
    simp only [run]
    generalize step g input m = p at hstep ⊢
    generalize step g' input m' = p' at hstep ⊢
    cases hstep with
    | running h => exact ih h
    | finished ht hresults => exact .finished ht hresults
    | faulted fault fault' => exact .faulted fault fault'

end

/-- The machines before they match a pattern at the first token. -/
theorem initial_twinned (g : Grammar) (id : PatternId) :
    (Machine.initial id).Twinned g (.initial id) where
  turn := .call .nil
  tables := by
    refine ⟨⟨Store.sound_empty, Store.sound_empty, rfl, rfl, fun n => ?_⟩, fun hsite => ?_,
      fun _ => rfl, fun _ => rfl⟩
    · have hnil : Store.empty.map n = [] := by cases n <;> rfl
      change RecursionMap.Twin g (Store.empty.map n) (Store.empty.map n)
      rw [hnil]
      exact RecursionMap.twin_nil g
    · exact .none

end ReversibleGrammar
