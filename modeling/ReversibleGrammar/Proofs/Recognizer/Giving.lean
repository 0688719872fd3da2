/-
What constructs give: something, and nothing twice.

A construct that sorts its results out lists each of them once, and one that only wraps them makes
different matches of different ones.  None of them loses all: failures stay where nothing matches,
and a repetition has at least no items.  Only a choice without alternatives has nothing to give.

* `ResultSet.Tidy` — a set lists what it has seen, each once;
* `Given`, `Frame.Tidy`, `Machine.Tidy` — results without repetitions, and some of them under a
  condition; frames that lead to such results; machines with nothing else;
* `resume_tidy`, `step_tidy`, `run_tidy` — one step keeps a machine tidy, and so does a run;
* `given_of_recognize` — so a recognition ends with such results.
-/
import ReversibleGrammar.Proofs.Recognizer.Listing
import ReversibleGrammar.Proofs.Recognizer.Simulation
import ReversibleGrammar.Recognizer.Parser

namespace ReversibleGrammar

/-! ### Sets of results -/

/-- What is seen is what is listed, and listed once. -/
structure ResultSet.Tidy (set : ResultSet) : Prop where
  faithful : set.Faithful
  nodup : set.toList.Nodup

namespace ResultSet

variable {set : ResultSet}

theorem tidy_empty : empty.Tidy := ⟨faithful_empty, List.nodup_nil⟩

theorem Tidy.insert (h : set.Tidy) (r : ResultId) : (set.insert r).Tidy := by
  refine ⟨h.faithful.insert r, ?_⟩
  rw [h.faithful.toList_insert r]
  split
  · exact h.nodup
  · rename_i hr
    exact h.nodup.append (List.nodup_singleton r) (by simpa using hr)

theorem Tidy.insertAll (h : set.Tidy) (rs : List ResultId) : (set.insertAll rs).Tidy := by
  induction rs generalizing set with
  | nil => exact h
  | cons r rs ih => exact ih (h.insert r)

theorem tidy_ofList (rs : List ResultId) : (ofList rs).Tidy := tidy_empty.insertAll rs

/-- There is something in a set if there was or if something is inserted. -/
theorem Tidy.insertAll_ne_nil (h : set.Tidy) {rs : List ResultId}
    (hsome : set.toList ≠ [] ∨ rs ≠ []) : (set.insertAll rs).toList ≠ [] := by
  obtain ⟨r, hr⟩ : ∃ r, r ∈ set.toList ∨ r ∈ rs := by
    rcases hsome with hset | hrs
    · exact (List.exists_mem_of_ne_nil _ hset).imp fun _ => .inl
    · exact (List.exists_mem_of_ne_nil _ hrs).imp fun _ => .inr
  exact List.ne_nil_of_mem ((h.faithful.mem_insertAll rs).2 hr)

theorem Tidy.insert_ne_nil (h : set.Tidy) (r : ResultId) : (set.insert r).toList ≠ [] :=
  List.ne_nil_of_mem ((h.faithful.mem_insert r).2 (.inr rfl))

end ResultSet

/-! ### Tidy machines -/

/-- Results without repetitions, and some of them under a condition. -/
structure Given (full : Prop) (results : List ResultId) : Prop where
  nodup : results.Nodup
  ne_nil : full → results ≠ []

/-- What a repetition has found is listed once, and there is some. -/
structure ManyFrame.Tidy (frame : ManyFrame) : Prop where
  emitted : frame.emitted.Tidy
  ne_nil : frame.emitted.toList ≠ []

/-- What the frame will give is kept in sets that list each result once. -/
def Frame.Tidy : Frame → Prop
  | .sequence frame => frame.following.Tidy ∧ frame.finished.Tidy
  | .choice frame => frame.found.Tidy
  | .many frame _ _ => frame.Tidy
  | .complete _ | .wrapped _ | .option _ => True

/-- What is given is given once, and what waits is tidy. -/
structure TurnTidy (full : Prop) (turn : Turn) : Prop where
  given : ∀ results, turn.1 = .give results → Given full results
  frames : ∀ frame ∈ turn.2, frame.Tidy

/-- What is remembered of a site is listed once. -/
def Tables.Tidy (t : Tables) : Prop :=
  ∀ {site : Site} {set : ResultSet}, t.memo[site]? = some set → set.Tidy

/-- The machine gives nothing twice, and will not. -/
structure Machine.Tidy (full : Prop) (m : Machine) : Prop where
  turn : TurnTidy full (m.control, m.frames)
  tables : m.tables.Tidy

/-- What the step comes to is tidy. -/
inductive Progress.Tidy (full : Prop) : Progress → Prop
  | running {m : Machine} (h : m.Tidy full) : Tidy full (.running m)
  | finished {results : List ResultId} (t : Tables) (h : Given full results) :
      Tidy full (.finished results t)
  | faulted (fault : Fault) : Tidy full (.faulted fault)

section

variable {full : Prop} {frames : List Frame}

theorem turnTidy_give (hframes : ∀ frame ∈ frames, frame.Tidy) {results : List ResultId}
    (h : Given full results) : TurnTidy full (.give results, frames) where
  given _ heq := Control.give.inj heq ▸ h
  frames := hframes

theorem turnTidy_call (hframes : ∀ frame ∈ frames, frame.Tidy) (id : PatternId) (index : Nat)
    (context : Context) : TurnTidy full (.call id index context, frames) where
  given _ heq := nomatch heq
  frames := hframes

theorem turnTidy_wait (frame : Frame) (hframe : frame.Tidy) (hframes : ∀ frame ∈ frames, frame.Tidy)
    (id : PatternId) (index : Nat) (context : Context) :
    TurnTidy full (.call id index context, frame :: frames) :=
  turnTidy_call (List.forall_mem_cons.2 ⟨hframe, hframes⟩) id index context

theorem given_singleton (r : ResultId) : Given full [r] :=
  ⟨List.nodup_singleton r, fun _ => List.cons_ne_nil r []⟩

/-! ### Sequences -/

/-- What is skipped before a match is set aside, and so is all if there is none. -/
theorem takeSuccess_fst (s : Store) (finished : ResultSet) (ids : List ResultId) :
    ∃ before, (takeSuccess s finished ids).1 = finished.insertAll before ∧
      ((takeSuccess s finished ids).2 = none → before = ids) := by
  induction ids generalizing finished with
  | nil => exact ⟨[], rfl, fun _ => rfl⟩
  | cons id ids ih =>
    unfold takeSuccess
    dsimp only
    split
    · exact ⟨[], rfl, nofun⟩
    · obtain ⟨before, hbefore, hnone⟩ := ih (finished.insert id)
      exact ⟨id :: before, hbefore, fun h => congrArg _ (hnone h)⟩

/-- A sequence gives something if it has kept something. -/
theorem nextSequence_tidy (context : Context) (hframes : ∀ frame ∈ frames, frame.Tidy)
    {children : List PatternId} {pending : List ResultId} {following finished : ResultSet}
    (hfollowing : following.Tidy) (hfinished : finished.Tidy) (s : Store)
    (hsome : full →
      pending ≠ [] ∨ finished.toList ≠ [] ∨ children ≠ [] ∧ following.toList ≠ []) :
    TurnTidy full (nextSequence context frames children pending following finished s) := by
  induction children generalizing pending following finished with
  | nil =>
    have hset := (ResultSet.tidy_ofList pending).insertAll finished.toList
    refine turnTidy_give hframes ⟨hset.nodup, fun hfull =>
      (ResultSet.tidy_ofList pending).insertAll_ne_nil ?_⟩
    rcases hsome hfull with hpending | hfinished | ⟨hnil, -⟩
    · exact .inl (ResultSet.tidy_empty.insertAll_ne_nil (.inr hpending))
    · exact .inr hfinished
    · exact absurd rfl hnil
  | cons child later ih =>
    obtain ⟨before, hbefore, hnone⟩ := takeSuccess_fst s finished pending
    have hset := hfinished.insertAll before
    unfold nextSequence
    rcases htake : takeSuccess s finished pending with ⟨finished', _ | ⟨current, rest⟩⟩ <;>
      rw [htake] at hbefore hnone <;> subst hbefore
    · obtain rfl := hnone rfl
      refine ih ResultSet.tidy_empty hset fun hfull => ?_
      rcases hsome hfull with hpending | hsome | ⟨-, hsome⟩
      · exact .inr (.inl (hfinished.insertAll_ne_nil (.inr hpending)))
      · exact .inr (.inl (hfinished.insertAll_ne_nil (.inl hsome)))
      · exact .inl hsome
    · exact turnTidy_wait (.sequence _) ⟨hfollowing, hset⟩ hframes _ _ _

/-- A prefix is extended by as many results as its child has. -/
theorem extendSequence_fst (current : Result) (ids : List ResultId) (following : ResultSet)
    (s : Store) : ∃ made, (extendSequence current ids following s).1 = following.insertAll made ∧
      made.length = ids.length := by
  induction ids generalizing following s with
  | nil => exact ⟨[], rfl, rfl⟩
  | cons id ids ih =>
    unfold extendSequence
    dsimp only
    split
    · obtain ⟨made, hmade, hlength⟩ := ih _ _
      exact ⟨_ :: made, hmade, congrArg Nat.succ hlength⟩
    · obtain ⟨made, hmade, hlength⟩ := ih (following.insert id) s
      exact ⟨id :: made, hmade, congrArg Nat.succ hlength⟩

/-! ### Choices -/

/-- A choice gives something once it has found something. -/
theorem nextChoice_tidy (frame : ChoiceFrame) (hframes : ∀ frame ∈ frames, frame.Tidy)
    (hfound : frame.found.Tidy) (later : List PatternId) (s : Store)
    (hsome : full → frame.found.toList ≠ [] ∨ later ≠ []) :
    TurnTidy full (nextChoice frame frames later s).1 := by
  cases later with
  | cons alternative later =>
    exact turnTidy_wait (.choice { frame with later }) hfound hframes _ _ _
  | nil =>
    simp only [nextChoice]
    split
    · exact turnTidy_give hframes ⟨(hfound.insert _).nodup, fun _ => hfound.insert_ne_nil _⟩
    · exact turnTidy_give hframes
        ⟨hfound.nodup, fun h => (hsome h).resolve_right fun hnil => hnil rfl⟩

/-- Each result of an alternative goes to the matches or to the failures. -/
theorem choiceResults_fst (index : Nat) (ids : List ResultId) (successes failures : ResultSet)
    (s : Store) : ∃ made failed, (choiceResults index ids successes failures s).1 =
      (successes.insertAll made, failures.insertAll failed) ∧
      made.length + failed.length = ids.length := by
  induction ids generalizing successes failures s with
  | nil => exact ⟨[], [], rfl, rfl⟩
  | cons id ids ih =>
    unfold choiceResults
    dsimp only
    split
    · obtain ⟨made, failed, hmade, hlength⟩ := ih _ failures _
      exact ⟨_ :: made, failed, hmade, by rw [List.length_cons, List.length_cons]; omega⟩
    · obtain ⟨made, failed, hmade, hlength⟩ := ih successes (failures.insert id) s
      exact ⟨made, id :: failed, hmade, by rw [List.length_cons, List.length_cons]; omega⟩

theorem resumeChoice_tidy (frame : ChoiceFrame) (hframes : ∀ frame ∈ frames, frame.Tidy)
    (hfound : frame.found.Tidy) {results : List ResultId} (hresults : full → results ≠ [])
    (s : Store) : TurnTidy full (resumeChoice frame results frames s).1 := by
  obtain ⟨made, failed, hmade, hlength⟩ := choiceResults_fst frame.index results .empty .empty s
  unfold resumeChoice
  rcases hchoice : choiceResults frame.index results .empty .empty s with
    ⟨⟨successes, failures⟩, t⟩
  rw [hchoice, Prod.mk.injEq] at hmade
  obtain ⟨rfl, rfl⟩ := hmade
  have hsuccesses := ResultSet.tidy_empty.insertAll made
  have hfailures := ResultSet.tidy_empty.insertAll failed
  dsimp only
  split
  · rename_i hordered
    refine turnTidy_give hframes ⟨hsuccesses.nodup, fun _ hnil => ?_⟩
    have hempty : (ResultSet.empty.insertAll made).isEmpty = true := by
      simpa [ResultSet.isEmpty, ResultSet.toList] using hnil
    simp [hempty] at hordered
  · refine nextChoice_tidy _ hframes ((hfound.insertAll _).insertAll _) _ t fun h => .inl ?_
    have hsome : made ≠ [] ∨ failed ≠ [] := by
      rw [← List.length_pos_iff, ← List.length_pos_iff]
      have hpos := List.length_pos_iff.2 (hresults h)
      omega
    refine (hfound.insertAll _).insertAll_ne_nil (hsome.imp (fun hmade => ?_) fun hfailed => ?_)
    · exact hfound.insertAll_ne_nil (.inr (ResultSet.tidy_empty.insertAll_ne_nil (.inr hmade)))
    · exact ResultSet.tidy_empty.insertAll_ne_nil (.inr hfailed)

/-! ### Repetitions -/

theorem callMany_tidy {frame : ManyFrame} (h : frame.Tidy) (state : PartialMany)
    (hframes : ∀ frame ∈ frames, frame.Tidy) (s : Store) :
    TurnTidy full (callMany frame state frames s) := by
  unfold callMany
  split <;> exact turnTidy_wait (.many frame state _) h hframes _ _ _

theorem nextMany_tidy {frame : ManyFrame} (h : frame.Tidy)
    (hframes : ∀ frame ∈ frames, frame.Tidy) (s : Store) :
    TurnTidy full (nextMany frame frames s) := by
  have hframe (front back : List PartialMany) : ({ frame with front, back } : ManyFrame).Tidy :=
    ⟨h.emitted, h.ne_nil⟩
  unfold nextMany
  split
  · exact callMany_tidy (hframe _ _) _ hframes s
  · split
    · exact callMany_tidy (hframe _ _) _ hframes s
    · exact turnTidy_give hframes ⟨List.nodup_reverse.2 h.emitted.nodup, fun _ hnil =>
        h.ne_nil (List.reverse_eq_nil_iff.1 hnil)⟩

theorem ManyFrame.Tidy.emit {frame : ManyFrame} (h : frame.Tidy) (extended : ResultId)
    (stop : Nat) : (emitMany frame extended stop).Tidy := by
  unfold emitMany
  split
  · exact h
  · exact ⟨h.emitted.insert extended, h.emitted.insert_ne_nil extended⟩

theorem ManyFrame.Tidy.separate {frame : ManyFrame} (h : frame.Tidy) (extended : ResultId)
    (mark : Nat) : (separateMany frame extended mark).Tidy := by
  unfold separateMany
  split
  · exact h
  · exact ⟨h.emitted, h.ne_nil⟩

theorem extendMany_tidy (parent : Result) (mark : Nat) (isSeparator : Bool) (ids : List ResultId)
    {frame : ManyFrame} (h : frame.Tidy) (s : Store) :
    (extendMany parent mark isSeparator ids frame s).1.Tidy := by
  induction ids generalizing frame s with
  | nil => exact h
  | cons id ids ih =>
    unfold extendMany
    dsimp only
    split
    · split
      · exact ih h s
      · cases isSeparator with
        | true => exact ih (h.separate _ mark) _
        | false => exact ih (h.emit _ _) _
    · exact ih h s

/-! ### Options and wrappers -/

theorem optionResults_tidy (ids : List ResultId) {out : ResultSet} (h : out.Tidy) (s : Store) :
    (optionResults ids out s).1.Tidy := by
  induction ids generalizing out s with
  | nil => exact h
  | cons id ids ih =>
    unfold optionResults
    dsimp only
    split
    · exact ih (h.insert _) _
    · exact ih h s

/-- Different matches are made of different ones, and the same of the same. -/
theorem Store.Sound.biUnique_remade {s : Store} (hs : s.Sound) {make : FragmentId → Fragment}
    (hmake : Function.Injective make) : Relator.BiUnique (s.Remade make) := by
  constructor
  · rintro id id' made (⟨f, stop, hid, g, hmade, hg⟩ | ⟨hid, rfl⟩)
      (⟨f', stop', hid', g', hmade', hg'⟩ | ⟨hid', rfl⟩)
    · obtain ⟨rfl, rfl⟩ := hmade.unique hmade'
      obtain rfl := hmake (Option.some.inj (hg.symm.trans hg'))
      exact hs.eq_of_result hid hid'
    · obtain ⟨k, stop', map, hk⟩ := hid'
      cases hmade.symm.trans hk
    · obtain ⟨k, stop, map, hk⟩ := hid
      cases hmade'.symm.trans hk
    · rfl
  · rintro id made made' (⟨f, stop, hid, g, hmade, hg⟩ | ⟨hid, rfl⟩)
      (⟨f', stop', hid', g', hmade', hg'⟩ | ⟨hid', rfl⟩)
    · obtain ⟨rfl, rfl⟩ := hid.unique hid'
      obtain rfl := hs.eq_of_get? hg hg'
      exact hs.eq_of_result hmade hmade'
    · obtain ⟨k, stop', map, hk⟩ := hid'
      cases hid.symm.trans hk
    · obtain ⟨k, stop, map, hk⟩ := hid
      cases hid'.symm.trans hk
    · rfl

/-- A wrapper gives a result for each that it is given. -/
theorem wrapResults_given {s : Store} (hs : s.Sound) (wrapper : Wrapper) {ids : List ResultId}
    (hids : ∀ r ∈ ids, s.Known r) (h : Given full ids) :
    Given full (ids.mapM (wrapResult wrapper) s).1 := by
  obtain ⟨made, t, hmade, hextends, hremade⟩ := wrapResult_remade wrapper hs hids
  rw [hmade]
  have hwrapped : Function.Injective (Fragment.wrapped wrapper) := fun _ _ h =>
    (Fragment.wrapped.inj h).2
  refine ⟨(List.rel_nodup (hextends.sound.biUnique_remade hwrapped) hremade).1 h.nodup,
    fun hfull hnil => h.ne_nil hfull ?_⟩
  exact List.length_eq_zero_iff.1 (hremade.length_eq.trans (congrArg List.length hnil))

end

/-! ### Steps -/

section

variable {full : Prop} {g : Grammar} {input : Input} {frames : List Frame}

theorem Tables.Tidy.record {t : Tables} (h : t.Tidy) (site : Site) (results : List ResultId) :
    (t.record site results).Tidy := by
  intro other set hset
  simp only [Tables.record] at hset
  rw [Std.TreeMap.getElem?_insert] at hset
  split at hset
  · obtain rfl := Option.some.inj hset
    refine ResultSet.Tidy.insertAll ?_ _
    rw [Std.TreeMap.getD_eq_getD_getElem?]
    cases hmemo : t.memo[site]? with
    | some known => exact h hmemo
    | none => exact ResultSet.tidy_empty
  · exact h hset

/-- A construct goes on with results that are given once. -/
theorem resume_tidy {t : Tables} (hs : t.store.Sound) (ht : t.Tidy) {frame : Frame}
    (hframe : frame.Tidy) (hframes : ∀ frame ∈ frames, frame.Tidy) {results : List ResultId}
    (hknown : ∀ r ∈ results, t.store.Known r) (hresults : Given full results) :
    (resume frame results frames t).Tidy full := by
  obtain ⟨store, memo, counts, cutoffs⟩ := t
  cases frame with
  | complete site => exact ⟨turnTidy_give hframes hresults, ht.record site results⟩
  | wrapped wrapper =>
    exact ⟨turnTidy_give hframes (wrapResults_given hs wrapper hknown hresults), ht⟩
  | option position =>
    have hout := optionResults_tidy results ResultSet.tidy_empty store
    exact ⟨turnTidy_give hframes ⟨(hout.insert _).nodup, fun _ => hout.insert_ne_nil _⟩, ht⟩
  | sequence frame =>
    obtain ⟨made, hmade, hlength⟩ := extendSequence_fst frame.current results frame.following store
    have hfollowing := hframe.1.insertAll made
    refine ⟨nextSequence_tidy frame.context hframes (hmade ▸ hfollowing) hframe.2 _
      fun hfull => .inr (.inr ⟨List.cons_ne_nil _ _, ?_⟩), ht⟩
    rw [hmade]
    refine hframe.1.insertAll_ne_nil (.inr fun hnil => hresults.ne_nil hfull ?_)
    exact List.length_eq_zero_iff.1 (hlength.symm.trans (congrArg List.length hnil))
  | choice frame => exact ⟨resumeChoice_tidy frame hframes hframe hresults.ne_nil store, ht⟩
  | many frame state isSeparator =>
    exact ⟨nextMany_tidy (extendMany_tidy _ _ _ _ hframe store) hframes _, ht⟩

/-- The pattern is no choice without alternatives. -/
def Pattern.Offers (p : Pattern) : Prop :=
  ∀ alternatives mode names, p.kind = .choice alternatives mode names → alternatives ≠ []

/-- What a pattern starts with is tidy. -/
theorem evaluate_tidy {p : Pattern} (hp : full → p.Offers) {index : Nat} {context : Context}
    (hframes : ∀ frame ∈ frames, frame.Tidy) {s s' : Store} {turn : Turn}
    (h : evaluate g input p index context frames s = .ok (turn, s')) : TurnTidy full turn := by
  have hcall {frame : Frame} (hframe : frame.Tidy) {child : PatternId}
      (h : Except.ok ((.call child index context, frame :: frames), s) =
        (.ok (turn, s') : Except Fault _)) : TurnTidy full turn := by
    cases h
    exact turnTidy_wait frame hframe hframes _ _ _
  have hsingle {x : ResultId × Store}
      (h : Except.ok ((.give [x.1], frames), x.2) = (.ok (turn, s') : Except Fault _)) :
      TurnTidy full turn := by
    cases h
    exact turnTidy_give hframes (given_singleton x.1)
  unfold evaluate at h
  cases hkind : p.kind <;> rw [hkind] at h
  case consume terminal => exact hsingle h
  case sequence children =>
    cases h
    exact nextSequence_tidy context hframes ResultSet.tidy_empty ResultSet.tidy_empty _
      fun _ => .inl (List.cons_ne_nil _ _)
  case choice alternatives mode names =>
    obtain rfl := congrArg Prod.fst (Except.ok.inj h)
    exact nextChoice_tidy _ hframes ResultSet.tidy_empty alternatives s
      fun hfull => .inr (hp hfull alternatives mode names hkind)
  case many item separator =>
    cases h
    exact nextMany_tidy ⟨ResultSet.tidy_empty.insert _, ResultSet.tidy_empty.insert_ne_nil _⟩
      hframes _
  case option item => exact @hcall (.option index) trivial _ h
  case thunk rule =>
    dsimp only at h
    split at h
    · exact @hcall (.wrapped .thunk) trivial _ h
    · cases h
  case indent child => exact @hcall (.wrapped .indent) trivial _ h
  case group child => exact @hcall (.wrapped .group) trivial _ h
  case conditional child reference before after =>
    exact @hcall (.wrapped .conditional) trivial _ h
  case literal text => exact @hsingle (Store.success (.mark .literal) index emptyMap s) h
  case line kind => exact @hsingle (Store.success (.mark .line) index emptyMap s) h

/-- What is given again is given once. -/
theorem Tables.Tidy.replay? {t : Tables} (ht : t.Tidy) {site : Site} {context : Context}
    {results : List ResultId} (h : t.replay? site context = some results) : Given full results := by
  unfold Tables.replay? at h
  split at h
  · cases h
  · rename_i set hset
    rw [Option.ite_none_right_eq_some] at h
    obtain ⟨hallowed, heq⟩ := h
    cases heq
    refine ⟨(ht hset).nodup, fun _ hnil => ?_⟩
    have hempty : set.isEmpty = true := by simpa [ResultSet.isEmpty, ResultSet.toList] using hnil
    simp [hempty] at hallowed

theorem invoke_tidy (hg : full → ∀ p ∈ g.patterns, p.Offers) (id : PatternId) (index : Nat)
    (context : Context) (hframes : ∀ frame ∈ frames, frame.Tidy) {t : Tables} (ht : t.Tidy) :
    (invoke g input id index context frames t).Tidy full := by
  unfold invoke
  cases hp : g.pattern? id with
  | none => exact .faulted _
  | some p =>
    dsimp only
    split
    · rename_i results hreplay
      exact .running ⟨turnTidy_give hframes (ht.replay? hreplay), ht⟩
    · obtain ⟨store, memo, counts, cutoffs⟩ := t
      dsimp only
      split
      · split
        · exact .faulted _
        · exact .running ⟨turnTidy_give hframes (given_singleton _), ht⟩
      · dsimp only [Store.enter]
        split
        · exact .faulted _
        · rename_i hevaluate
          have hcomplete : ∀ frame ∈ Frame.complete ⟨index, p.recognizer⟩ :: frames, frame.Tidy :=
            List.forall_mem_cons.2 ⟨trivial, hframes⟩
          have hoffers (hfull : full) : p.Offers := hg hfull p (Array.mem_of_getElem? hp)
          exact .running ⟨evaluate_tidy hoffers hcomplete hevaluate, ht⟩

/-- One step keeps a machine tidy. -/
theorem step_tidy (hg : full → ∀ p ∈ g.patterns, p.Offers) {m : Machine} {input' : Input}
    {m' : Machine} (hpaired : m.Paired input input' m') (h : m.Tidy full) :
    (step g input m).Tidy full := by
  obtain ⟨control, frames, t⟩ := m
  obtain ⟨control', frames', t'⟩ := m'
  obtain ⟨hturn, ht⟩ := h
  obtain ⟨hsame, htables⟩ := hpaired
  cases hsame with
  | call => exact invoke_tidy hg _ _ _ hturn.frames ht
  | @give results _ _ _ hframes hresults =>
    have hgiven : Given full results := hturn.given results rfl
    cases frames with
    | nil => exact .finished t hgiven
    | cons frame frames =>
      obtain ⟨hframe, hrest⟩ := List.forall_mem_cons.1 hturn.frames
      exact .running (resume_tidy htables.store.sound ht hframe hrest
        (fun r hr => (hresults r hr).known) hgiven)

/-- A run keeps a machine tidy. -/
theorem run_tidy (hg : full → ∀ p ∈ g.patterns, p.Offers) (fuel : Nat) {m : Machine}
    (hpaired : m.Paired input input m) (h : m.Tidy full) : (run g input fuel m).Tidy full := by
  induction fuel generalizing m with
  | zero => exact .running h
  | succ fuel ih =>
    have hnext := step_tidy hg hpaired h
    have hsame : g.SameTypes input input := ⟨rfl, fun _ _ _ _ => rfl⟩
    have hpairedNext := step_paired hsame hpaired
    simp only [run]
    generalize step g input m = p at hnext hpairedNext
    cases hnext with
    | running h =>
      cases hpairedNext with
      | running hpaired => exact ih hpaired h
    | finished t h => exact .finished t h
    | faulted fault => exact .faulted fault

theorem initial_tidy (id : PatternId) : (Machine.initial id).Tidy full where
  turn := turnTidy_call (List.forall_mem_nil _) id 0 []
  tables hmemo := by simp [Machine.initial, Tables.empty] at hmemo

/-! ### Recognitions -/

/-- A recognition ends with results that the store knows, each once, and with some unless a choice
has no alternatives. -/
theorem given_of_recognize {τ ν : Type} [Token τ ν] {config : ParserConfig} {id : PatternId}
    {tokens : Array τ} {results : List ResultId} {store : Store}
    (h : recognize g config id tokens = .ok (results, store)) :
    Given (∀ p ∈ g.patterns, p.Offers) results ∧ store.Sound ∧ ∀ r ∈ results, store.Known r := by
  let input := Input.ofTokens tokens
  have hsame : g.SameTypes input input := ⟨rfl, fun _ _ _ _ => rfl⟩
  have hpaired := run_paired hsame config.fuel (initial_paired input input id)
  have htidy : (run g input config.fuel (.initial id)).Tidy (∀ p ∈ g.patterns, p.Offers) :=
    run_tidy (fun hoffers => hoffers) config.fuel (initial_paired input input id) (initial_tidy id)
  unfold recognize at h
  generalize run g input config.fuel (.initial id) = p at h hpaired htidy
  cases htidy with
  | running => cases h
  | faulted => cases h
  | finished t hgiven =>
    cases h
    cases hpaired with
    | finished ht hresults => exact ⟨hgiven, ht.store.sound, fun r hr => (hresults r hr).known⟩

end

end ReversibleGrammar
