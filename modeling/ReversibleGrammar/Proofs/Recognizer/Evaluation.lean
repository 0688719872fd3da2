/-
Runs of the machine as evaluations.

The frames that wait below a piece of work have no part in it, so a run splits
into the evaluations of single calls, one inside the other.

* `Task` — a call, results to give, or a construct that waits for a call;
* `Yields` — what a task leads to, rule by rule;
* `Faults` — the site without a context at which a task is given up;
* `run_cases` — a run of a closed grammar's machine is an evaluation, ends without a context
  for a site, or is not done.
-/
import ReversibleGrammar.Grammar.Basic
import ReversibleGrammar.Recognizer.Parser
import ReversibleGrammar.Proofs.Listwise

namespace ReversibleGrammar

/-- A piece of work above the frames that wait for it. -/
inductive Task where
  | call (id : PatternId) (index : Nat) (context : Context)
  | give (results : List ResultId)
  /-- A call that one frame waits for. -/
  | wait (id : PatternId) (index : Nat) (context : Context) (frame : Frame)

/-- Every pattern that the frame may still call has a number below `size`. -/
def Frame.Within (size : Nat) : Frame → Prop
  | sequence frame => frame.child < size ∧ ∀ c ∈ frame.later, c < size
  | choice frame => ∀ c ∈ frame.later, c < size
  | many frame _ _ => frame.item < size ∧ ∀ c, frame.separator = some c → c < size
  | complete _ | wrapped _ | option _ => True

namespace Task

/-- The task above waiting frames. -/
def turn : Task → List Frame → Turn
  | call id index context, frames => (.call id index context, frames)
  | give results, frames => (.give results, frames)
  | wait id index context frame, frames => (.call id index context, frame :: frames)

/-- The machine at the task. -/
def machine (task : Task) (frames : List Frame) (t : Tables) : Machine :=
  ⟨(task.turn frames).1, (task.turn frames).2, t⟩

/-- Every pattern that the task may still call has a number below `size`. -/
def Within (size : Nat) : Task → Prop
  | call id _ _ => id < size
  | give _ => True
  | wait id _ _ frame => id < size ∧ frame.Within size

/-- A construct has moved: it gives results, or waits for a call. -/
def Moves (size : Nat) (task : Task) : Prop :=
  task.Within size ∧ ∀ id index context, task ≠ .call id index context

theorem moves_give (size : Nat) (results : List ResultId) : (give results).Moves size :=
  ⟨trivial, by simp⟩

theorem moves_wait {size : Nat} {id : PatternId} (hid : id < size) (index : Nat)
    (context : Context) {frame : Frame} (hframe : frame.Within size) :
    (wait id index context frame).Moves size :=
  ⟨⟨hid, hframe⟩, by simp⟩

theorem turn_give {task : Task} {frames : List Frame} {results : List ResultId}
    (h : task.turn frames = (.give results, frames)) : task = .give results := by
  cases task with
  | give other =>
    injection h with h
    injection h with h
    rw [h]
  | _ => cases h

theorem turn_wait {task : Task} {frames : List Frame} {id : PatternId} {index : Nat}
    {context : Context} {frame : Frame}
    (h : task.turn frames = (.call id index context, frame :: frames)) :
    task = .wait id index context frame := by
  cases task with
  | wait =>
    injection h with h h'
    injection h with hid hindex hcontext
    injection h' with hframe
    rw [hid, hindex, hcontext, hframe]
  | call =>
    injection h with _ h
    exact absurd h (List.cons_ne_self frame frames).symm
  | give => cases h

theorem of_machine {task : Task} {frames frames' : List Frame} {control : Control} {t u : Tables}
    (h : (⟨control, frames', t⟩ : Machine) = task.machine frames u) :
    (control, frames') = task.turn frames ∧ t = u := by
  injection h with hcontrol hframes ht
  exact ⟨Prod.ext hcontrol hframes, ht⟩

end Task

/-! ### The turns of the constructs -/

section Turns

variable {size : Nat}

theorem nextSequence_task (context : Context) (children : List PatternId)
    (pending : List ResultId) (following finished : ResultSet) (s : Store)
    (hsize : ∀ c ∈ children, c < size) :
    ∃ task : Task, (∀ frames, nextSequence context frames children pending following finished s =
      task.turn frames) ∧ task.Moves size := by
  induction children generalizing pending following finished with
  | nil => exact ⟨.give _, fun _ => rfl, Task.moves_give _ _⟩
  | cons child later ih =>
    have hlater : ∀ c ∈ later, c < size := fun c hc => hsize c (List.mem_cons_of_mem child hc)
    unfold nextSequence
    rcases htake : takeSuccess s finished pending with ⟨finished', _ | ⟨current, pending'⟩⟩
    · exact ih following.toList .empty finished' hlater
    · exact ⟨.wait child current.stop context (.sequence _), fun _ => rfl,
        Task.moves_wait (hsize child List.mem_cons_self) _ _
          ⟨hsize child List.mem_cons_self, hlater⟩⟩

theorem nextChoice_task (frame : ChoiceFrame) (later : List PatternId) (s : Store)
    (hsize : ∀ c ∈ later, c < size) :
    ∃ (task : Task) (t : Store), (∀ frames, nextChoice frame frames later s =
      (task.turn frames, t)) ∧ task.Moves size := by
  cases later with
  | cons alternative later =>
    exact ⟨.wait alternative frame.position frame.context (.choice _), s, fun _ => rfl,
      Task.moves_wait (hsize alternative List.mem_cons_self) _ _
        fun c hc => hsize c (List.mem_cons_of_mem alternative hc)⟩
  | nil =>
    simp only [nextChoice]
    split
    · exact ⟨.give _, _, fun _ => rfl, Task.moves_give _ _⟩
    · exact ⟨.give _, s, fun _ => rfl, Task.moves_give _ _⟩

theorem resumeChoice_task (frame : ChoiceFrame) (results : List ResultId) (s : Store)
    (hsize : ∀ c ∈ frame.later, c < size) :
    ∃ (task : Task) (t : Store), (∀ frames, resumeChoice frame results frames s =
      (task.turn frames, t)) ∧ task.Moves size := by
  unfold resumeChoice
  rcases choiceResults frame.index results .empty .empty s with ⟨⟨successes, failures⟩, t⟩
  dsimp only
  split
  · exact ⟨.give _, t, fun _ => rfl, Task.moves_give _ _⟩
  · exact nextChoice_task _ frame.later t hsize

theorem callMany_task (frame : ManyFrame) (state : PartialMany) (s : Store)
    (hsize : (Frame.many frame state true).Within size) :
    ∃ task : Task, (∀ frames, callMany frame state frames s = task.turn frames) ∧
      task.Moves size := by
  unfold callMany
  split
  · rename_i separator hseparator _
    exact ⟨.wait separator _ frame.context (.many frame state true), fun _ => rfl,
      Task.moves_wait (hsize.2 separator hseparator) _ _ hsize⟩
  · exact ⟨.wait frame.item _ frame.context (.many frame state false), fun _ => rfl,
      Task.moves_wait hsize.1 _ _ hsize⟩

theorem nextMany_task (frame : ManyFrame) (s : Store)
    (hsize : ∀ state, (Frame.many frame state true).Within size) :
    ∃ task : Task, (∀ frames, nextMany frame frames s = task.turn frames) ∧
      task.Moves size := by
  unfold nextMany
  split
  · rename_i state front _
    exact callMany_task { frame with front } state s (hsize state)
  · split
    · rename_i state front _
      exact callMany_task { frame with front, back := [] } state s (hsize state)
    · exact ⟨.give _, fun _ => rfl, Task.moves_give _ _⟩

theorem separateMany_parts (frame : ManyFrame) (extended : ResultId) (mark : Nat) :
    (separateMany frame extended mark).item = frame.item ∧
      (separateMany frame extended mark).separator = frame.separator := by
  unfold separateMany
  split <;> exact ⟨rfl, rfl⟩

theorem emitMany_parts (frame : ManyFrame) (extended : ResultId) (stop : Nat) :
    (emitMany frame extended stop).item = frame.item ∧
      (emitMany frame extended stop).separator = frame.separator := by
  unfold emitMany
  split <;> exact ⟨rfl, rfl⟩

/-- Extending a repetition keeps its item and its separator. -/
theorem extendMany_parts (parent : Result) (mark : Nat) (isSeparator : Bool)
    (ids : List ResultId) (frame : ManyFrame) (s : Store) :
    (extendMany parent mark isSeparator ids frame s).1.item = frame.item ∧
      (extendMany parent mark isSeparator ids frame s).1.separator = frame.separator := by
  induction ids generalizing frame s with
  | nil => exact ⟨rfl, rfl⟩
  | cons id ids ih =>
    unfold extendMany
    dsimp only
    split
    · split
      · exact ih frame s
      · cases isSeparator with
        | true =>
          exact ⟨(ih _ _).1.trans (separateMany_parts ..).1,
            (ih _ _).2.trans (separateMany_parts ..).2⟩
        | false =>
          exact ⟨(ih _ _).1.trans (emitMany_parts ..).1, (ih _ _).2.trans (emitMany_parts ..).2⟩
    · exact ih frame s

end Turns

/-- Starting to match a pattern of a closed grammar leads to a task. -/
theorem evaluate_task {g : Grammar} (hg : g.Closed) (input : Input) {id : PatternId} {p : Pattern}
    (hp : g.pattern? id = some p) (index : Nat) (context : Context) (s : Store) :
    ∃ (task : Task) (t : Store), (∀ frames, evaluate g input p index context frames s =
      .ok (task.turn frames, t)) ∧ task.Moves g.patterns.size := by
  have hchildren := (hg.closedAt id p hp).children_lt
  have hrule := (hg.closedAt id p hp).rule_lt
  unfold evaluate
  cases hkind : p.kind with
  | consume terminal =>
    exact ⟨.give [(matchToken input terminal index s).1], _, fun _ => rfl, Task.moves_give _ _⟩
  | sequence children =>
    rw [hkind] at hchildren
    rcases hinitial : Store.success .sequenceStart index emptyMap s with ⟨initial, t⟩
    obtain ⟨task, htask, hwithin⟩ :=
      nextSequence_task context children [initial] .empty .empty t hchildren
    exact ⟨task, t, fun frames => by simp only [htask frames], hwithin⟩
  | choice alternatives mode names =>
    rw [hkind] at hchildren
    obtain ⟨task, t, htask, hwithin⟩ := nextChoice_task
      { context, position := index, mode, label := p.label.bind g.labelText?, index := 0,
        later := [], found := .empty, matched := false } alternatives s hchildren
    exact ⟨task, t, fun frames => by simp only [htask frames], hwithin⟩
  | many item separator =>
    rw [hkind] at hchildren
    rcases hinitial : Store.success .manyStart index emptyMap s with ⟨initial, t⟩
    obtain ⟨task, htask, hwithin⟩ := nextMany_task
      { context, item, separator, front := [⟨initial, index, false⟩], back := [],
        emitted := ResultSet.empty.insert initial, separated := .empty } t
      (fun _ => ⟨hchildren item List.mem_cons_self, fun c hc =>
        hchildren c (List.mem_cons_of_mem item (by simpa using hc))⟩)
    exact ⟨task, t, fun frames => by simp only [startMany, hinitial, htask frames], hwithin⟩
  | option item =>
    rw [hkind] at hchildren
    exact ⟨.wait item index context (.option index), s, fun _ => rfl,
      Task.moves_wait (hchildren item List.mem_cons_self) _ _ trivial⟩
  | thunk rule =>
    have hlt := hrule rule hkind
    have hbody := hg.body_lt rule _ (Array.getElem?_eq_getElem hlt)
    simp only [Grammar.ruleBody?, Array.getElem?_eq_getElem hlt, Option.map_some]
    exact ⟨.wait _ index context (.wrapped .thunk), s, fun _ => rfl,
      Task.moves_wait hbody _ _ trivial⟩
  | indent child =>
    rw [hkind] at hchildren
    exact ⟨.wait child index context (.wrapped .indent), s, fun _ => rfl,
      Task.moves_wait (hchildren child List.mem_cons_self) _ _ trivial⟩
  | group child =>
    rw [hkind] at hchildren
    exact ⟨.wait child index context (.wrapped .group), s, fun _ => rfl,
      Task.moves_wait (hchildren child List.mem_cons_self) _ _ trivial⟩
  | conditional child _ _ _ =>
    rw [hkind] at hchildren
    exact ⟨.wait child index context (.wrapped .conditional), s, fun _ => rfl,
      Task.moves_wait (hchildren child List.mem_cons_self) _ _ trivial⟩
  | literal text =>
    exact ⟨.give [(Store.success (.mark .literal) index emptyMap s).1], _, fun _ => rfl,
      Task.moves_give _ _⟩
  | line kind =>
    exact ⟨.give [(Store.success (.mark .line) index emptyMap s).1], _, fun _ => rfl,
      Task.moves_give _ _⟩

/-- Handing results to a construct leads to a task. -/
theorem resume_task {size : Nat} (frame : Frame) (hsize : frame.Within size)
    (results : List ResultId) (t : Tables) :
    ∃ (task : Task) (u : Tables), (∀ frames, resume frame results frames t =
      task.machine frames u) ∧ task.Moves size := by
  obtain ⟨store, memo, counts, cutoffs⟩ := t
  cases frame with
  | complete site => exact ⟨.give results, _, fun _ => rfl, Task.moves_give _ _⟩
  | wrapped wrapper =>
    exact ⟨.give (results.mapM (wrapResult wrapper) store).1, _, fun _ => rfl, Task.moves_give _ _⟩
  | option position => exact ⟨.give _, _, fun _ => rfl, Task.moves_give _ _⟩
  | sequence frame =>
    rcases hextend : extendSequence frame.current results frame.following store with ⟨following, s⟩
    obtain ⟨task, htask, hwithin⟩ := nextSequence_task frame.context (frame.child :: frame.later)
      frame.pending following frame.finished s (List.forall_mem_cons.2 ⟨hsize.1, hsize.2⟩)
    exact ⟨task, ⟨s, memo, counts, cutoffs⟩,
      fun frames => by simp only [resume, hextend, htask frames, Task.machine], hwithin⟩
  | choice frame =>
    obtain ⟨task, s, htask, hwithin⟩ := resumeChoice_task frame results store hsize
    exact ⟨task, ⟨s, memo, counts, cutoffs⟩,
      fun frames => by simp only [resume, htask frames, Task.machine], hwithin⟩
  | many frame state isSeparator =>
    rcases hextend : extendMany (store.result state.result) state.mark isSeparator results frame
      store with ⟨extended, s⟩
    obtain ⟨hitem, hseparator⟩ := extendMany_parts (store.result state.result) state.mark
      isSeparator results frame store
    rw [hextend] at hitem hseparator
    obtain ⟨task, htask, hwithin⟩ := nextMany_task extended s
      (fun _ => ⟨hitem ▸ hsize.1, hseparator ▸ hsize.2⟩)
    exact ⟨task, ⟨s, memo, counts, cutoffs⟩,
      fun frames => by simp only [resume, hextend, htask frames, Task.machine], hwithin⟩

/-! ### Evaluations -/

/-- The tables after one more call of a site. -/
def Tables.entered (t : Tables) (site : Site) (store : Store) : Tables :=
  { t with store, counts := t.counts.insert site (t.counts.getD site 0 + 1) }

/-- What a task leads to: the results it gives, and the tables it leaves. -/
inductive Yields (g : Grammar) (input : Input) : Task → Tables → List ResultId → Tables → Prop
  /-- Results are given as they are. -/
  | give (results : List ResultId) (t : Tables) : Yields g input (.give results) t results t
  /-- What is remembered is given again. -/
  | replay {id : PatternId} {p : Pattern} {index : Nat} {context : Context} {t : Tables}
      {results : List ResultId} (hp : g.pattern? id = some p)
      (hreplay : t.replay? ⟨index, p.recognizer⟩ context = some results) :
      Yields g input (.call id index context) t results t
  /-- A call beyond the bound fails. -/
  | cutoff {id : PatternId} {p : Pattern} {index : Nat} {context : Context} {t : Tables}
      {map : MapId} {failure : ResultId} {store : Store} (hp : g.pattern? id = some p)
      (hreplay : t.replay? ⟨index, p.recognizer⟩ context = none)
      (hbounded : p.kind.isBounded = true)
      (hcount : input.size - index + 1 < t.counts.getD ⟨index, p.recognizer⟩ 0)
      (hmap : context.at? index = some map)
      (hfailure : Store.failure .infiniteRecursion index map t.store = (failure, store)) :
      Yields g input (.call id index context) t [failure] { t with store }
  /-- Any other call is matched, and what comes of it is remembered. -/
  | evaluate {id : PatternId} {p : Pattern} {index : Nat} {context inner : Context} {t u : Tables}
      {store store' : Store} {task : Task} {results : List ResultId}
      (hp : g.pattern? id = some p)
      (hreplay : t.replay? ⟨index, p.recognizer⟩ context = none)
      (hcount : p.kind.isBounded = true →
        t.counts.getD ⟨index, p.recognizer⟩ 0 ≤ input.size - index + 1)
      (henter : Store.enter context ⟨index, p.recognizer⟩
        (t.counts.getD ⟨index, p.recognizer⟩ 0 + 1) t.store = (inner, store))
      (hevaluate : ∀ frames, ReversibleGrammar.evaluate g input p index inner frames store =
        .ok (task.turn frames, store'))
      (h : Yields g input task (t.entered ⟨index, p.recognizer⟩ store') results u) :
      Yields g input (.call id index context) t results (u.record ⟨index, p.recognizer⟩ results)
  /-- A construct goes on with what its call leads to. -/
  | wait {id : PatternId} {index : Nat} {context : Context} {frame : Frame} {t u v w : Tables}
      {task : Task} {results results' : List ResultId}
      (h : Yields g input (.call id index context) t results u)
      (hresume : ∀ frames, resume frame results frames u = task.machine frames v)
      (h' : Yields g input task v results' w) :
      Yields g input (.wait id index context frame) t results' w

/-- The task is given up at a site beyond its bound that the path to it has no context for. -/
inductive Faults (g : Grammar) (input : Input) : Task → Tables → Site → Prop
  | call {id : PatternId} {p : Pattern} {index : Nat} {context : Context} {t : Tables}
      (hp : g.pattern? id = some p) (hreplay : t.replay? ⟨index, p.recognizer⟩ context = none)
      (hbounded : p.kind.isBounded = true)
      (hcount : input.size - index + 1 < t.counts.getD ⟨index, p.recognizer⟩ 0)
      (hmap : context.at? index = none) :
      Faults g input (.call id index context) t ⟨index, p.recognizer⟩
  | evaluate {id : PatternId} {p : Pattern} {index : Nat} {context inner : Context} {t : Tables}
      {store store' : Store} {task : Task} {site : Site} (hp : g.pattern? id = some p)
      (hreplay : t.replay? ⟨index, p.recognizer⟩ context = none)
      (hcount : p.kind.isBounded = true →
        t.counts.getD ⟨index, p.recognizer⟩ 0 ≤ input.size - index + 1)
      (henter : Store.enter context ⟨index, p.recognizer⟩
        (t.counts.getD ⟨index, p.recognizer⟩ 0 + 1) t.store = (inner, store))
      (hevaluate : ∀ frames, ReversibleGrammar.evaluate g input p index inner frames store =
        .ok (task.turn frames, store'))
      (h : Faults g input task (t.entered ⟨index, p.recognizer⟩ store') site) :
      Faults g input (.call id index context) t site
  | waitCall {id : PatternId} {index : Nat} {context : Context} {frame : Frame} {t : Tables}
      {site : Site} (h : Faults g input (.call id index context) t site) :
      Faults g input (.wait id index context frame) t site
  | waitNext {id : PatternId} {index : Nat} {context : Context} {frame : Frame}
      {t u v : Tables} {task : Task} {results : List ResultId} {site : Site}
      (h : Yields g input (.call id index context) t results u)
      (hresume : ∀ frames, resume frame results frames u = task.machine frames v)
      (h' : Faults g input task v site) : Faults g input (.wait id index context frame) t site

/-- What a call does. -/
theorem invoke_cases {g : Grammar} (input : Input) {id : PatternId} {p : Pattern}
    (hp : g.pattern? id = some p) (index : Nat) (context : Context) (t : Tables) :
    (∃ results, t.replay? ⟨index, p.recognizer⟩ context = some results ∧
      ∀ frames, invoke g input id index context frames t = .running ⟨.give results, frames, t⟩) ∨
    (t.replay? ⟨index, p.recognizer⟩ context = none ∧ p.kind.isBounded = true ∧
      input.size - index + 1 < t.counts.getD ⟨index, p.recognizer⟩ 0 ∧
      context.at? index = none ∧ ∀ frames, invoke g input id index context frames t =
        .faulted (.noContext ⟨index, p.recognizer⟩)) ∨
    (t.replay? ⟨index, p.recognizer⟩ context = none ∧ p.kind.isBounded = true ∧
      input.size - index + 1 < t.counts.getD ⟨index, p.recognizer⟩ 0 ∧
      ∃ map failure store, context.at? index = some map ∧
        Store.failure .infiniteRecursion index map t.store = (failure, store) ∧
        ∀ frames, invoke g input id index context frames t =
          .running ⟨.give [failure], frames, { t with store }⟩) ∨
    (t.replay? ⟨index, p.recognizer⟩ context = none ∧
      (p.kind.isBounded = true →
        t.counts.getD ⟨index, p.recognizer⟩ 0 ≤ input.size - index + 1) ∧
      ∃ inner store, Store.enter context ⟨index, p.recognizer⟩
          (t.counts.getD ⟨index, p.recognizer⟩ 0 + 1) t.store = (inner, store) ∧
        ∀ frames, invoke g input id index context frames t =
          match evaluate g input p index inner (.complete ⟨index, p.recognizer⟩ :: frames)
            store with
          | .error fault => .faulted fault
          | .ok ((control, frames), store') =>
            .running ⟨control, frames, t.entered ⟨index, p.recognizer⟩ store'⟩) := by
  obtain ⟨store, memo, counts, cutoffs⟩ := t
  unfold invoke
  simp only [hp]
  cases hreplay : Tables.replay? ⟨store, memo, counts, cutoffs⟩ ⟨index, p.recognizer⟩ context with
  | some results => exact .inl ⟨results, rfl, fun _ => rfl⟩
  | none =>
    by_cases hcount : (p.kind.isBounded && decide (input.size - index + 1 <
        counts.getD ⟨index, p.recognizer⟩ 0)) = true
    · have hbound := hcount
      rw [Bool.and_eq_true, decide_eq_true_iff] at hbound
      cases hmap : context.at? index with
      | none =>
        refine .inr (.inl ⟨rfl, hbound.1, hbound.2, rfl, fun frames => ?_⟩)
        simp only [hcount, if_true]
      | some map =>
        refine .inr (.inr (.inl ⟨rfl, hbound.1, hbound.2, map, _, _, rfl, rfl, fun frames => ?_⟩))
        simp only [hcount, if_true]
        rfl
    · refine .inr (.inr (.inr ⟨rfl, fun hbounded => ?_, _, _, rfl, fun frames => ?_⟩))
      · simpa [hbounded] using hcount
      · simp only [hcount]
        rfl

/-- A run ends up giving results of the task above the frames, is given up for lack of a context,
or is not done. -/
def Comes (g : Grammar) (input : Input) (task : Task) (frames : List Frame) (t : Tables)
    (fuel bound : Nat) : Prop :=
  (∃ results u rest, Yields g input task t results u ∧ rest ≤ bound ∧
    run g input fuel (task.machine frames t) = run g input rest ⟨.give results, frames, u⟩) ∨
  (∃ site, Faults g input task t site ∧
    run g input fuel (task.machine frames t) = .faulted (.noContext site)) ∨
  ∃ m, run g input fuel (task.machine frames t) = .running m

/-- A run of a closed grammar's machine starts with an evaluation of its task. -/
theorem run_cases {g : Grammar} (hg : g.Closed) (input : Input) (fuel : Nat) (task : Task)
    (htask : task.Within g.patterns.size) (frames : List Frame) (t : Tables) :
    Comes g input task frames t fuel fuel := by
  induction fuel using Nat.strongRecOn generalizing task frames t with
  | ind fuel ih =>
    have hcall (id : PatternId) (index : Nat) (context : Context) (hid : id < g.patterns.size)
        (frames : List Frame) (t : Tables) :
        Comes g input (.call id index context) frames t fuel (fuel - 1) := by
      cases fuel with
      | zero => exact .inr (.inr ⟨_, rfl⟩)
      | succ fuel =>
        have hp : g.pattern? id = some g.patterns[id] := Array.getElem?_eq_getElem hid
        have hrun {m : Machine} (h : invoke g input id index context frames t = .running m) :
            run g input (fuel + 1) ((Task.call id index context).machine frames t) =
              run g input fuel m := by
          simp only [run, step, Task.machine, Task.turn, h]
        rcases invoke_cases input hp index context t with ⟨results, hreplay, h⟩ |
          ⟨hreplay, hbounded, hcount, hmap, h⟩ |
          ⟨hreplay, hbounded, hcount, map, failure, store, hmap, hfailure, h⟩ |
          ⟨hreplay, hcount, inner, store, henter, h⟩
        · exact .inl ⟨results, t, fuel, .replay hp hreplay, le_rfl, hrun (h frames)⟩
        · refine .inr (.inl ⟨_, .call hp hreplay hbounded hcount hmap, ?_⟩)
          simp only [run, step, Task.machine, Task.turn, h]
        · exact .inl ⟨[failure], _, fuel, .cutoff hp hreplay hbounded hcount hmap hfailure, le_rfl,
            hrun (h frames)⟩
        · obtain ⟨task, store', htask, hwithin⟩ := evaluate_task hg input hp index inner store
          have hstep := h frames
          simp only [htask] at hstep
          have hstep := hrun hstep
          -- what the task gives is remembered first
          rcases ih fuel (Nat.lt_succ_self fuel) task hwithin.1 _ _ with
            ⟨results, u, rest, hyields, hle, heq⟩ | ⟨site, hfaults, heq⟩ | ⟨m, heq⟩
          · have hyields := Yields.evaluate hp hreplay hcount henter htask hyields
            cases rest with
            | zero => exact .inr (.inr ⟨_, hstep.trans heq⟩)
            | succ rest =>
              exact .inl ⟨results, _, rest, hyields, (Nat.le_succ rest).trans hle,
                hstep.trans heq⟩
          · exact .inr (.inl ⟨site, .evaluate hp hreplay hcount henter htask hfaults,
              hstep.trans heq⟩)
          · exact .inr (.inr ⟨m, hstep.trans heq⟩)
    cases task with
    | call id index context =>
      rcases hcall id index context htask frames t with ⟨results, u, rest, hyields, hle, heq⟩ | h
      · exact .inl ⟨results, u, rest, hyields, hle.trans (Nat.sub_le fuel 1), heq⟩
      · exact .inr h
    | give results => exact .inl ⟨results, t, fuel, .give results t, le_rfl, rfl⟩
    | wait id index context frame =>
      rcases hcall id index context htask.1 (frame :: frames) t with
        ⟨results, u, rest, hyields, hle, heq⟩ | ⟨site, hfaults, heq⟩ | h
      · cases rest with
        | zero => exact .inr (.inr ⟨_, heq⟩)
        | succ rest =>
          obtain ⟨task, v, hresume, hwithin⟩ := resume_task frame htask.2 results u
          have hstep : run g input (rest + 1) ⟨.give results, frame :: frames, u⟩ =
              run g input rest (task.machine frames v) := by
            simp only [run, step, hresume]
          rcases ih rest (by omega) task hwithin.1 frames v with
            ⟨results', w, rest', hyields', hle', heq'⟩ | ⟨site, hfaults, heq'⟩ | ⟨m, heq'⟩
          · exact .inl ⟨results', w, rest', .wait hyields hresume hyields', by omega,
              heq.trans (hstep.trans heq')⟩
          · exact .inr (.inl ⟨site, .waitNext hyields hresume hfaults,
              heq.trans (hstep.trans heq')⟩)
          · exact .inr (.inr ⟨m, heq.trans (hstep.trans heq')⟩)
      · exact .inr (.inl ⟨site, .waitCall hfaults, heq⟩)
      · exact .inr (.inr h)

/-- Recognition is an evaluation of the pattern at the first token. -/
theorem recognize_cases {τ ν : Type} [Token τ ν] {g : Grammar} (hg : g.Closed)
    (config : ParserConfig) {id : PatternId} (hid : id < g.patterns.size) (tokens : Array τ) :
    (∃ results u, Yields g (.ofTokens tokens) (.call id 0 []) .empty results u ∧
      recognize g config id tokens = .ok (results, u.store)) ∨
    (∃ site, Faults g (.ofTokens tokens) (.call id 0 []) .empty site ∧
      recognize g config id tokens = .error (.fault (.noContext site))) ∨
    recognize g config id tokens = .error .outOfFuel := by
  have hcases := run_cases hg (.ofTokens tokens) config.fuel (.call id 0 []) hid [] .empty
  unfold recognize
  rcases hcases with ⟨results, u, rest, hyields, -, h⟩ | ⟨site, hfaults, h⟩ | ⟨m, h⟩
  · cases rest with
    | zero =>
      refine .inr (.inr ?_)
      rw [show Machine.initial id = (Task.call id 0 []).machine [] .empty from rfl, h]
      rfl
    | succ rest =>
      refine .inl ⟨results, u, hyields, ?_⟩
      rw [show Machine.initial id = (Task.call id 0 []).machine [] .empty from rfl, h]
      rfl
  · refine .inr (.inl ⟨site, hfaults, ?_⟩)
    rw [show Machine.initial id = (Task.call id 0 []).machine [] .empty from rfl, h]
  · refine .inr (.inr ?_)
    rw [show Machine.initial id = (Task.call id 0 []).machine [] .empty from rfl, h]

end ReversibleGrammar
