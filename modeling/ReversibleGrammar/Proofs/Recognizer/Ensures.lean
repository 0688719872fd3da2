/-
What every evaluation of a task makes sure of.

An evaluation is deterministic, so it is enough to follow a task forward: what
its first call makes sure of is what the construct that waits for it starts from.

* `Task.Ensures` — what a task leads to has a property, and the task is given up at certain
  sites only;
* `Frame.Ensures`, `Pattern.Ensures` — so does what a construct turns to when it is handed
  results, and what a pattern starts with;
* `ensures_give`, `ensures_call`, `ensures_wait` — task by task;
* `recognize_ensures` — what the first call makes sure of holds of a recognition.
-/
import ReversibleGrammar.Proofs.Recognizer.Evaluation

namespace ReversibleGrammar

/-- What the task leads to satisfies `post`, and the sites at which it is given up satisfy
`fault`. -/
structure Task.Ensures (g : Grammar) (input : Input) (fault : Site → Prop) (task : Task)
    (t : Tables) (post : List ResultId → Tables → Prop) : Prop where
  yields : ∀ {results : List ResultId} {u : Tables}, Yields g input task t results u →
    post results u
  faults : ∀ {site : Site}, Faults g input task t site → fault site

/-- What the construct turns to, once it is handed results, ensures `post`. -/
def Frame.Ensures (g : Grammar) (input : Input) (fault : Site → Prop) (frame : Frame)
    (results : List ResultId) (t : Tables) (post : List ResultId → Tables → Prop) : Prop :=
  ∃ (task : Task) (u : Tables),
    (∀ frames, resume frame results frames t = task.machine frames u) ∧
      task.Ensures g input fault u post

/-- What the pattern starts with, inside a context, ensures `post`. -/
def Pattern.Ensures (g : Grammar) (input : Input) (fault : Site → Prop) (p : Pattern)
    (index : Nat) (context : Context) (t : Tables) (post : List ResultId → Tables → Prop) : Prop :=
  ∃ (task : Task) (store : Store),
    (∀ frames, evaluate g input p index context frames t.store = .ok (task.turn frames, store)) ∧
      task.Ensures g input fault { t with store } post

theorem Task.turn_inj {task task' : Task} (h : task.turn [] = task'.turn []) : task = task' := by
  cases task' with
  | give results => exact Task.turn_give h
  | wait id index context frame => exact Task.turn_wait h
  | call id index context =>
    cases task with
    | call =>
      injection h with h
      injection h with hid hindex hcontext
      rw [hid, hindex, hcontext]
    | give => cases h
    | wait => cases h

section

variable {g : Grammar} {input : Input} {fault : Site → Prop} {t : Tables}
variable {post post' : List ResultId → Tables → Prop}

theorem Task.Ensures.mono {task : Task} (h : task.Ensures g input fault t post)
    (hpost : ∀ results u, post results u → post' results u) :
    task.Ensures g input fault t post' :=
  ⟨fun hyields => hpost _ _ (h.yields hyields), h.faults⟩

theorem Frame.Ensures.mono {frame : Frame} {results : List ResultId}
    (h : frame.Ensures g input fault results t post)
    (hpost : ∀ results u, post results u → post' results u) :
    frame.Ensures g input fault results t post' := by
  obtain ⟨task, u, hresume, h⟩ := h
  exact ⟨task, u, hresume, h.mono hpost⟩

theorem Pattern.Ensures.mono {p : Pattern} {index : Nat} {context : Context}
    (h : p.Ensures g input fault index context t post)
    (hpost : ∀ results u, post results u → post' results u) :
    p.Ensures g input fault index context t post' := by
  obtain ⟨task, store, hevaluate, h⟩ := h
  exact ⟨task, store, hevaluate, h.mono hpost⟩

theorem ensures_give {results : List ResultId} (h : post results t) :
    (Task.give results).Ensures g input fault t post where
  yields hyields := by
    cases hyields
    exact h
  faults hfaults := nomatch hfaults

/-- A construct goes on with what its call makes sure of. -/
theorem ensures_wait {id : PatternId} {index : Nat} {context : Context} {frame : Frame}
    {mid : List ResultId → Tables → Prop}
    (hcall : (Task.call id index context).Ensures g input fault t mid)
    (hnext : ∀ results u, mid results u → frame.Ensures g input fault results u post) :
    (Task.wait id index context frame).Ensures g input fault t post := by
  -- there is only one way to go on with results
  have hunique {results : List ResultId} {u v : Tables} {task : Task}
      (hyields : Yields g input (.call id index context) t results u)
      (hresume : ∀ frames, resume frame results frames u = task.machine frames v) :
      task.Ensures g input fault v post := by
    obtain ⟨task', v', hresume', h⟩ := hnext results u (hcall.yields hyields)
    have hmachine := (hresume []).symm.trans (hresume' [])
    obtain ⟨hturn, hv⟩ := Task.of_machine hmachine
    obtain rfl : task = task' := Task.turn_inj hturn
    rw [show v = v' from hv]
    exact h
  constructor
  · intro results w hyields
    cases hyields with
    | wait hyields hresume hyields' => exact (hunique hyields hresume).yields hyields'
  · intro site hfaults
    cases hfaults with
    | waitCall hfaults => exact hcall.faults hfaults
    | waitNext hyields hresume hfaults => exact (hunique hyields hresume).faults hfaults

/-- A call gives what is remembered, is cut off, or is matched and remembered. -/
theorem ensures_call {id : PatternId} {p : Pattern} (hp : g.pattern? id = some p) {index : Nat}
    {context : Context}
    (hreplay : ∀ results, t.replay? ⟨index, p.recognizer⟩ context = some results → post results t)
    (hcutoff : t.replay? ⟨index, p.recognizer⟩ context = none → p.kind.isBounded = true →
      input.size - index + 1 < t.counts.getD ⟨index, p.recognizer⟩ 0 →
        (context.at? index = none → fault ⟨index, p.recognizer⟩) ∧
        ∀ map failure store, context.at? index = some map →
          Store.failure .infiniteRecursion index map t.store = (failure, store) →
            post [failure] { t with store })
    (hevaluate : t.replay? ⟨index, p.recognizer⟩ context = none →
      (p.kind.isBounded = true →
        t.counts.getD ⟨index, p.recognizer⟩ 0 ≤ input.size - index + 1) →
      ∀ inner store, Store.enter context ⟨index, p.recognizer⟩
        (t.counts.getD ⟨index, p.recognizer⟩ 0 + 1) t.store = (inner, store) →
      p.Ensures g input fault index inner (t.entered ⟨index, p.recognizer⟩ store)
        fun results u => post results (u.record ⟨index, p.recognizer⟩ results)) :
    (Task.call id index context).Ensures g input fault t post := by
  have hunique {inner : Context} {store store' : Store} {task : Task}
      (hnone : t.replay? ⟨index, p.recognizer⟩ context = none)
      (hcount : p.kind.isBounded = true →
        t.counts.getD ⟨index, p.recognizer⟩ 0 ≤ input.size - index + 1)
      (henter : Store.enter context ⟨index, p.recognizer⟩
        (t.counts.getD ⟨index, p.recognizer⟩ 0 + 1) t.store = (inner, store))
      (htask : ∀ frames, evaluate g input p index inner frames store =
        .ok (task.turn frames, store')) :
      task.Ensures g input fault (t.entered ⟨index, p.recognizer⟩ store')
        fun results u => post results (u.record ⟨index, p.recognizer⟩ results) := by
    obtain ⟨task', store'', htask', h⟩ := hevaluate hnone hcount inner store henter
    have hturn := (htask []).symm.trans (htask' [])
    simp only [Except.ok.injEq, Prod.mk.injEq] at hturn
    obtain rfl : task = task' := Task.turn_inj hturn.1
    rw [hturn.2]
    exact h
  constructor
  · intro results u hyields
    cases hyields with
    | replay hq hsome =>
      obtain rfl := Option.some.inj (hp.symm.trans hq)
      exact hreplay _ hsome
    | cutoff hq hnone hbounded hcount hmap hfailure =>
      obtain rfl := Option.some.inj (hp.symm.trans hq)
      exact (hcutoff hnone hbounded hcount).2 _ _ _ hmap hfailure
    | evaluate hq hnone hcount henter htask hyields =>
      obtain rfl := Option.some.inj (hp.symm.trans hq)
      exact (hunique hnone hcount henter htask).yields hyields
  · intro site hfaults
    cases hfaults with
    | call hq hnone hbounded hcount hmap =>
      obtain rfl := Option.some.inj (hp.symm.trans hq)
      exact (hcutoff hnone hbounded hcount).1 hmap
    | evaluate hq hnone hcount henter htask hfaults =>
      obtain rfl := Option.some.inj (hp.symm.trans hq)
      exact (hunique hnone hcount henter htask).faults hfaults

/-- What the first call makes sure of holds of a recognition that ends. -/
theorem recognize_ensures {τ ν : Type} [Token τ ν] (hg : g.Closed) (config : ParserConfig)
    {id : PatternId} (hid : id < g.patterns.size) {tokens : Array τ}
    (h : (Task.call id 0 []).Ensures g (.ofTokens tokens) fault .empty post) :
    (∃ results u, post results u ∧ recognize g config id tokens = .ok (results, u.store)) ∨
    (∃ site, fault site ∧ recognize g config id tokens = .error (.fault (.noContext site))) ∨
    recognize g config id tokens = .error .outOfFuel := by
  rcases recognize_cases hg config hid tokens with ⟨results, u, hyields, heq⟩ |
    ⟨site, hfaults, heq⟩ | heq
  · exact .inl ⟨results, u, h.yields hyields, heq⟩
  · exact .inr (.inl ⟨site, h.faults hfaults, heq⟩)
  · exact .inr (.inr heq)

end

end ReversibleGrammar
