/-
What holds of every state of a run.

The frames of a state wait one inside the other: the topmost one for matches of
the pattern that is being called, and each one below it for matches of the
pattern that the frame above it makes.

* `Store.Stack` — the frames wait, one inside the other, for matches of a pattern from a position;
* `Machine.Sound` — the frames wait for what is called or given, and what is remembered is what
  patterns match;
* `run_keeps` — what every step keeps, a run keeps;
* `step_sound`, `run_sound` — a step keeps a state sound, and so does a run;
* `sound_of_run` — every state of a run from the first token is sound;
* `exists_running_of_finished` — the last state of a run that ends.
-/
import ReversibleGrammar.Proofs.Recognizer.Typing

namespace ReversibleGrammar

section

variable {τ ν : Type} [Token τ ν] (g : Grammar) (tokens : Array τ)

/-- The frames wait, one inside the other, for matches of a pattern from a position. -/
inductive Store.Stack (s : Store) : List Frame → PatternId → Nat → Prop
  | nil (id : PatternId) (start : Nat) : Stack s [] id start
  | complete {frames : List Frame} {id : PatternId} {p : Pattern} {start : Nat}
      (hp : g.pattern? id = some p) (h : Stack s frames id start) :
      Stack s (.complete ⟨start, p.recognizer⟩ :: frames) id start
  | waits {frame : Frame} {frames : List Frame} {child id : PatternId} {index start : Nat}
      (hwaits : s.Waits g tokens frame child index id start) (hle : start ≤ index)
      (h : Stack s frames id start) : Stack s (frame :: frames) child index

/-- The frames wait for what is called or given, and what is remembered is what patterns match. -/
structure Machine.Sound (m : Machine) : Prop where
  tables : m.tables.Sound g tokens
  calls : ∀ id index context, m.control = .call id index context →
    index ≤ tokens.size ∧ m.tables.store.Stack g tokens m.frames id index
  gives : ∀ results, m.control = .give results → ∃ id index,
    index ≤ tokens.size ∧ m.tables.store.Stack g tokens m.frames id index ∧
      ∀ r ∈ results, m.tables.store.Supports g tokens (.whole id) index r

end

section

variable {τ ν : Type} [Token τ ν] {g : Grammar} {tokens : Array τ} {s t : Store}
variable {frames : List Frame} {id : PatternId} {start : Nat}

theorem Store.Stack.mono (hs : s.Sound) (hgrows : s.Grows t)
    (h : s.Stack g tokens frames id start) : t.Stack g tokens frames id start := by
  induction h with
  | nil id start => exact .nil id start
  | complete hp _ ih => exact .complete hp ih
  | waits hwaits hle _ ih => exact .waits (hwaits.mono hs hgrows) hle ih

/-- What a frame of a closed grammar may still call is in range. -/
theorem Store.Waits.within (hg : g.Closed) {frame : Frame} {child : PatternId} {index : Nat}
    (h : s.Waits g tokens frame child index id start) : frame.Within g.patterns.size := by
  have hchildren {q : Pattern} (hq : g.pattern? id = some q) :
      ∀ c ∈ q.kind.children, c < g.patterns.size := (hg.closedAt id q hq).children_lt
  have hmany {frame : ManyFrame} (hready : s.ManyReady g tokens frame id start)
      (state : PartialMany) (isSeparator : Bool) :
      (Frame.many frame state isSeparator).Within g.patterns.size := by
    obtain ⟨p, hp, hkind⟩ := hready.kind
    have hlt := hchildren hp
    rw [hkind] at hlt
    exact ⟨hlt _ List.mem_cons_self, fun c hc =>
      hlt c (List.mem_cons_of_mem _ (by simpa using hc))⟩
  cases h with
  | wrapped | option => trivial
  | sequence h =>
    obtain ⟨p, before, hp, hkind, -⟩ := h.kind
    have hlt := hchildren hp
    rw [hkind] at hlt
    exact ⟨hlt _ (List.mem_append_right _ List.mem_cons_self), fun c hc =>
      hlt c (List.mem_append_right _ (List.mem_cons_of_mem _ hc))⟩
  | choice h =>
    obtain ⟨p, tried, names, hp, hkind, -⟩ := h.kind
    have hlt := hchildren hp
    rw [hkind] at hlt
    exact fun c hc => hlt c (List.mem_append_right _ (List.mem_cons_of_mem _ hc))
  | item h => exact hmany h _ _
  | separator h => exact hmany h _ _

/-- A task for matches that the frames below it wait for. -/
theorem Task.sound_of_ready (task : Task) {t : Tables} (ht : t.Sound g tokens)
    (hstart : start ≤ tokens.size) (h : task.Ready g tokens t.store id start)
    (hstack : t.store.Stack g tokens frames id start) :
    (task.machine frames t).Sound g tokens := by
  refine ⟨ht, ?_, ?_⟩
  · intro other index context hcontrol
    cases task with
    | call =>
      cases hcontrol
      obtain ⟨rfl, rfl, -⟩ := h
      exact ⟨hstart, hstack⟩
    | give => cases hcontrol
    | wait child index' _ frame =>
      cases hcontrol
      obtain ⟨hwaits, hle, hindex⟩ := h
      exact ⟨hindex, .waits hwaits hle hstack⟩
  · intro results hcontrol
    cases task with
    | give =>
      cases hcontrol
      exact ⟨id, start, hstart, hstack, h⟩
    | call | wait => cases hcontrol

/-- A call whose results the frames wait for leads to a sound state. -/
theorem invoke_sound (hg : g.Closed) {t : Tables} (ht : t.Sound g tokens) {index : Nat}
    (hindex : index ≤ tokens.size) (hstack : t.store.Stack g tokens frames id index)
    {context : Context} {m : Machine}
    (h : invoke g (.ofTokens tokens) id index context frames t = .running m) :
    m.Sound g tokens := by
  cases hp : g.pattern? id with
  | none => simp [invoke, hp] at h
  | some p =>
    rcases invoke_cases (.ofTokens tokens) hp index context t with ⟨results, hreplay, heq⟩ |
      ⟨-, -, -, -, heq⟩ | ⟨-, -, -, map, failure, store, -, hfailure, heq⟩ |
      ⟨-, -, inner, store, henter, heq⟩
    · rw [heq] at h
      cases h
      obtain ⟨known, hmemo, rfl⟩ := replay?_eq_some hreplay
      exact Task.sound_of_ready (.give known.toList) ht hindex (ht.memo hmemo id p hp rfl)
        hstack
    · rw [heq] at h
      cases h
    · rw [heq] at h
      cases h
      obtain ⟨r, s, k, hstored, hextends, -, hr⟩ :=
        ht.store.failure_eq .infiniteRecursion index map
      rw [hstored] at hfailure
      cases hfailure
      refine Task.sound_of_ready (.give [failure])
        (ht.withStore hextends.sound hextends.grows _) hindex (fun r' hr' => ?_)
        (hstack.mono ht.store hextends.grows)
      rw [List.mem_singleton.1 hr']
      exact Store.Fails.supports le_rfl ⟨_, k, hr, rfl, le_rfl, hindex⟩ _
    · obtain ⟨task, store', hevaluate, -⟩ :=
        evaluate_task hg (.ofTokens tokens) hp index inner store
      rw [heq, hevaluate] at h
      cases h
      obtain ⟨hsound, hgrows, -⟩ := ht.store.enter context ⟨index, p.recognizer⟩
        (t.counts.getD ⟨index, p.recognizer⟩ 0 + 1)
      rw [henter] at hsound hgrows
      obtain ⟨hextends, hready⟩ := evaluate_ready hsound hp hindex (hevaluate [])
      have hgrows := hgrows.trans hextends.grows
      exact task.sound_of_ready (ht.withStore hextends.sound hgrows _) hindex
        hready (.complete hp (hstack.mono ht.store hgrows))

/-- Giving results to a frame that waits for them leads to a sound state. -/
theorem resume_sound (hg : g.Closed) {t : Tables} (ht : t.Sound g tokens) {frame : Frame}
    {index : Nat} (hindex : index ≤ tokens.size)
    (hstack : t.store.Stack g tokens (frame :: frames) id index) {results : List ResultId}
    (hresults : ∀ r ∈ results, t.store.Supports g tokens (.whole id) index r) :
    (resume frame results frames t).Sound g tokens := by
  cases hstack with
  | complete hp hstack =>
    -- what is given is remembered on its way
    exact Task.sound_of_ready (.give results) (ht.record hg hp hresults) hindex hresults
      hstack
  | waits hwaits hle hstack =>
    obtain ⟨task, u, hresume, -⟩ := resume_task frame (hwaits.within hg) results t
    obtain ⟨s, hextends, rfl, hready⟩ :=
      resume_ready ht.store hwaits hle hindex hresults (hresume [])
    rw [hresume]
    exact task.sound_of_ready (ht.withStore hextends.sound hextends.grows _) (hle.trans hindex)
      hready (hstack.mono ht.store hextends.grows)

/-- A step of a sound state leads to a sound state. -/
theorem step_sound (hg : g.Closed) {m m' : Machine} (hm : m.Sound g tokens)
    (h : step g (.ofTokens tokens) m = .running m') : m'.Sound g tokens := by
  obtain ⟨control, frames, t⟩ := m
  cases control with
  | call id index context =>
    obtain ⟨hindex, hstack⟩ := hm.calls id index context rfl
    exact invoke_sound hg hm.tables hindex hstack h
  | give results =>
    obtain ⟨id, index, hindex, hstack, hresults⟩ := hm.gives results rfl
    cases frames with
    | nil => cases h
    | cons frame frames =>
      cases h
      exact resume_sound hg hm.tables hindex hstack hresults

/-- What every step keeps, a run keeps. -/
theorem run_keeps {input : Input} {P : Machine → Prop}
    (hkeeps : ∀ m m', P m → step g input m = .running m' → P m') (fuel : Nat) {m m' : Machine}
    (hm : P m) (h : run g input fuel m = .running m') : P m' := by
  induction fuel generalizing m with
  | zero =>
    cases h
    exact hm
  | succ fuel ih =>
    rw [run] at h
    split at h
    · rename_i next hstep
      exact ih (hkeeps m next hm hstep) h
    · rename_i hother
      exact absurd h (hother m')

/-- Every state that a run comes to from a sound state is sound. -/
theorem run_sound (hg : g.Closed) (fuel : Nat) {m m' : Machine} (hm : m.Sound g tokens)
    (h : run g (.ofTokens tokens) fuel m = .running m') : m'.Sound g tokens :=
  run_keeps (fun _ _ hm hstep => step_sound hg hm hstep) fuel hm h

/-- A call gives what is remembered, is cut off, or is matched. -/
theorem invoke_eq_running {input : Input} {index : Nat} {context : Context} {t : Tables}
    {m : Machine} (h : invoke g input id index context frames t = .running m) :
    ∃ p, g.pattern? id = some p ∧
      ((∃ known, t.memo[(⟨index, p.recognizer⟩ : Site)]? = some known ∧
        m = ⟨.give known.toList, frames, t⟩) ∨
      (∃ map failure store, Store.failure .infiniteRecursion index map t.store = (failure, store) ∧
        m = ⟨.give [failure], frames, { t with store }⟩) ∨
      ∃ inner store control frames' store',
        Store.enter context ⟨index, p.recognizer⟩
          (t.counts.getD ⟨index, p.recognizer⟩ 0 + 1) t.store = (inner, store) ∧
        evaluate g input p index inner (.complete ⟨index, p.recognizer⟩ :: frames) store =
          .ok ((control, frames'), store') ∧
        m = ⟨control, frames', t.entered ⟨index, p.recognizer⟩ store'⟩) := by
  cases hp : g.pattern? id with
  | none => simp [invoke, hp] at h
  | some p =>
    refine ⟨p, rfl, ?_⟩
    rcases invoke_cases input hp index context t with ⟨results, hreplay, heq⟩ |
      ⟨-, -, -, -, heq⟩ | ⟨-, -, -, map, failure, store, -, hfailure, heq⟩ |
      ⟨-, -, inner, store, henter, heq⟩
    · rw [heq] at h
      cases h
      obtain ⟨known, hmemo, rfl⟩ := replay?_eq_some hreplay
      exact .inl ⟨known, hmemo, rfl⟩
    · rw [heq] at h
      cases h
    · rw [heq] at h
      cases h
      exact .inr (.inl ⟨map, failure, store, hfailure, rfl⟩)
    · rw [heq] at h
      split at h
      · cases h
      · rename_i control frames' store' hevaluate
        cases h
        exact .inr (.inr ⟨inner, store, control, frames', store', henter, hevaluate, rfl⟩)

/-- A call is not the end of a run. -/
theorem invoke_ne_finished (input : Input) (index : Nat) (context : Context) (t u : Tables)
    (results : List ResultId) : invoke g input id index context frames t ≠ .finished results u := by
  cases hp : g.pattern? id with
  | none => simp [invoke, hp]
  | some p =>
    rcases invoke_cases input hp index context t with ⟨_, -, heq⟩ | ⟨-, -, -, -, heq⟩ |
      ⟨-, -, -, _, _, _, -, -, heq⟩ | ⟨-, -, _, _, -, heq⟩ <;> rw [heq]
    case inr.inr.inr => split <;> nofun
    all_goals nofun

/-- A run that ends comes from a state that gives its results to no frame. -/
theorem exists_running_of_finished {input : Input} {fuel : Nat} {m : Machine}
    {results : List ResultId} {t : Tables} (h : run g input fuel m = .finished results t) :
    ∃ fuel', run g input fuel' m = .running ⟨.give results, [], t⟩ := by
  induction fuel generalizing m with
  | zero => cases h
  | succ fuel ih =>
    rw [run] at h
    split at h
    · rename_i next hstep
      obtain ⟨fuel', h'⟩ := ih h
      refine ⟨fuel' + 1, ?_⟩
      rw [run, hstep]
      exact h'
    · refine ⟨0, congrArg Progress.running ?_⟩
      obtain ⟨control, frames, u⟩ := m
      cases control with
      | call id index context => exact absurd h (invoke_ne_finished input index context u t results)
      | give results' =>
        cases frames with
        | nil =>
          cases h
          rfl
        | cons frame frames => cases h

theorem initial_sound (id : PatternId) : (Machine.initial id).Sound g tokens :=
  Task.sound_of_ready (.call id 0 []) Tables.sound_empty (Nat.zero_le _)
    ⟨rfl, rfl, Nat.zero_le _⟩ (.nil id 0)

/-- Every state of a run from the first token is sound. -/
theorem sound_of_run (hg : g.Closed) {root : PatternId} {fuel : Nat} {m : Machine}
    (h : run g (.ofTokens tokens) fuel (.initial root) = .running m) : m.Sound g tokens :=
  run_sound hg fuel (initial_sound root) h

end

end ReversibleGrammar
