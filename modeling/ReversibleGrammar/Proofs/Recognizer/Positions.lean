/-
Where results end.

A call is made at a position of the input or at its end, and what it hands to the construct that
waits for it ends between that position and the end of the input, a match as much as a failure.
So does what is remembered under the site of the call, whichever of the patterns that share its
label remembered it.  A number of tokens that are left is therefore never cut off at zero.

* `Store.EndsWithin` — a result ends between two positions;
* `Machine.Hands` — a call hands its results to what waits for it;
* `hands_or_above_of_step` — it does so at once, or after it has been matched;
* `Tables.Named` — what is remembered is remembered for patterns of the grammar;
* `step_named`, `run_named` — a step keeps that, and so does a run;
* `results_in_range` — calls, what they hand on and what is remembered stay in range in every state
  of a run, and the tokens that a parse reports to be left are those after the match.
-/
import ReversibleGrammar.Proofs.Recognizer.Reports
import ReversibleGrammar.Proofs.Recognizer.States

namespace ReversibleGrammar

/-- The result is stored and ends between two positions. -/
def Store.EndsWithin (s : Store) (first last : Nat) (r : ResultId) : Prop :=
  ∃ result, s.results.get? r = some result ∧ first ≤ result.stop ∧ result.stop ≤ last

/-- The next step hands the results of a call at a position to what waits for them: at once, or
after they have been remembered. -/
inductive Machine.Hands (g : Grammar) (input : Input) :
    Machine → Nat → List ResultId → Tables → Prop
  | answer {id : PatternId} {index : Nat} {context : Context} {frames : List Frame} {t u : Tables}
      {results : List ResultId}
      (h : step g input ⟨.call id index context, frames, t⟩ =
        .running ⟨.give results, frames, u⟩) :
      Hands g input ⟨.call id index context, frames, t⟩ index results u
  | complete (site : Site) (results : List ResultId) (frames : List Frame) (t : Tables) :
      Hands g input ⟨.give results, .complete site :: frames, t⟩ site.index results
        (t.record site results)

/-- What is remembered is remembered for patterns of the grammar. -/
def Tables.Named (g : Grammar) (t : Tables) : Prop :=
  ∀ (site : Site) (known : ResultSet), t.memo[site]? = some known →
    ∃ id p, g.pattern? id = some p ∧ p.recognizer = site.recognizer

/-- A construct remembers nothing unless it completes a site. -/
theorem memo_resume {frame : Frame} (hframe : ∀ site, frame ≠ .complete site)
    (results : List ResultId) (frames : List Frame) (t : Tables) :
    (resume frame results frames t).tables.memo = t.memo := by
  obtain ⟨store, memo, counts, cutoffs⟩ := t
  cases frame with
  | complete site => exact absurd rfl (hframe site)
  | wrapped | option | sequence | choice | many => rfl

section

variable {τ ν : Type} [Token τ ν] {g : Grammar} {tokens : Array τ}

/-! ### What calls hand on -/

theorem Store.Supports.endsWithin {s : Store} {role : Role} {start : Nat} {r : ResultId}
    (h : s.Supports g tokens role start r) : s.EndsWithin start tokens.size r := by
  obtain ⟨result, hr, hle, hstop, -⟩ := h
  exact ⟨result, hr, hle, hstop⟩

/-- What starts to match leaves the frames below it as they are. -/
theorem exists_above_of_evaluate (hg : g.Closed) {input : Input} {id : PatternId} {p : Pattern}
    (hp : g.pattern? id = some p) {index : Nat} {context : Context} {frames frames' : List Frame}
    {control : Control} {s t : Store}
    (h : evaluate g input p index context frames s = .ok ((control, frames'), t)) :
    ∃ above, frames' = above ++ frames := by
  obtain ⟨task, t', htask, -⟩ := evaluate_task hg input hp index context s
  rw [htask] at h
  obtain ⟨hturn, -⟩ := Prod.mk.inj (Except.ok.inj h)
  have hframes : (task.turn frames).2 = frames' := congrArg Prod.snd hturn
  subst hframes
  cases task with
  | call | give => exact ⟨[], rfl⟩
  | wait id index context frame => exact ⟨[frame], rfl⟩

/-- What a call answers at once is remembered, or is a failure at its position. -/
theorem Machine.Sound.endsWithin_of_answer (hg : g.Closed) {id : PatternId} {index : Nat}
    {context : Context} {frames : List Frame} {t u : Tables} {results : List ResultId}
    (hm : Machine.Sound g tokens ⟨.call id index context, frames, t⟩)
    (h : step g (.ofTokens tokens) ⟨.call id index context, frames, t⟩ =
      .running ⟨.give results, frames, u⟩) :
    ∀ r ∈ results, u.store.EndsWithin index tokens.size r := by
  rcases invoke_eq_running h with ⟨p, hp, ⟨known, hmemo, heq⟩ | ⟨map, failure, s, hfailure, heq⟩ |
    ⟨inner, s, control, frames', s', -, hevaluate, heq⟩⟩
  · cases heq
    intro r hr
    exact (hm.tables.memo hmemo id p hp rfl r hr).endsWithin
  · cases heq
    obtain ⟨hindex, -⟩ := hm.calls id index context rfl
    obtain ⟨r, s', k, hstored, -, -, hr⟩ :=
      hm.tables.store.failure_eq .infiniteRecursion index map
    rw [hstored] at hfailure
    cases hfailure
    intro r' hr'
    rw [List.mem_singleton.1 hr']
    exact ⟨_, hr, le_rfl, hindex⟩
  · -- a call that is matched leaves its site on the frames, so that it has not answered yet
    cases heq
    obtain ⟨above, hframes⟩ := exists_above_of_evaluate hg hp hevaluate
    have hlength := congrArg List.length hframes
    simp only [List.length_append, List.length_cons] at hlength
    omega

/-- A call answers at once, or leaves its site on the frames, to which it hands its results later. -/
theorem hands_or_above_of_step (hg : g.Closed) {m m' : Machine} {id : PatternId} {index : Nat}
    {context : Context} (hcontrol : m.control = .call id index context)
    (h : step g (.ofTokens tokens) m = .running m') :
    (∃ results, m.Hands g (.ofTokens tokens) index results m'.tables) ∨
      ∃ recognizer above, m'.frames = above ++ .complete ⟨index, recognizer⟩ :: m.frames := by
  obtain ⟨control, frames, t⟩ := m
  subst hcontrol
  rcases invoke_eq_running h with ⟨p, hp, ⟨known, -, rfl⟩ | ⟨map, failure, s, -, rfl⟩ |
    ⟨inner, s, control, frames', s', -, hevaluate, rfl⟩⟩
  · exact .inl ⟨_, .answer h⟩
  · exact .inl ⟨_, .answer h⟩
  · exact .inr ⟨p.recognizer, exists_above_of_evaluate hg hp hevaluate⟩

/-- What a call hands on ends between its position and the end of the input. -/
theorem Machine.Sound.endsWithin_of_hands (hg : g.Closed) {m : Machine} (hm : m.Sound g tokens)
    {index : Nat} {results : List ResultId} {u : Tables}
    (h : m.Hands g (.ofTokens tokens) index results u) :
    index ≤ tokens.size ∧ ∀ r ∈ results, u.store.EndsWithin index tokens.size r := by
  cases h with
  | answer h => exact ⟨(hm.calls _ _ _ rfl).1, hm.endsWithin_of_answer hg h⟩
  | complete site frames t =>
    obtain ⟨id, start, hstart, hstack, hresults⟩ := hm.gives results rfl
    cases hstack with
    | complete hp _ => exact ⟨hstart, fun r hr => (hresults r hr).endsWithin⟩
    | waits hwaits => cases hwaits

/-! ### What is remembered -/

theorem named_empty : Tables.empty.Named g := by
  intro site known h
  simp [Tables.empty] at h

theorem Tables.Named.record {t : Tables} (ht : t.Named g) {id : PatternId} {p : Pattern}
    (hp : g.pattern? id = some p) (start : Nat) (results : List ResultId) :
    (t.record ⟨start, p.recognizer⟩ results).Named g := by
  intro site known h
  by_cases hsite : site = ⟨start, p.recognizer⟩
  · exact ⟨id, p, hp, by rw [hsite]⟩
  · rw [memo_record_ne t hsite] at h
    exact ht site known h

/-- A step remembers results for the pattern that they are given for. -/
theorem step_named {m m' : Machine} (hm : m.Sound g tokens) (hnamed : m.tables.Named g)
    (h : step g (.ofTokens tokens) m = .running m') : m'.tables.Named g := by
  obtain ⟨control, frames, t⟩ := m
  cases control with
  | call id index context =>
    -- a call remembers nothing by itself
    rcases invoke_eq_running h with ⟨p, -, ⟨known, -, rfl⟩ | ⟨map, failure, s, -, rfl⟩ |
      ⟨inner, s, control, frames', s', -, -, rfl⟩⟩ <;> exact hnamed
  | give results =>
    cases frames with
    | nil => cases h
    | cons frame frames =>
      cases h
      obtain ⟨id, start, -, hstack, -⟩ := hm.gives results rfl
      cases hstack with
      | complete hp _ => exact hnamed.record hp start results
      | waits hwaits =>
        have hframe : ∀ site, frame ≠ .complete site := by
          rintro site rfl
          cases hwaits
        intro site known hknown
        rw [memo_resume hframe results frames t] at hknown
        exact hnamed site known hknown

theorem run_named (hg : g.Closed) (fuel : Nat) {m m' : Machine} (hm : m.Sound g tokens)
    (hnamed : m.tables.Named g) (h : run g (.ofTokens tokens) fuel m = .running m') :
    m'.tables.Named g := by
  have hkeeps : m'.Sound g tokens ∧ m'.tables.Named g := by
    refine run_keeps (P := fun m => m.Sound g tokens ∧ m.tables.Named g) ?_ fuel ⟨hm, hnamed⟩ h
    rintro m m' ⟨hm, hnamed⟩ hstep
    exact ⟨step_sound hg hm hstep, step_named hm hnamed hstep⟩
  exact hkeeps.2

/-- What is remembered for a pattern of the grammar ends after the position of its site. -/
theorem Machine.Sound.endsWithin_of_memo {m : Machine} (hm : m.Sound g tokens)
    (hnamed : m.tables.Named g) {site : Site} {known : ResultSet}
    (hknown : m.tables.memo[site]? = some known) :
    ∀ r ∈ known.toList, m.tables.store.EndsWithin site.index tokens.size r := by
  obtain ⟨id, p, hp, hrecognizer⟩ := hnamed site known hknown
  intro r hr
  exact (hm.tables.memo hknown id p hp hrecognizer r hr).endsWithin

/-! ### Tokens that are left -/

/-- No stored failure tells of tokens that are left, so that a parse counts them itself, from where
a match ends. -/
theorem tokensRemaining_of_failuresOf {s : Store} (hs : s.Truthful g (.ofTokens tokens))
    {results : List ResultId} (hends : ∀ r ∈ results, s.EndsWithin 0 tokens.size r)
    {count position : Nat}
    (h : (.tokensRemaining count, position) ∈ failuresOf s tokens.size results) :
    count + position = tokens.size := by
  obtain ⟨r, hr, rfl, ⟨f, -, -, hkind⟩ | ⟨k, hk, hkind⟩⟩ := mem_failuresOf h
  · obtain ⟨result, hresult, -, hle⟩ := hends r hr
    cases hkind
    rw [Store.result_eq hresult]
    exact Nat.sub_add_cancel hle
  · obtain ⟨⟨outcome, stop, map⟩, hresult, -⟩ := hends r hr
    rw [Store.result_eq hresult] at hk
    cases hk
    obtain ⟨kind, hstored, hholds⟩ := hs.holds hresult
    rw [Store.failureKind, Interner.get_eq_of_get? hstored] at hkind
    subst hkind
    exact hholds.elim

/-- Calls are within the input, with the tokens left that they count.  They hand on their results at
once, or leave their site on the frames to do it later, and what they hand on and what is remembered
ends between the position of the call and the end of the input. -/
structure Machine.InRange (g : Grammar) (tokens : Array τ) (m : Machine) : Prop where
  call_le : ∀ {id index context}, m.control = .call id index context → index ≤ tokens.size
  left_add : ∀ {id index context}, m.control = .call id index context →
    (Input.ofTokens tokens).size - index + index = tokens.size
  answers : ∀ {id index context m'}, m.control = .call id index context →
    step g (.ofTokens tokens) m = .running m' →
      (∃ results, m.Hands g (.ofTokens tokens) index results m'.tables) ∨
      ∃ recognizer above, m'.frames = above ++ .complete ⟨index, recognizer⟩ :: m.frames
  hands : ∀ {index results u}, m.Hands g (.ofTokens tokens) index results u →
    index ≤ tokens.size ∧ ∀ r ∈ results, u.store.EndsWithin index tokens.size r
  memo : ∀ {site : Site} {known : ResultSet}, m.tables.memo[site]? = some known →
    ∀ r ∈ known.toList, m.tables.store.EndsWithin site.index tokens.size r

/-- Every state of a run is in range, and so are the results that it ends with; so the tokens that a
parse reports to be left are those after the match. -/
theorem results_in_range (hg : g.Built) (tokens : Array τ) (root : PatternId) (fuel : Nat) :
    (∀ m, run g (.ofTokens tokens) fuel (.initial root) = .running m → m.InRange g tokens) ∧
    ∀ results t, run g (.ofTokens tokens) fuel (.initial root) = .finished results t →
      (∀ r ∈ results, t.store.EndsWithin 0 tokens.size r) ∧
      ∀ count position, (.tokensRemaining count, position) ∈
        failuresOf t.store tokens.size results → count + position = tokens.size := by
  have hclosed := hg.closed
  constructor
  · intro m h
    have hm := sound_of_run hclosed h
    have hnamed := run_named hclosed fuel (initial_sound root) named_empty h
    have hcall {id : PatternId} {index : Nat} {context : Context}
        (hcontrol : m.control = .call id index context) : index ≤ tokens.size :=
      (hm.calls id index context hcontrol).1
    exact ⟨hcall, fun hcontrol => Nat.sub_add_cancel (hcall hcontrol),
      hands_or_above_of_step hclosed, hm.endsWithin_of_hands hclosed, hm.endsWithin_of_memo hnamed⟩
  · intro results t h
    obtain ⟨fuel', hgives⟩ := exists_running_of_finished h
    obtain ⟨id, start, -, -, hresults⟩ := (sound_of_run hclosed hgives).gives results rfl
    have hends : ∀ r ∈ results, t.store.EndsWithin 0 tokens.size r := by
      intro r hr
      obtain ⟨result, hresult, -, hle⟩ := (hresults r hr).endsWithin
      exact ⟨result, hresult, Nat.zero_le _, hle⟩
    have htruthful : t.store.Truthful g (.ofTokens tokens) := by
      have hrun : (run g (.ofTokens tokens) fuel (.initial root)).Truthful g (.ofTokens tokens) :=
        run_truthful fuel (initial_truthful root)
      rw [h] at hrun
      cases hrun with
      | finished _ hstore => exact hstore
    exact ⟨hends, fun count position => tokensRemaining_of_failuresOf htruthful hends⟩

end

/-- An `a` with any number of `x` after it, left-recursively, where the longer texts and the `a` share
a label. -/
def Grammar.texts : Grammar where
  patterns := #[{ id := 0, kind := .thunk 0 }, { id := 1, kind := .consume "x" },
    { id := 2, label := some 0, kind := .sequence [0, 1] },
    { id := 3, label := some 0, kind := .consume "a" },
    { id := 4, kind := .choice [2, 3] .parallel none }]
  rules := #[⟨"texts", 4⟩]
  labels := #["text"]

theorem Grammar.built_texts : texts.Built :=
  ⟨[.rule "texts", .consume "x", .sequence [0, 1], .labeled 2 "text", .consume "a",
    .labeled 3 "text", .parallelChoice [2, 3], .define "texts" 4], by cbv⟩

/-- When a run on `a x` ends, a token is left after the shorter match. -/
theorem exists_left_texts : ∃ results t,
    run Grammar.texts (.ofTokens #["a", "x"]) 100 (.initial 4) = .finished results t ∧
      (.tokensRemaining 1, 1) ∈ failuresOf t.store 2 results := by
  have hrun : (match run Grammar.texts (.ofTokens #["a", "x"]) 100 (.initial 4) with
      | .finished results t => decide ((.tokensRemaining 1, 1) ∈ failuresOf t.store 2 results)
      | .running _ => false
      | .faulted _ => false) = true := by
    decide +kernel
  split at hrun
  · rename_i results t h
    exact ⟨results, t, h, of_decide_eq_true hrun⟩
  all_goals cases hrun

/-- The `a` is called again where the label was matched before: it hands on what is remembered of
both alternatives. -/
theorem results_in_range_texts :
    (∃ m u, run Grammar.texts (.ofTokens #["a", "x"]) 58 (.initial 4) = .running m ∧
      m.Hands Grammar.texts (.ofTokens #["a", "x"]) 0 [2, 7] u ∧
      (∀ r ∈ [2, 7], u.store.EndsWithin 0 2 r) ∧ m.InRange Grammar.texts #["a", "x"]) ∧
    ∃ results t, run Grammar.texts (.ofTokens #["a", "x"]) 100 (.initial 4) = .finished results t ∧
      (.tokensRemaining 1, 1) ∈ failuresOf t.store 2 results ∧
      (∀ r ∈ results, t.store.EndsWithin 0 2 r) ∧ 1 + 1 = #["a", "x"].size := by
  constructor
  · have hrun : (match run Grammar.texts (.ofTokens #["a", "x"]) 58 (.initial 4) with
        | .running ⟨.call id index context, _, t⟩ =>
          (id, index, t.replay? ⟨0, .label 0⟩ context)
        | .running ⟨.give _, _, _⟩ => default
        | .finished _ _ => default
        | .faulted _ => default) = (3, 0, some [2, 7]) := by
      decide +kernel
    split at hrun
    · rename_i id index context frames t h
      simp only [Prod.mk.injEq] at hrun
      obtain ⟨rfl, rfl, hreplay⟩ := hrun
      have hstep : step Grammar.texts (.ofTokens #["a", "x"]) ⟨.call 3 0 context, frames, t⟩ =
          .running ⟨.give [2, 7], frames, t⟩ := by
        have hp : Grammar.texts.pattern? 3 =
            some { id := 3, label := some 0, kind := .consume "a" } := rfl
        simp only [step, invoke, hp, Pattern.recognizer, hreplay]
      have hrange := (results_in_range (ν := String) Grammar.built_texts #["a", "x"] 4 58).1 _ h
      exact ⟨_, t, h, .answer hstep, (hrange.hands (.answer hstep)).2, hrange⟩
    all_goals cases hrun
  · obtain ⟨results, t, h, hleft⟩ := exists_left_texts
    obtain ⟨hends, hcounts⟩ :=
      (results_in_range (ν := String) Grammar.built_texts #["a", "x"] 4 100).2 results t h
    exact ⟨results, t, h, hleft, hends, hcounts 1 1 hleft⟩

end ReversibleGrammar
