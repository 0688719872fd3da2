/-
What failures say is true.

Failures are made in four places: a token is matched, a call is cut off, a labelled choice ends
without a match, and a parse stops early.  Everything else hands them on as they are, so that what
is true of a failure when it is made is true of it in every report.

* `FailureKind.HoldsAt` — what a failure at a position says is so;
* `Store.Truthful` — so it is for every stored failure;
* `resume_truthful`, `step_truthful`, `run_truthful` — one step keeps a machine truthful, and so
  does a run;
* `truthful_of_recognize` — so the failures of a recognition are true.
-/
import ReversibleGrammar.Proofs.Recognizer.Giving

namespace ReversibleGrammar

/-- A choice of the grammar carries a label with this text. -/
def Grammar.LabelsChoice (g : Grammar) (label : String) : Prop :=
  ∃ p ∈ g.patterns, (∃ alternatives mode names, p.kind = .choice alternatives mode names) ∧
    p.label.bind g.labelText? = some label

/-- What a failure at a position says is so.  No store has failures of matches that stop early. -/
def FailureKind.HoldsAt (g : Grammar) (input : Input) (position : Nat) : FailureKind → Prop
  | infiniteRecursion => True
  | tokensRemaining _ => False
  | tokensExhausted _ => input.size ≤ position
  | unexpectedToken expected found =>
    found = position ∧ position < input.size ∧ input.is position expected = false
  | alternativeFailed label => g.LabelsChoice label

/-- What every stored failure says is so. -/
structure Store.Truthful (g : Grammar) (input : Input) (s : Store) : Prop where
  failures : s.failures.Faithful
  holds : ∀ {r k stop map}, s.results.get? r = some ⟨.failure k, stop, map⟩ →
    ∃ kind, s.failures.get? k = some kind ∧ kind.HoldsAt g input stop

/-- A choice that waits carries a label of the grammar, if any. -/
def Frame.Labelled (g : Grammar) : Frame → Prop
  | .choice frame => ∀ label, frame.label = some label → g.LabelsChoice label
  | _ => True

section

variable {g : Grammar} {input : Input} {s : Store}

/-! ### Storing -/

namespace Store

theorem truthful_empty : Store.empty.Truthful g input where
  failures := Interner.faithful_empty
  holds h := by simp [Store.empty, Interner.empty, Interner.get?] at h

/-- A match says nothing that could be false. -/
theorem Truthful.success (h : s.Truthful g input) (fragment : Fragment) (stop : Nat)
    (map : MapId) : (Store.success fragment stop map s).2.Truthful g input := by
  obtain ⟨results, fragments, failures, maps⟩ := s
  refine ⟨h.failures, fun {r k stop' map'} hr => ?_⟩
  rcases Interner.get?_intern_cases results _ hr with hold | ⟨heq, -⟩
  · exact h.holds hold
  · cases heq

theorem Truthful.failure (h : s.Truthful g input) {kind : FailureKind} {position : Nat}
    (hkind : kind.HoldsAt g input position) (map : MapId) :
    (Store.failure kind position map s).2.Truthful g input := by
  obtain ⟨results, fragments, failures, maps⟩ := s
  refine ⟨Interner.faithful_intern h.failures kind, fun {r k stop' map'} hr => ?_⟩
  rcases Interner.get?_intern_cases results _ hr with hold | ⟨heq, -⟩
  · obtain ⟨kind', hk, hkind'⟩ := h.holds hold
    exact ⟨kind', Interner.get?_intern failures kind hk, hkind'⟩
  · cases heq
    exact ⟨kind, Interner.get?_intern_self failures h.failures kind, hkind⟩

theorem Truthful.mergeMaps (h : s.Truthful g input) (left right : MapId) :
    (Store.mergeMaps left right s).2.Truthful g input := by
  obtain ⟨results, fragments, failures, maps⟩ := s
  dsimp only [Store.mergeMaps]
  split
  · exact h
  · split
    · exact h
    · exact ⟨h.failures, h.holds⟩

theorem Truthful.enter (h : s.Truthful g input) (context : Context) (site : Site) (depth : Nat) :
    (Store.enter context site depth s).2.Truthful g input :=
  ⟨h.failures, h.holds⟩

end Store

/-! ### Constructs -/

theorem matchToken_truthful (h : s.Truthful g input) (terminal : String) (index : Nat) :
    (matchToken input terminal index s).2.Truthful g input := by
  unfold matchToken
  split
  · rename_i hlt
    split
    · exact h.success _ _ _
    · rename_i his
      have hkind : (FailureKind.unexpectedToken terminal index).HoldsAt g input index :=
        ⟨rfl, hlt, Bool.eq_false_of_not_eq_true his⟩
      exact h.failure hkind _
  · rename_i hle
    have hkind : (FailureKind.tokensExhausted terminal).HoldsAt g input index := Nat.not_lt.1 hle
    exact h.failure hkind _

theorem wrapResult_truthful (h : s.Truthful g input) (wrapper : Wrapper) (id : ResultId) :
    (wrapResult wrapper id s).2.Truthful g input := by
  unfold wrapResult
  dsimp only
  split
  · exact h.success _ _ _
  · exact h

theorem wrapResults_truthful (h : s.Truthful g input) (wrapper : Wrapper) (ids : List ResultId) :
    (ids.mapM (wrapResult wrapper) s).2.Truthful g input := by
  induction ids generalizing s with
  | nil => exact h
  | cons id ids ih =>
    rw [List.mapM_cons]
    exact ih (wrapResult_truthful h wrapper id)

theorem optionResults_truthful (h : s.Truthful g input) (ids : List ResultId) (out : ResultSet) :
    (optionResults ids out s).2.Truthful g input := by
  induction ids generalizing out s with
  | nil => exact h
  | cons id ids ih =>
    unfold optionResults
    dsimp only
    split
    · exact ih (h.success _ _ _) _
    · exact ih h out

theorem extendSequence_truthful (h : s.Truthful g input) (current : Result) (ids : List ResultId)
    (following : ResultSet) : (extendSequence current ids following s).2.Truthful g input := by
  induction ids generalizing following s with
  | nil => exact h
  | cons id ids ih =>
    unfold extendSequence
    dsimp only
    split
    · exact ih ((h.mergeMaps _ _).success _ _ _) _
    · exact ih h _

theorem choiceResults_truthful (h : s.Truthful g input) (index : Nat) (ids : List ResultId)
    (successes failures : ResultSet) :
    (choiceResults index ids successes failures s).2.Truthful g input := by
  induction ids generalizing successes failures s with
  | nil => exact h
  | cons id ids ih =>
    unfold choiceResults
    dsimp only
    split
    · exact ih (h.success _ _ _) _ _
    · exact ih h _ _

theorem extendMany_truthful (h : s.Truthful g input) (parent : Result) (mark : Nat)
    (isSeparator : Bool) (ids : List ResultId) (frame : ManyFrame) :
    (extendMany parent mark isSeparator ids frame s).2.Truthful g input := by
  induction ids generalizing frame s with
  | nil => exact h
  | cons id ids ih =>
    unfold extendMany
    dsimp only
    split
    · split
      · exact ih h frame
      · exact ih ((h.mergeMaps _ _).success _ _ _) _
    · exact ih h frame

/-! ### Turns -/

variable {frames : List Frame}

/-- The store is truthful, and what waits carries labels of the grammar. -/
structure TurnTruthful (g : Grammar) (input : Input) (turn : Turn) (s : Store) : Prop where
  store : s.Truthful g input
  frames : ∀ frame ∈ turn.2, frame.Labelled g

theorem nextSequence_labelled (context : Context) (hframes : ∀ frame ∈ frames, frame.Labelled g)
    (children : List PatternId) (pending : List ResultId) (following finished : ResultSet)
    (s : Store) :
    ∀ frame ∈ (nextSequence context frames children pending following finished s).2,
      frame.Labelled g := by
  induction children generalizing pending following finished with
  | nil => exact hframes
  | cons child later ih =>
    unfold nextSequence
    split
    · exact List.forall_mem_cons.2 ⟨trivial, hframes⟩
    · exact ih _ _ _

theorem nextChoice_truthful (frame : ChoiceFrame) (hframe : (Frame.choice frame).Labelled g)
    (hframes : ∀ frame ∈ frames, frame.Labelled g) (later : List PatternId)
    (h : s.Truthful g input) :
    TurnTruthful g input (nextChoice frame frames later s).1 (nextChoice frame frames later s).2 := by
  cases later with
  | cons alternative later => exact ⟨h, List.forall_mem_cons.2 ⟨hframe, hframes⟩⟩
  | nil =>
    simp only [nextChoice]
    split
    · rename_i label _ hlabel
      have hkind : (FailureKind.alternativeFailed label).HoldsAt g input frame.position :=
        hframe label hlabel
      exact ⟨h.failure hkind emptyMap, hframes⟩
    · exact ⟨h, hframes⟩

theorem resumeChoice_truthful (h : s.Truthful g input) {frame : ChoiceFrame}
    (hframe : (Frame.choice frame).Labelled g) (hframes : ∀ frame ∈ frames, frame.Labelled g)
    (results : List ResultId) :
    TurnTruthful g input (resumeChoice frame results frames s).1
      (resumeChoice frame results frames s).2 := by
  have hstore := choiceResults_truthful h frame.index results .empty .empty
  revert hstore
  unfold resumeChoice
  rcases choiceResults frame.index results .empty .empty s with ⟨⟨successes, failures⟩, t⟩
  intro hstore
  dsimp only
  split
  · exact ⟨hstore, hframes⟩
  · refine nextChoice_truthful _ ?_ hframes frame.later hstore
    exact hframe

theorem callMany_labelled (frame : ManyFrame) (state : PartialMany)
    (hframes : ∀ frame ∈ frames, frame.Labelled g) (s : Store) :
    ∀ waiting ∈ (callMany frame state frames s).2, waiting.Labelled g := by
  unfold callMany
  split <;> exact List.forall_mem_cons.2 ⟨trivial, hframes⟩

theorem nextMany_labelled (frame : ManyFrame) (hframes : ∀ frame ∈ frames, frame.Labelled g)
    (s : Store) : ∀ waiting ∈ (nextMany frame frames s).2, waiting.Labelled g := by
  unfold nextMany
  split
  · exact callMany_labelled _ _ hframes s
  · split
    · exact callMany_labelled _ _ hframes s
    · exact hframes

/-! ### Steps -/

/-- The store of a machine is truthful, and its frames carry labels of the grammar. -/
def Machine.Truthful (g : Grammar) (input : Input) (m : Machine) : Prop :=
  TurnTruthful g input (m.control, m.frames) m.tables.store

/-- What the step comes to is truthful. -/
inductive Progress.Truthful (g : Grammar) (input : Input) : Progress → Prop
  | running {m : Machine} (h : m.Truthful g input) : Truthful g input (.running m)
  | finished (results : List ResultId) {t : Tables} (h : t.store.Truthful g input) :
      Truthful g input (.finished results t)
  | faulted (fault : Fault) : Truthful g input (.faulted fault)

/-- A construct goes on truthfully. -/
theorem resume_truthful {t : Tables} (h : t.store.Truthful g input) {frame : Frame}
    (hframe : frame.Labelled g) (hframes : ∀ frame ∈ frames, frame.Labelled g)
    (results : List ResultId) : (resume frame results frames t).Truthful g input := by
  obtain ⟨store, memo, counts, cutoffs⟩ := t
  cases frame with
  | complete site => exact ⟨h, hframes⟩
  | wrapped wrapper => exact ⟨wrapResults_truthful h wrapper results, hframes⟩
  | option position =>
    exact ⟨(optionResults_truthful h results .empty).success _ _ _, hframes⟩
  | sequence frame =>
    exact ⟨extendSequence_truthful h _ results _,
      nextSequence_labelled frame.context hframes (frame.child :: frame.later) _ _ _ _⟩
  | choice frame => exact resumeChoice_truthful h hframe hframes results
  | many frame state isSeparator =>
    exact ⟨extendMany_truthful h _ _ _ results frame, nextMany_labelled _ hframes _⟩

/-- A pattern of the grammar starts truthfully. -/
theorem evaluate_truthful (h : s.Truthful g input) {p : Pattern} (hp : p ∈ g.patterns)
    {index : Nat} {context : Context} (hframes : ∀ frame ∈ frames, frame.Labelled g)
    {turn : Turn} {s' : Store}
    (heval : evaluate g input p index context frames s = .ok (turn, s')) :
    TurnTruthful g input turn s' := by
  have hcall {frame : Frame} (hframe : frame.Labelled g) :
      ∀ waiting ∈ frame :: frames, waiting.Labelled g := List.forall_mem_cons.2 ⟨hframe, hframes⟩
  unfold evaluate at heval
  cases hkind : p.kind <;> rw [hkind] at heval
  case consume terminal =>
    cases heval
    exact ⟨matchToken_truthful h terminal index, hframes⟩
  case sequence children =>
    cases heval
    exact ⟨h.success _ _ _, nextSequence_labelled context hframes _ _ _ _ _⟩
  case choice alternatives mode names =>
    have hlabelled : ∀ label, p.label.bind g.labelText? = some label → g.LabelsChoice label :=
      fun label hlabel => ⟨p, hp, ⟨alternatives, mode, names, hkind⟩, hlabel⟩
    dsimp only at heval
    have hturn := nextChoice_truthful
      { context, position := index, mode, label := p.label.bind g.labelText?, index := 0,
        later := [], found := .empty, matched := false } hlabelled hframes alternatives h
    rwa [Except.ok.inj heval] at hturn
  case many item separator =>
    cases heval
    exact ⟨h.success _ _ _, nextMany_labelled _ hframes _⟩
  case option item =>
    cases heval
    exact ⟨h, @hcall (.option index) trivial⟩
  case thunk rule =>
    dsimp only at heval
    split at heval
    · cases heval
      exact ⟨h, @hcall (.wrapped .thunk) trivial⟩
    · cases heval
  case indent child =>
    cases heval
    exact ⟨h, @hcall (.wrapped .indent) trivial⟩
  case group child =>
    cases heval
    exact ⟨h, @hcall (.wrapped .group) trivial⟩
  case conditional child reference before after =>
    cases heval
    exact ⟨h, @hcall (.wrapped .conditional) trivial⟩
  case literal text =>
    cases heval
    exact ⟨h.success _ _ _, hframes⟩
  case line kind =>
    cases heval
    exact ⟨h.success _ _ _, hframes⟩

theorem invoke_truthful (id : PatternId) (index : Nat) (context : Context)
    (hframes : ∀ frame ∈ frames, frame.Labelled g) {t : Tables} (h : t.store.Truthful g input) :
    (invoke g input id index context frames t).Truthful g input := by
  unfold invoke
  cases hp : g.pattern? id with
  | none => exact .faulted _
  | some p =>
    dsimp only
    split
    · exact .running ⟨h, hframes⟩
    · obtain ⟨store, memo, counts, cutoffs⟩ := t
      have hstore : store.Truthful g input := h
      dsimp only
      split
      · split
        · exact .faulted _
        · have hkind : FailureKind.infiniteRecursion.HoldsAt g input index := trivial
          exact .running ⟨hstore.failure hkind _, hframes⟩
      · dsimp only [Store.enter]
        split
        · exact .faulted _
        · rename_i hevaluate
          have hcomplete : ∀ frame ∈ Frame.complete ⟨index, p.recognizer⟩ :: frames,
              frame.Labelled g := List.forall_mem_cons.2 ⟨trivial, hframes⟩
          exact .running (evaluate_truthful (hstore.enter context _ _) (Array.mem_of_getElem? hp)
            hcomplete hevaluate)

/-- One step keeps a machine truthful. -/
theorem step_truthful {m : Machine} (h : m.Truthful g input) :
    (step g input m).Truthful g input := by
  obtain ⟨control, frames, t⟩ := m
  cases control with
  | call id index context => exact invoke_truthful id index context h.frames h.store
  | give results =>
    cases frames with
    | nil => exact .finished results h.store
    | cons frame frames =>
      obtain ⟨hframe, hframes⟩ := List.forall_mem_cons.1 h.frames
      exact .running (resume_truthful h.store hframe hframes results)

/-- A run keeps a machine truthful. -/
theorem run_truthful (fuel : Nat) {m : Machine} (h : m.Truthful g input) :
    (run g input fuel m).Truthful g input := by
  induction fuel generalizing m with
  | zero => exact .running h
  | succ fuel ih =>
    have hstep := step_truthful h
    simp only [run]
    generalize step g input m = p at hstep
    cases hstep with
    | running h => exact ih h
    | finished results h => exact .finished results h
    | faulted fault => exact .faulted fault

theorem initial_truthful (id : PatternId) : (Machine.initial id).Truthful g input where
  store := Store.truthful_empty
  frames := List.forall_mem_nil _

/-- The failures of a recognition are true. -/
theorem truthful_of_recognize {τ ν : Type} [Token τ ν] {config : ParserConfig} {id : PatternId}
    {tokens : Array τ} {results : List ResultId} {store : Store}
    (h : recognize g config id tokens = .ok (results, store)) :
    store.Truthful g (.ofTokens tokens) := by
  have hrun : (run g (.ofTokens tokens) config.fuel (.initial id)).Truthful g (.ofTokens tokens) :=
    run_truthful config.fuel (initial_truthful id)
  unfold recognize at h
  generalize run g (.ofTokens tokens) config.fuel (.initial id) = p at h hrun
  cases hrun with
  | running => cases h
  | faulted => cases h
  | finished results htruthful =>
    cases h
    exact htruthful

end

end ReversibleGrammar
