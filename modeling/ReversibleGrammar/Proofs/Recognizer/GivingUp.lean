/-
When a recognition is given up.

All calls of a construct are made inside the context of the construct, and contexts
only gain positions.  The first pattern opens the first position, so that a context
can only be missing at a later one.

* `Task.Inside` — the calls of a task are made inside a context;
* `evaluate_inside`, `resume_inside` — constructs keep to their context;
* `Faults.of_open` — no context is missing at the first position;
* `recognition_gives_up` — a recognition is only given up at a later one;
* `repeated_gives_up` — there it may be, though its input has a derivation.
-/
import ReversibleGrammar.Proofs.Recognizer.Answer
import ReversibleGrammar.Proofs.Recognizer.Soundness

namespace ReversibleGrammar

/-- The calls of the frame are made inside the context. -/
def Frame.Inside (context : Context) : Frame → Prop
  | sequence frame => frame.context = context
  | choice frame => frame.context = context
  | many frame _ _ => frame.context = context
  | complete _ | wrapped _ | option _ => True

/-- The calls of the task are made inside the context. -/
def Task.Inside (context : Context) : Task → Prop
  | call _ _ other => other = context
  | give _ => True
  | wait _ _ other frame => other = context ∧ frame.Inside context

section

variable {g : Grammar} {input : Input} {context : Context} {task : Task}

/-! ### Constructs keep to their context -/

theorem nextSequence_inside {children : List PatternId} {pending : List ResultId}
    {following finished : ResultSet} {s : Store}
    (h : nextSequence context [] children pending following finished s = task.turn []) :
    task.Inside context := by
  induction children generalizing pending following finished with
  | nil =>
    obtain rfl := Task.turn_give h.symm
    trivial
  | cons child later ih =>
    unfold nextSequence at h
    rcases htake : takeSuccess s finished pending with ⟨finished', _ | ⟨current, rest⟩⟩
    · simp only [htake] at h
      exact ih h
    · simp only [htake] at h
      obtain rfl := Task.turn_wait h.symm
      exact ⟨rfl, rfl⟩

theorem nextChoice_inside {frame : ChoiceFrame} {later : List PatternId} {s t : Store}
    (h : nextChoice frame [] later s = (task.turn [], t)) : task.Inside frame.context := by
  cases later with
  | cons alternative later =>
    obtain rfl := Task.turn_wait (congrArg Prod.fst h).symm
    exact ⟨rfl, rfl⟩
  | nil =>
    simp only [nextChoice] at h
    split at h
    all_goals
      obtain rfl := Task.turn_give (congrArg Prod.fst h).symm
      trivial

theorem nextMany_inside {frame : ManyFrame} {s : Store}
    (h : nextMany frame [] s = task.turn []) : task.Inside frame.context := by
  have hcall {frame : ManyFrame} {state : PartialMany}
      (h : callMany frame state [] s = task.turn []) : task.Inside frame.context := by
    unfold callMany at h
    split at h
    all_goals
      obtain rfl := Task.turn_wait h.symm
      exact ⟨rfl, rfl⟩
  unfold nextMany at h
  split at h
  · exact (hcall h :)
  · split at h
    · exact (hcall h :)
    · obtain rfl := Task.turn_give h.symm
      trivial

theorem extendMany_context (parent : Result) (mark : Nat) (isSeparator : Bool)
    (results : List ResultId) (frame : ManyFrame) (s : Store) :
    (extendMany parent mark isSeparator results frame s).1.context = frame.context := by
  have hemit (frame : ManyFrame) (r : ResultId) (stop : Nat) :
      (emitMany frame r stop).context = frame.context := by
    unfold emitMany
    split <;> rfl
  have hseparate (frame : ManyFrame) (r : ResultId) :
      (separateMany frame r mark).context = frame.context := by
    unfold separateMany
    split <;> rfl
  induction results generalizing frame s with
  | nil => rfl
  | cons r rs ih =>
    unfold extendMany
    dsimp only
    split
    · split
      · exact ih frame s
      · cases isSeparator with
        | true => exact (ih _ _).trans (hseparate ..)
        | false => exact (ih _ _).trans (hemit ..)
    · exact ih frame s

theorem evaluate_inside {p : Pattern} {index : Nat} {s t : Store}
    (h : evaluate g input p index context [] s = .ok (task.turn [], t)) : task.Inside context := by
  have hwait {id : PatternId} {frame : Frame}
      (h : (Control.call id index context, [frame]) = task.turn [])
      (hframe : frame.Inside context) : task.Inside context := by
    obtain rfl := Task.turn_wait h.symm
    exact ⟨rfl, hframe⟩
  have hgive {results : List ResultId}
      (h : (Control.give results, ([] : List Frame)) = task.turn []) : task.Inside context := by
    obtain rfl := Task.turn_give h.symm
    trivial
  unfold evaluate at h
  cases hkind : p.kind with
  | consume | literal | line =>
    simp only [hkind] at h
    split at h
    injection h with h
    injection h with h
    exact hgive h
  | sequence children =>
    simp only [hkind] at h
    split at h
    injection h with h
    injection h with h
    exact nextSequence_inside h
  | choice alternatives mode names =>
    simp only [hkind] at h
    injection h with h
    exact (nextChoice_inside h :)
  | many item separator =>
    simp only [hkind, startMany] at h
    split at h
    injection h with h
    injection h with h
    exact (nextMany_inside h :)
  | thunk rule =>
    simp only [hkind] at h
    split at h
    · injection h with h
      injection h with h
      exact hwait h trivial
    · cases h
  | option child | indent child | group child | conditional child =>
    simp only [hkind] at h
    injection h with h
    injection h with h
    exact hwait h trivial

theorem resume_inside {frame : Frame} (hframe : frame.Inside context) {results : List ResultId}
    {t u : Tables} (h : resume frame results [] t = task.machine [] u) : task.Inside context := by
  obtain ⟨store, memo, counts, cutoffs⟩ := t
  have hgive {results : List ResultId} {v : Tables}
      (h : (⟨.give results, [], v⟩ : Machine) = task.machine [] u) : task.Inside context := by
    obtain ⟨hturn, -⟩ := Task.of_machine h
    obtain rfl := Task.turn_give hturn.symm
    trivial
  cases frame with
  | complete | wrapped | option => exact hgive h
  | sequence frame =>
    obtain rfl : frame.context = context := hframe
    rcases hextend : extendSequence frame.current results frame.following store with ⟨following, s⟩
    simp only [resume, hextend] at h
    obtain ⟨hturn, -⟩ := Task.of_machine h
    exact nextSequence_inside hturn
  | choice frame =>
    obtain rfl : frame.context = context := hframe
    rcases hchoice : choiceResults frame.index results .empty .empty store with
      ⟨⟨successes, failures⟩, s⟩
    simp only [resume, resumeChoice, hchoice] at h
    obtain ⟨hturn, -⟩ := Task.of_machine h
    split at hturn
    · obtain rfl := Task.turn_give hturn.symm
      trivial
    · exact (nextChoice_inside (Prod.ext hturn rfl) :)
  | many frame state isSeparator =>
    have hcontext := extendMany_context (store.result state.result) state.mark isSeparator results
      frame store
    rcases hextend : extendMany (store.result state.result) state.mark isSeparator results frame
      store with ⟨extended, s⟩
    simp only [resume, hextend] at h
    obtain ⟨hturn, -⟩ := Task.of_machine h
    rw [hextend] at hcontext
    obtain rfl : frame.context = context := hframe
    rw [← hcontext]
    exact nextMany_inside hturn

end

/-! ### Missing contexts -/

section

variable {τ ν : Type} [Token τ ν] {g : Grammar} {tokens : Array τ}

/-- The site is that of a bounded pattern at a position after the first. -/
def Site.IsLater (g : Grammar) (size : Nat) (site : Site) : Prop :=
  0 < site.index ∧ site.index ≤ size ∧
    ∃ id p, g.pattern? id = some p ∧ p.kind.isBounded = true ∧ site.recognizer = p.recognizer

/-- Inside a context that has the first position, a context is only missing at later ones. -/
theorem Faults.isLater (hg : g.Closed) {task : Task} {t : Tables} {site : Site}
    (h : Faults g (.ofTokens tokens) task t site) {id : PatternId} {start : Nat}
    (ht : t.Sound g tokens) (hready : task.Ready g tokens t.store id start) {context : Context}
    (hinside : task.Inside context) (hopen : (context.at? 0).isSome) :
    site.IsLater g tokens.size := by
  induction h generalizing id start context with
  | @call other p index context' t hp hreplay hbounded hcount hmap =>
    obtain ⟨-, -, hindex⟩ := hready
    obtain rfl : context' = context := hinside
    refine ⟨Nat.pos_of_ne_zero ?_, hindex, other, p, hp, hbounded, rfl⟩
    rintro rfl
    rw [hmap] at hopen
    cases hopen
  | @evaluate _ p index context' inner t store _ _ _ hp hreplay hcount henter hevaluate h ih =>
    obtain ⟨-, -, hindex⟩ := hready
    obtain rfl : context' = context := hinside
    obtain ⟨hsound, hgrows, -⟩ := ht.store.enter context' ⟨index, p.recognizer⟩
      (t.counts.getD ⟨index, p.recognizer⟩ 0 + 1)
    rw [henter] at hsound hgrows
    obtain ⟨hextends, hready⟩ := evaluate_ready hsound hp hindex (hevaluate [])
    exact ih (ht.withStore hextends.sound (hgrows.trans hextends.grows) _) hready
      (evaluate_inside (hevaluate [])) (by simp [Store.isSome_at?_enter henter, hopen])
  | waitCall h ih =>
    obtain ⟨-, -, hindex⟩ := hready
    obtain ⟨rfl, -⟩ := hinside
    exact ih ht ⟨rfl, rfl, hindex⟩ rfl hopen
  | waitNext h hresume h' ih =>
    obtain ⟨hwaits, hle, hindex⟩ := hready
    obtain ⟨rfl, hframe⟩ := hinside
    obtain ⟨hu, hgrows, hresults⟩ := h.supports hg ht ⟨rfl, rfl, hindex⟩
    obtain ⟨s, hextends, rfl, hready⟩ :=
      resume_ready hu.store (hwaits.mono ht.store hgrows) hle hindex hresults (hresume [])
    exact ih (hu.withStore hextends.sound hextends.grows _) hready
      (resume_inside hframe (hresume [])) hopen

/-- A recognition is only given up at a later position. -/
theorem Faults.isLater_of_initial (hg : g.Closed) {id : PatternId} {site : Site}
    (h : Faults g (.ofTokens tokens) (.call id 0 []) .empty site) :
    site.IsLater g tokens.size := by
  cases h with
  | call hp hreplay hbounded hcount hmap =>
    -- nothing has been entered yet
    simp [Tables.empty] at hcount
  | @evaluate _ p _ _ inner _ store _ _ _ hp hreplay hcount henter hevaluate h =>
    have hsound : Tables.empty.Sound g tokens := Tables.sound_empty
    obtain ⟨hstore, hgrows, -⟩ := hsound.store.enter [] ⟨0, p.recognizer⟩
      (Tables.empty.counts.getD ⟨0, p.recognizer⟩ 0 + 1)
    rw [henter] at hstore hgrows
    obtain ⟨hextends, hready⟩ := evaluate_ready hstore hp (Nat.zero_le _) (hevaluate [])
    have hopen : (inner.at? 0).isSome := by simp [Store.isSome_at?_enter henter]
    exact h.isLater hg (hsound.withStore hextends.sound (hgrows.trans hextends.grows) _) hready
      (evaluate_inside (hevaluate [])) hopen

/-! ### Recognition -/

/-- What has been recognized is answered: by candidates, and by trees or as no match. -/
theorem answers_of_recognize (hg : g.Closed) (hl : g.DistinctLabels) {config : ParserConfig}
    {id : PatternId} (hid : id < g.patterns.size) {results : List ResultId} {store : Store}
    (h : recognize g config id tokens = .ok (results, store)) :
    (∃ cs, candidates g config id tokens = .ok cs) ∧
      ((∃ trees, parseAll g config id tokens = .ok trees) ∨
        ∃ failures, parseAll g config id tokens = .error (.noMatch failures)) ∧
      ((∃ tree, parseOne g config id tokens = .ok tree) ∨
        ∃ failures, parseOne g config id tokens = .error (.noMatch failures)) := by
  refine ⟨?_, ?_, ?_⟩
  · have hall : ∀ r ∈ results, ∃ candidate : Candidate τ ν,
        candidateOf g config id tokens store (store.result r) = .ok candidate ∧ True := by
      intro r hr
      unfold candidateOf
      split
      · rename_i f hf
        obtain ⟨tree, htree, -⟩ := recognize_sound hg hl hid h hr hf
        exact ⟨_, map_eq_ok_iff.2 ⟨tree, htree, rfl⟩, trivial⟩
      · exact ⟨_, rfl, trivial⟩
    obtain ⟨cs, hcs, -⟩ := exists_mapM_eq_ok hall
    exact ⟨cs, bind_eq_ok_iff.2 ⟨_, h, hcs⟩⟩
  · rcases parseUpTo_sound hg hl hid h none with ⟨trees, htrees, -⟩ | hnone
    · exact .inl ⟨trees, htrees⟩
    · exact .inr hnone
  · rcases parseUpTo_sound hg hl hid h (some 1) with ⟨trees, htrees, -⟩ | ⟨failures, hfailures⟩
    · cases trees with
      | nil => exact .inr ⟨[], by simp only [parseOne, htrees, bind, Except.bind]⟩
      | cons tree trees =>
        exact .inl ⟨tree, by simp only [parseOne, htrees, bind, Except.bind]; rfl⟩
    · exact .inr ⟨failures, by simp only [parseOne, hfailures, bind, Except.bind]⟩

/-- Without a cycle of thunks, the parser answers, or it gives up for lack of a context at a
position after the first. -/
theorem recognition_gives_up (hg : g.Built) (hl : g.DistinctLabels) (hthunk : g.NoThunkCycle)
    {id : PatternId} (hid : id < g.size) (tokens : Array τ) :
    ∃ fuel, ∀ config : ParserConfig, fuel ≤ config.fuel →
      ((∃ cs, candidates g config id tokens = .ok cs) ∧
        ((∃ trees, parseAll g config id tokens = .ok trees) ∨
          ∃ failures, parseAll g config id tokens = .error (.noMatch failures)) ∧
        ((∃ tree, parseOne g config id tokens = .ok tree) ∨
          ∃ failures, parseOne g config id tokens = .error (.noMatch failures))) ∨
      ∃ site : Site, site.IsLater g tokens.size ∧ GivesUp g config id tokens site := by
  have hclosed := hg.closed
  obtain ⟨fuel, hfuel⟩ := exists_recognize_fuel hclosed hthunk hid tokens
  refine ⟨fuel, fun config hle => ?_⟩
  rcases recognize_cases hclosed config hid tokens with ⟨results, u, -, h⟩ | ⟨site, hfaults, h⟩ |
    hout
  · exact .inl (answers_of_recognize hclosed hl hid h)
  · exact .inr ⟨site, hfaults.isLater_of_initial hclosed, givesUp_of_recognize h⟩
  · exact absurd hout (hfuel config hle)

end

/-- On `a x`, the parser of the left-recursive suffixes answers or gives up later on. -/
theorem recognition_gives_up_suffixes :
    ∃ fuel, ∀ config : ParserConfig, fuel ≤ config.fuel →
      ((∃ cs, candidates Grammar.suffixes config 4 #["a", "x"] = .ok cs) ∧
        ((∃ trees, parseAll Grammar.suffixes config 4 #["a", "x"] = .ok trees) ∨
          ∃ failures, parseAll Grammar.suffixes config 4 #["a", "x"] =
            .error (.noMatch failures)) ∧
        ((∃ tree, parseOne Grammar.suffixes config 4 #["a", "x"] = .ok tree) ∨
          ∃ failures, parseOne Grammar.suffixes config 4 #["a", "x"] =
            .error (.noMatch failures))) ∨
      ∃ site : Site, site.IsLater Grammar.suffixes 2 ∧
        GivesUp Grammar.suffixes config 4 #["a", "x"] site :=
  recognition_gives_up Grammar.built_suffixes Grammar.distinctLabels_suffixes
    Grammar.noThunkCycle_suffixes (by decide) #["a", "x"]

/-- An `a`, or three times the same: an `a` and a `b`. -/
def Grammar.repeated : Grammar where
  patterns := #[{ id := 0, kind := .consume "a" }, { id := 1, kind := .consume "b" },
    { id := 2, kind := .sequence [1] }, { id := 3, kind := .sequence [0, 2] },
    { id := 4, kind := .choice [0, 3, 3, 3] .parallel none }]
  rules := #[]
  labels := #[]

theorem Grammar.built_repeated : repeated.Built :=
  ⟨[.consume "a", .consume "b", .sequence [1], .sequence [0, 2], .parallelChoice [0, 3, 3, 3]],
    by cbv⟩

/-- A failure is not remembered, so that the end of the input is looked at for a `b` once too often,
from a context that has not reached it.  The derivation of `a` is lost with that. -/
theorem repeated_gives_up :
    (Grammar.repeated.Built ∧ Grammar.repeated.NoThunkCycle ∧
      ∀ p ∈ Grammar.repeated.patterns, p.label = none) ∧
      (∃ tree : Tree String, tree.Derives Grammar.repeated #["a"] 4 0 1) ∧
        GivesUp (ν := String) Grammar.repeated ⟨3, 1000⟩ 4 #["a"] ⟨1, .pattern 2⟩ := by
  refine ⟨⟨Grammar.built_repeated, Grammar.noThunkCycle_of_bodies (by simp [Grammar.repeated]),
    by simp [Grammar.repeated]⟩, ?_, givesUp_of_recognize ?_⟩
  · refine ⟨.choice { id := 4, kind := .choice [0, 3, 3, 3] .parallel none } 0
      (.leaf { id := 0, kind := .consume "a" } "a"), ?_⟩
    simp [Tree.Derives, Grammar.repeated, Grammar.pattern?, Token.is, Token.value]
  · have hfault : (match recognize (ν := String) Grammar.repeated ⟨3, 1000⟩ 4 #["a"] with
        | .error (.fault fault) => decide (fault = .noContext ⟨1, .pattern 2⟩)
        | _ => false) = true := by
      decide +kernel
    split at hfault
    · rename_i fault h
      rw [h, of_decide_eq_true hfault]
    · cases hfault

end ReversibleGrammar
