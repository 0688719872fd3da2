/-
The forms of stored fragments.

A store keeps the prefixes of sequences and repetitions beside the matches that they grow into, and
nothing in a fragment says which of them it is.  Each is of some form all the same, and its leaves
stand for tokens that follow each other: it is stored where its parts are known to do so.

* `Store.Forms` — what a fragment needs of its parts to be of a form itself;
* `Store.Spanned` — every stored fragment is of a form;
* `Store.Makes` — a store with fragments added whose parts are as they must be;
* `resume_makes`, `evaluate_makes` — constructs add such fragments and nothing else;
* `step_spanned`, `spanned_of_run` — a step keeps a store spanned, so that every store of a run is.
-/
import ReversibleGrammar.Proofs.Recognizer.Storing

namespace ReversibleGrammar

namespace Store

/-- The parts of the fragment are of the forms that it needs to be of a form itself. -/
inductive Forms (s : Store) (input : Input) : Fragment → Prop
  | leaf {i : Nat} (hi : i < input.size) : Forms s input (.leaf (input.value i))
  | blank {fragment : Fragment} (hblank : fragment.isBlank = true) : Forms s input fragment
  | inner {fragment : Fragment} {part : FragmentId} {i j : Nat}
      (hpart : fragment.inner? = some part) (h : s.Spans input .whole part i j) :
      Forms s input fragment
  | sequenceStart : Forms s input .sequenceStart
  | sequenceStep {before last : FragmentId} {i j k : Nat} (hbefore : s.Spans input .first before i j)
      (hlast : s.Spans input .whole last j k) : Forms s input (.sequenceStep before last)
  | manyStart : Forms s input .manyStart
  | manyItem {separated : Bool} {before item : FragmentId} {i j k : Nat}
      (hbefore : s.Spans input (.chain separated false) before i j)
      (hitem : s.Spans input .whole item j k) : Forms s input (.manyItem before item)
  | manySeparator {before separator : FragmentId} {i j k : Nat}
      (hbefore : s.Spans input (.chain true true) before i j)
      (hseparator : s.Spans input .whole separator j k) :
      Forms s input (.manySeparator before separator)

/-- Every stored fragment is of a form and stands for tokens that follow each other. -/
def Spanned (s : Store) (input : Input) : Prop :=
  ∀ n fragment, s.fragments.get? n = some fragment → ∃ form i j, s.Spans input form n i j

/-- The later store has results added whose fragments are of a form. -/
inductive Makes (s : Store) (input : Input) : Store → Prop
  | refl : Makes s input s
  | success {t : Store} (h : Makes s input t) {fragment : Fragment} (hforms : t.Forms input fragment)
      (stop : Nat) : Makes s input (Store.success fragment stop emptyMap t).2
  | failure {t : Store} (h : Makes s input t) (kind : FailureKind) (position : Nat) :
      Makes s input (Store.failure kind position emptyMap t).2

/-- The match with a number stands for tokens from a position on, if it is a match. -/
def SpansFrom (s : Store) (input : Input) (index : Nat) (id : ResultId) : Prop :=
  ∃ r, s.results.get? id = some r ∧ ∀ f, r.outcome = .success f → s.Spans input .whole f index r.stop

variable {s t : Store} {input : Input} {index : Nat}

theorem Forms.exists_spans {fragment : Fragment} (h : s.Forms input fragment) (hgrows : s.Grows t)
    {n : FragmentId} (hn : t.fragments.get? n = some fragment) :
    ∃ form i j, t.Spans input form n i j := by
  cases h with
  | leaf hi => exact ⟨_, _, _, .leaf hn hi⟩
  | blank hblank => exact ⟨_, _, _, .blank 0 hn hblank⟩
  | inner hpart h => exact ⟨_, _, _, .inner hn hpart (h.mono hgrows)⟩
  | sequenceStart => exact ⟨_, _, _, .sequenceStart 0 hn⟩
  | sequenceStep hbefore hlast =>
    exact ⟨_, _, _, .sequenceStep hn (hbefore.mono hgrows) (hlast.mono hgrows)⟩
  | manyStart => exact ⟨_, _, _, .manyStart false 0 hn⟩
  | manyItem hbefore hitem =>
    exact ⟨_, _, _, .manyItem hn (hbefore.mono hgrows) (hitem.mono hgrows)⟩
  | manySeparator hbefore hseparator =>
    exact ⟨_, _, _, .manySeparator hn (hbefore.mono hgrows) (hseparator.mono hgrows)⟩

theorem Makes.adds (h : s.Makes input t) : s.Adds t := by
  induction h with
  | refl => exact .refl
  | success _ hforms stop ih => exact ih.success _ stop
  | failure _ kind position ih => exact ih.failure kind position

theorem Makes.grows (h : s.Makes input t) : s.Grows t := h.adds.grows

theorem Makes.plain (h : s.Makes input t) (hs : s.Plain) : t.Plain := h.adds.plain hs

/-- A later store with the same fragments is spanned, too. -/
theorem Spanned.later (hs : s.Spanned input) (hgrows : s.Grows t)
    (hfragments : t.fragments = s.fragments) : t.Spanned input := by
  intro n fragment hn
  obtain ⟨form, i, j, hspans⟩ := hs n fragment (hfragments ▸ hn)
  exact ⟨form, i, j, hspans.mono hgrows⟩

/-- What is added to a store that is spanned is spanned. -/
theorem Makes.spanned (h : s.Makes input t) (hs : s.Spanned input) : t.Spanned input := by
  induction h with
  | refl => exact hs
  | @success t _ fragment hforms stop ih =>
    have hgrows : t.Grows (Store.success fragment stop emptyMap t).2 :=
      (Adds.refl.success fragment stop).grows
    intro n stored hn
    -- what was stored before keeps its form, also if it is the same fragment
    rcases Interner.get?_intern_cases t.fragments fragment hn with hold | ⟨rfl, -⟩
    · obtain ⟨form, i, j, hspans⟩ := ih n stored hold
      exact ⟨form, i, j, hspans.mono hgrows⟩
    · exact hforms.exists_spans hgrows hn
  | failure _ kind position ih => exact ih.later (Adds.refl.failure kind position).grows rfl

theorem SpansFrom.mono {id : ResultId} (hgrows : s.Grows t) (h : s.SpansFrom input index id) :
    t.SpansFrom input index id := by
  obtain ⟨r, hr, hspans⟩ := h
  exact ⟨r, hgrows.results hr, fun f hf => (hspans f hf).mono hgrows⟩

theorem SpansFrom.spans {id : ResultId} {f : FragmentId} (h : s.SpansFrom input index id)
    (hf : (s.result id).outcome = .success f) :
    s.Spans input .whole f index (s.result id).stop := by
  obtain ⟨r, hr, hspans⟩ := h
  rw [result_eq hr] at hf ⊢
  exact hspans f hf

end Store

/-! ### Constructs -/

section

variable {s t : Store} {input : Input} {index : Nat} (hs : s.Plain) (h : s.Makes input t)

include h in
theorem matchToken_makes (terminal : String) (index : Nat) :
    s.Makes input (matchToken input terminal index t).2 := by
  unfold matchToken
  split
  · rename_i hindex
    split
    · exact h.success (.leaf hindex) _
    · exact h.failure _ _
  · exact h.failure _ _

include hs h

theorem wrapResult_makes (wrapper : Wrapper) {id : ResultId} (hid : s.SpansFrom input index id) :
    s.Makes input (wrapResult wrapper id t).2 := by
  unfold wrapResult
  dsimp only
  split
  · rename_i child hf
    rw [(h.plain hs).map_eq hf]
    have hchild := (hid.mono h.grows).spans hf
    exact h.success (.inner rfl hchild) _
  · exact h

theorem wrapResults_makes (wrapper : Wrapper) {ids : List ResultId}
    (hids : ∀ id ∈ ids, s.SpansFrom input index id) :
    s.Makes input (ids.mapM (wrapResult wrapper) t).2 := by
  induction ids generalizing t with
  | nil => exact h
  | cons id ids ih =>
    obtain ⟨hid, hids⟩ := List.forall_mem_cons.1 hids
    rw [List.mapM_cons]
    exact ih (wrapResult_makes hs h wrapper hid) hids

theorem optionResults_makes {ids : List ResultId} (hids : ∀ id ∈ ids, s.SpansFrom input index id)
    (out : ResultSet) : s.Makes input (optionResults ids out t).2 := by
  induction ids generalizing out t with
  | nil => exact h
  | cons id ids ih =>
    obtain ⟨hid, hids⟩ := List.forall_mem_cons.1 hids
    unfold optionResults
    dsimp only
    split
    · rename_i item hf
      rw [(h.plain hs).map_eq hf]
      have hitem := (hid.mono h.grows).spans hf
      exact ih (h.success (.inner rfl hitem) _) hids _
    · exact ih h hids out

/-- A prefix is extended by children that start where it stops. -/
theorem extendSequence_makes {current : Result} (hmap : current.map = emptyMap) {start : Nat}
    (hcurrent : ∀ f, current.outcome = .success f → s.Spans input .first f start index)
    {ids : List ResultId} (hids : ∀ id ∈ ids, s.SpansFrom input index id) (following : ResultSet) :
    s.Makes input (extendSequence current ids following t).2 := by
  induction ids generalizing following t with
  | nil => exact h
  | cons id ids ih =>
    obtain ⟨hid, hids⟩ := List.forall_mem_cons.1 hids
    unfold extendSequence
    dsimp only
    split
    · rename_i before last hbefore hf
      rw [(h.plain hs).map_eq hf, Store.mergeMaps_empty, hmap]
      have hprefix := (hcurrent before hbefore).mono h.grows
      have hlast := (hid.mono h.grows).spans hf
      exact ih (h.success (.sequenceStep hprefix hlast) _) hids _
    · exact ih h hids _

theorem choiceResults_makes (alternative : Nat) {ids : List ResultId}
    (hids : ∀ id ∈ ids, s.SpansFrom input index id) (successes failures : ResultSet) :
    s.Makes input (choiceResults alternative ids successes failures t).2 := by
  induction ids generalizing successes failures t with
  | nil => exact h
  | cons id ids ih =>
    obtain ⟨hid, hids⟩ := List.forall_mem_cons.1 hids
    unfold choiceResults
    dsimp only
    split
    · rename_i chosen hf
      rw [(h.plain hs).map_eq hf]
      have hchosen := (hid.mono h.grows).spans hf
      exact ih (h.success (.inner rfl hchosen) _) hids _ _
    · exact ih h hids _ _

/-- A state of a repetition is extended by items where an item may come, and by separators where a
separator must. -/
theorem extendMany_makes {parent : Result} (hmap : parent.map = emptyMap) {start : Nat}
    {separated isSeparator : Bool} (hseparated : isSeparator = true → separated = true)
    (hparent : ∀ f, parent.outcome = .success f →
      s.Spans input (.chain separated isSeparator) f start index)
    (mark : Nat) {ids : List ResultId} (hids : ∀ id ∈ ids, s.SpansFrom input index id)
    (frame : ManyFrame) : s.Makes input (extendMany parent mark isSeparator ids frame t).2 := by
  induction ids generalizing frame t with
  | nil => exact h
  | cons id ids ih =>
    obtain ⟨hid, hids⟩ := List.forall_mem_cons.1 hids
    unfold extendMany
    dsimp only
    split
    · rename_i before part hbefore hf
      split
      · exact ih h hids frame
      · rw [(h.plain hs).map_eq hf, Store.mergeMaps_empty, hmap]
        have hchain := (hparent before hbefore).mono h.grows
        have hpart := (hid.mono h.grows).spans hf
        refine ih (h.success ?_ _) hids _
        cases isSeparator with
        | true =>
          obtain rfl := hseparated rfl
          exact .manySeparator hchain hpart
        | false => exact .manyItem hchain hpart
    · exact ih h hids frame

omit hs in
theorem nextChoice_makes (frame : ChoiceFrame) (frames : List Frame) (later : List PatternId) :
    s.Makes input (nextChoice frame frames later t).2 := by
  cases later with
  | cons alternative later => exact h
  | nil =>
    simp only [nextChoice]
    split
    · exact h.failure _ _
    · exact h

theorem resumeChoice_makes (frame : ChoiceFrame) {results : List ResultId}
    (hresults : ∀ r ∈ results, s.SpansFrom input index r) (frames : List Frame) :
    s.Makes input (resumeChoice frame results frames t).2 := by
  have hchoice := choiceResults_makes hs h frame.index hresults .empty .empty
  revert hchoice
  unfold resumeChoice
  rcases choiceResults frame.index results .empty .empty t with ⟨⟨successes, failures⟩, u⟩
  intro hchoice
  dsimp only
  split
  · exact hchoice
  · exact nextChoice_makes hchoice _ frames frame.later

end

/-! ### Steps -/

/-- A pattern starts with fragments of a form. -/
theorem evaluate_makes {g : Grammar} {input : Input} {p : Pattern} {index : Nat} {context : Context}
    {frames : List Frame} {turn : Turn} {s t : Store}
    (h : evaluate g input p index context frames s = .ok (turn, t)) : s.Makes input t := by
  unfold evaluate at h
  cases hkind : p.kind <;> rw [hkind] at h
  case consume terminal =>
    cases h
    exact matchToken_makes .refl terminal index
  case choice alternatives mode names =>
    dsimp only at h
    have hnext := nextChoice_makes (Store.Makes.refl : s.Makes input s)
      { context, position := index, mode, label := p.label.bind g.labelText?, index := 0,
        later := [], found := .empty, matched := false } frames alternatives
    rwa [Except.ok.inj h] at hnext
  case sequence children =>
    cases h
    exact Store.Makes.refl.success .sequenceStart _
  case many item separator =>
    cases h
    exact Store.Makes.refl.success .manyStart _
  case literal | line =>
    cases h
    exact Store.Makes.refl.success (.blank rfl) _
  case option | indent | group | conditional =>
    cases h
    exact .refl
  case thunk rule =>
    dsimp only at h
    split at h
    · cases h
      exact .refl
    · cases h

section

variable {τ ν : Type} [Token τ ν] {g : Grammar} {tokens : Array τ}

theorem Store.Supports.spansFrom {s : Store} {id : PatternId} {start : Nat} {r : ResultId}
    (h : s.Supports g tokens (.whole id) start r) : s.SpansFrom (.ofTokens tokens) start r := by
  obtain ⟨result, hr, haccepts⟩ := h
  exact ⟨result, hr, fun f hf => (haccepts.means f hf).spans⟩

/-- A construct that waits for matches makes fragments of a form of them. -/
theorem resume_makes {t : Tables} (hplain : t.store.Plain) {frame : Frame} {child id : PatternId}
    {index start : Nat} (hwaits : t.store.Waits g tokens frame child index id start)
    {results : List ResultId}
    (hresults : ∀ r ∈ results, t.store.SpansFrom (.ofTokens tokens) index r) (frames : List Frame) :
    t.store.Makes (.ofTokens tokens) (resume frame results frames t).tables.store := by
  obtain ⟨store, memo, counts, cutoffs⟩ := t
  -- a state of a repetition is a chain that ends where the call starts
  have hstate {frame : ManyFrame} {state : PartialMany} {isSeparator : Bool} {f : FragmentId}
      (hready : store.StateReady g tokens frame.item frame.separator start state)
      (hindex : store.Matched state.result f index)
      (hafter : (state.afterItem && frame.separator.isSome) = isSeparator)
      (hseparated : isSeparator = true → frame.separator.isSome = true) :
      store.Makes (.ofTokens tokens) (extendMany (store.result state.result) state.mark isSeparator
        results frame store).2 := by
    have hmap : (store.result state.result).map = emptyMap := by rw [hindex.result_eq]
    obtain ⟨-, -, hmeans⟩ := hready.supports.matched hindex
    have hchain : store.Spans (.ofTokens tokens) (.chain frame.separator.isSome isSeparator) f start
        index := hafter ▸ hmeans.spans
    have hparent : ∀ f', (store.result state.result).outcome = .success f' →
        store.Spans (.ofTokens tokens) (.chain frame.separator.isSome isSeparator) f' start index := by
      intro f' hf'
      rw [hindex.result_eq] at hf'
      cases hf'
      exact hchain
    exact extendMany_makes hplain .refl hmap hseparated hparent state.mark hresults frame
  cases hwaits with
  | wrapped => exact wrapResults_makes hplain .refl _ hresults
  | option => exact (optionResults_makes hplain .refl hresults .empty).success (.blank rfl) _
  | choice => exact resumeChoice_makes hplain .refl _ hresults frames
  | @sequence frame _ _ _ h =>
    obtain ⟨p, before, -, -, ⟨r, f, hmatched, hcurrent, hsupports⟩, -⟩ := h.kind
    have hmap : frame.current.map = emptyMap := by rw [hcurrent]
    obtain ⟨-, -, hmeans⟩ := hsupports.matched hmatched
    have hprefix : ∀ f', frame.current.outcome = .success f' →
        store.Spans (.ofTokens tokens) .first f' start index := by
      intro f' hf'
      rw [hcurrent] at hf'
      cases hf'
      exact hmeans.spans
    exact extendSequence_makes hplain .refl hmap hprefix hresults _
  | item _ hready hindex hafter => exact hstate hready hindex hafter nofun
  | separator _ hready hindex hafter hseparator =>
    have hsome : Option.isSome _ = true := Option.isSome_iff_exists.2 ⟨_, hseparator⟩
    exact hstate hready hindex (by rw [hafter, hsome]; rfl) fun _ => hsome

/-- A step keeps a store spanned. -/
theorem step_spanned {m m' : Machine} (hm : m.Plain g tokens)
    (hspanned : m.tables.store.Spanned (.ofTokens tokens))
    (h : step g (.ofTokens tokens) m = .running m') :
    m'.tables.store.Spanned (.ofTokens tokens) := by
  obtain ⟨hm, hplain⟩ := hm
  obtain ⟨control, frames, t⟩ := m
  cases control with
  | call id index context =>
    rcases invoke_eq_running h with ⟨p, -, ⟨known, -, rfl⟩ | ⟨map, failure, store, hfailure, rfl⟩ |
      ⟨inner, store, control, frames', store', henter, hevaluate, rfl⟩⟩
    · exact hspanned
    · -- a failure has no fragment
      obtain ⟨r, s, k, hstored, hextends, -, -⟩ :=
        hm.tables.store.failure_eq .infiniteRecursion index map
      have hfragments := congrArg (fun stored => stored.2.fragments) hfailure
      rw [hstored] at hfailure
      cases hfailure
      exact hspanned.later hextends.grows hfragments.symm
    · obtain ⟨-, hgrows, -⟩ := hm.tables.store.enter context ⟨index, p.recognizer⟩
        (t.counts.getD ⟨index, p.recognizer⟩ 0 + 1)
      have hfragments := congrArg (fun entered => entered.2.fragments) henter
      rw [henter] at hgrows
      exact (evaluate_makes hevaluate).spanned (hspanned.later hgrows hfragments.symm)
  | give results =>
    cases frames with
    | nil => cases h
    | cons frame frames =>
      cases h
      obtain ⟨id, index, -, hstack, hresults⟩ := hm.gives results rfl
      cases hstack with
      | complete => exact hspanned
      | waits hwaits =>
        have hspans : ∀ r ∈ results, t.store.SpansFrom (.ofTokens tokens) index r :=
          fun r hr => (hresults r hr).spansFrom
        exact (resume_makes hplain hwaits hspans frames).spanned hspanned

theorem spanned_empty (input : Input) : Store.empty.Spanned input := by
  intro n fragment hn
  simp [Store.empty, Interner.empty, Interner.get?] at hn

/-- Every store of a run from the first token is spanned. -/
theorem spanned_of_run (hg : g.Closed) {root : PatternId} {fuel : Nat} {m : Machine}
    (h : run g (.ofTokens tokens) fuel (.initial root) = .running m) :
    m.tables.store.Spanned (.ofTokens tokens) := by
  have hkeeps : m.Plain g tokens ∧ m.tables.store.Spanned (.ofTokens tokens) := by
    refine run_keeps (P := fun m => m.Plain g tokens ∧ m.tables.store.Spanned (.ofTokens tokens)) ?_
      fuel ⟨initial_plain root, spanned_empty _⟩ h
    rintro m m' ⟨hm, hspanned⟩ hstep
    exact ⟨step_plain hg hm hstep, step_spanned hm hspanned hstep⟩
  exact hkeeps.2

end

end ReversibleGrammar
