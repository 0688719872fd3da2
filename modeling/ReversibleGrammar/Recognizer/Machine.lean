/-
The recognizer as a machine.

The machine either calls a pattern at a position or gives results to the
construct that waits for them; what waits is a stack of frames.  Each step is a
finite piece of work, so that neither the grammar nor the input bounds the depth
of anything but the stack.

Results are remembered per site.  A pattern other than a thunk or a token may be
entered at one position once more than there are tokens left, and once again; a
call beyond that fails.  A remembered success is given again where the context
allows it.

* `step` — one step of the machine;
* `run` — all of its steps, as far as the fuel goes;
* `run_add` — more fuel keeps an answer.
-/
import ReversibleGrammar.Grammar.Basic
import ReversibleGrammar.Recognizer.Store

namespace ReversibleGrammar

/-- A token list as far as recognition sees it. -/
structure Input where
  /-- The number of tokens. -/
  size : Nat
  /-- The token at a position has a type. -/
  is : Nat → String → Bool
  /-- The number of the value of the token at a position; equal values have one number. -/
  value : Nat → Nat

/-- Why a recognition is given up. -/
inductive Fault where
  /-- A site was cut off, but the path that reached it has no context for its position. -/
  | noContext (site : Site)
  /-- A pattern number out of range. -/
  | unknownPattern (id : PatternId)
  /-- A rule number out of range. -/
  | unknownRule (id : RuleId)
  /-- A match chose an alternative that the pattern does not have. -/
  | noAlternative (pattern : PatternId) (index : Nat)
  /-- A match has separators and the pattern has none. -/
  | straySeparators (pattern : PatternId)
  /-- A match of another form than the pattern's. -/
  | cannotHold (pattern : PatternId) (kind : String)
  deriving DecidableEq, Repr, Inhabited

/-- What the machine does next. -/
inductive Control where
  /-- Matches a pattern at a position. -/
  | call (pattern : PatternId) (index : Nat) (context : Context)
  /-- Gives results to the topmost frame. -/
  | give (results : List ResultId)

/-- A sequence that waits for its child at the end of one of its prefixes. -/
structure SequenceFrame where
  context : Context
  child : PatternId
  /-- The children after this one. -/
  later : List PatternId
  /-- The prefix that is being extended. -/
  current : Result
  /-- Results of the round before that are still to be extended. -/
  pending : List ResultId
  /-- Results of this round. -/
  following : ResultSet
  /-- Failures of the rounds before. -/
  finished : ResultSet

/-- A choice that waits for one of its alternatives. -/
structure ChoiceFrame where
  context : Context
  position : Nat
  mode : ChoiceMode
  label : Option String
  /-- The index of the alternative. -/
  index : Nat
  /-- The alternatives after this one. -/
  later : List PatternId
  found : ResultSet
  /-- An alternative before matched. -/
  matched : Bool

/-- A repetition as far as it has come. -/
structure PartialMany where
  result : ResultId
  /-- Where its last item ends. -/
  mark : Nat
  /-- A separator comes next. -/
  afterItem : Bool
  deriving Inhabited

/-- A repetition and the states it has still to extend. -/
structure ManyFrame where
  context : Context
  item : PatternId
  separator : Option PatternId
  /-- States to extend, the first one first. -/
  front : List PartialMany
  /-- States to extend after those, the last one first. -/
  back : List PartialMany
  /-- Every repetition found. -/
  emitted : ResultSet
  /-- Every repetition found that ends in a separator. -/
  separated : ResultSet

/-- A construct that waits for results. -/
inductive Frame where
  /-- Remembers the results of a site. -/
  | complete (site : Site)
  | wrapped (wrapper : Wrapper)
  | option (position : Nat)
  | sequence (frame : SequenceFrame)
  | choice (frame : ChoiceFrame)
  /-- Waits for an item or a separator after `state`. -/
  | many (frame : ManyFrame) (state : PartialMany) (isSeparator : Bool)

/-- What a recognition remembers. -/
structure Tables where
  store : Store
  /-- The successes of each site. -/
  memo : Std.TreeMap Site ResultSet
  /-- How often each site was entered. -/
  counts : Std.TreeMap Site Nat
  /-- The recursion map of the last cut-off among the results of each site. -/
  cutoffs : Std.TreeMap Site MapId

/-- Nothing remembered. -/
def Tables.empty : Tables := ⟨.empty, {}, {}, {}⟩

/-- The state of a recognition. -/
structure Machine where
  control : Control
  frames : List Frame
  tables : Tables

/-- What a step comes to. -/
inductive Progress where
  | running (m : Machine)
  | finished (results : List ResultId) (tables : Tables)
  | faulted (fault : Fault)

/-- Where a piece of work leaves the machine: its control and its frames. -/
abbrev Turn := Control × List Frame

/-! ### Single results -/

/-- The results of a token pattern. -/
def matchToken (input : Input) (terminal : String) (index : Nat) : StateM Store ResultId :=
  if index < input.size then
    if input.is index terminal then
      Store.success (.leaf (input.value index)) (index + 1) emptyMap
    else Store.failure (.unexpectedToken terminal index) index emptyMap
  else Store.failure (.tokensExhausted terminal) index emptyMap

/-- Wraps a success; a failure stays as it is. -/
def wrapResult (wrapper : Wrapper) (id : ResultId) : StateM Store ResultId := fun s =>
  let result := s.result id
  match result.outcome with
  | .success child => Store.success (.wrapped wrapper child) result.stop result.map s
  | .failure _ => (id, s)

/-- Adds the presence of an item to the results of an option; failures are dropped. -/
def optionResults : List ResultId → ResultSet → StateM Store ResultSet
  | [], out => pure out
  | id :: ids, out => fun s =>
    let result := s.result id
    match result.outcome with
    | .success item =>
      let (id, s) := Store.success (.present item) result.stop result.map s
      optionResults ids (out.insert id) s
    | .failure _ => optionResults ids out s

/-! ### Sequences -/

/-- The first success of a list, the results after it, and the failures before it added to
`finished`. -/
def takeSuccess (s : Store) (finished : ResultSet) :
    List ResultId → ResultSet × Option (Result × List ResultId)
  | [] => (finished, none)
  | id :: ids =>
    let result := s.result id
    match result.outcome with
    | .success _ => (finished, some (result, ids))
    | .failure _ => takeSuccess s (finished.insert id) ids

/-- Extends the next prefix of a sequence by its next child, or gives its results: the complete
derivations, then the failures. -/
def nextSequence (context : Context) (frames : List Frame) :
    List PatternId → List ResultId → ResultSet → ResultSet → Store → Turn
  | [], pending, _, finished, _ =>
    (.give ((ResultSet.ofList pending).insertAll finished.toList).toList, frames)
  | child :: later, pending, following, finished, s =>
    match takeSuccess s finished pending with
    | (finished, some (current, pending)) =>
      (.call child current.stop context,
        .sequence { context, child, later, current, pending, following, finished } :: frames)
    | (finished, none) => nextSequence context frames later following.toList .empty finished s

/-- Extends a prefix of a sequence by each result of its child. -/
def extendSequence (current : Result) : List ResultId → ResultSet → StateM Store ResultSet
  | [], following => pure following
  | id :: ids, following => fun s =>
    let result := s.result id
    match current.outcome, result.outcome with
    | .success before, .success last =>
      let (map, s) := Store.mergeMaps current.map result.map s
      let (extended, s) := Store.success (.sequenceStep before last) result.stop map s
      extendSequence current ids (following.insert extended) s
    | _, _ => extendSequence current ids (following.insert id) s

/-! ### Choices -/

/-- Tries the next alternative of a choice, or gives its results; a labelled choice without a
match adds a failure of its own. -/
def nextChoice (frame : ChoiceFrame) (frames : List Frame) : List PatternId → Store → Turn × Store
  | alternative :: later, s =>
    ((.call alternative frame.position frame.context, .choice { frame with later } :: frames), s)
  | [], s =>
    match frame.matched, frame.label with
    | false, some label =>
      let (id, s) := Store.failure (.alternativeFailed label) frame.position emptyMap s
      ((.give (frame.found.insert id).toList, frames), s)
    | _, _ => ((.give frame.found.toList, frames), s)

/-- Splits the results of an alternative into its successes, as successes of the choice, and its
failures. -/
def choiceResults (index : Nat) :
    List ResultId → ResultSet → ResultSet → StateM Store (ResultSet × ResultSet)
  | [], successes, failures => pure (successes, failures)
  | id :: ids, successes, failures => fun s =>
    let result := s.result id
    match result.outcome with
    | .success chosen =>
      let (id, s) := Store.success (.choice index chosen) result.stop result.map s
      choiceResults index ids (successes.insert id) failures s
    | .failure _ => choiceResults index ids successes (failures.insert id) s

/-- Goes on with a choice after one of its alternatives. -/
def resumeChoice (frame : ChoiceFrame) (results : List ResultId) (frames : List Frame)
    (s : Store) : Turn × Store :=
  let ((successes, failures), s) := choiceResults frame.index results .empty .empty s
  if !successes.isEmpty && frame.mode == .ordered then ((.give successes.toList, frames), s)
  else
    nextChoice
      { frame with
        index := frame.index + 1
        found := (frame.found.insertAll successes.toList).insertAll failures.toList
        matched := frame.matched || !successes.isEmpty }
      frames frame.later s

/-! ### Repetitions -/

/-- Extends a state of a repetition by what comes next. -/
def callMany (frame : ManyFrame) (state : PartialMany) (frames : List Frame) (s : Store) : Turn :=
  let stop := (s.result state.result).stop
  match frame.separator, state.afterItem with
  | some separator, true =>
    (.call separator stop frame.context, .many frame state true :: frames)
  | _, _ => (.call frame.item stop frame.context, .many frame state false :: frames)

/-- Extends the next state of a repetition, or gives its results, the last found first. -/
def nextMany (frame : ManyFrame) (frames : List Frame) (s : Store) : Turn :=
  match frame.front with
  | state :: front => callMany { frame with front } state frames s
  | [] =>
    match frame.back.reverse with
    | state :: front => callMany { frame with front, back := [] } state frames s
    | [] => (.give frame.emitted.toList.reverse, frames)

/-- Adds a repetition with one item more to those found, and to those to extend if it is new. -/
def emitMany (frame : ManyFrame) (extended : ResultId) (stop : Nat) : ManyFrame :=
  if frame.emitted.holds extended then frame
  else
    { frame with
      emitted := frame.emitted.insert extended
      back := ⟨extended, stop, frame.separator.isSome⟩ :: frame.back }

/-- Adds a repetition with one separator more to those to extend if it is new. -/
def separateMany (frame : ManyFrame) (extended : ResultId) (mark : Nat) : ManyFrame :=
  if frame.separated.holds extended then frame
  else
    { frame with
      separated := frame.separated.insert extended
      back := ⟨extended, mark, false⟩ :: frame.back }

/-- Extends a state of a repetition by each success of its item or its separator.  An item that
ends where the item before it ended makes no progress and is dropped. -/
def extendMany (parent : Result) (mark : Nat) (isSeparator : Bool) :
    List ResultId → ManyFrame → StateM Store ManyFrame
  | [], frame => pure frame
  | id :: ids, frame => fun s =>
    let result := s.result id
    match parent.outcome, result.outcome with
    | .success before, .success part =>
      if !isSeparator && result.stop == mark then extendMany parent mark isSeparator ids frame s
      else
        let (map, s) := Store.mergeMaps parent.map result.map s
        let fragment : Fragment :=
          if isSeparator then .manySeparator before part else .manyItem before part
        let (extended, s) := Store.success fragment result.stop map s
        let frame :=
          if isSeparator then separateMany frame extended mark
          else emitMany frame extended result.stop
        extendMany parent mark isSeparator ids frame s
    | _, _ => extendMany parent mark isSeparator ids frame s

/-- Starts a repetition. -/
def startMany (item : PatternId) (separator : Option PatternId) (index : Nat)
    (context : Context) (frames : List Frame) (s : Store) : Turn × Store :=
  let (initial, s) := Store.success .manyStart index emptyMap s
  let frame : ManyFrame :=
    { context, item, separator
      front := [⟨initial, index, false⟩]
      back := []
      emitted := ResultSet.empty.insert initial
      separated := .empty }
  (nextMany frame frames s, s)

/-! ### Steps -/

/-- Starts to match a pattern in its own context. -/
def evaluate (g : Grammar) (input : Input) (p : Pattern) (index : Nat) (context : Context)
    (frames : List Frame) (s : Store) : Except Fault (Turn × Store) :=
  match p.kind with
  | .consume terminal =>
    let (id, s) := matchToken input terminal index s
    .ok ((.give [id], frames), s)
  | .sequence children =>
    let (initial, s) := Store.success .sequenceStart index emptyMap s
    .ok (nextSequence context frames children [initial] .empty .empty s, s)
  | .choice alternatives mode _ =>
    let frame : ChoiceFrame :=
      { context, position := index, mode
        label := p.label.bind g.labelText?
        index := 0
        later := []
        found := .empty
        matched := false }
    .ok (nextChoice frame frames alternatives s)
  | .many item separator => .ok (startMany item separator index context frames s)
  | .option item => .ok ((.call item index context, .option index :: frames), s)
  | .thunk rule =>
    match g.ruleBody? rule with
    | some body => .ok ((.call body index context, .wrapped .thunk :: frames), s)
    | none => .error (.unknownRule rule)
  | .indent child => .ok ((.call child index context, .wrapped .indent :: frames), s)
  | .group child => .ok ((.call child index context, .wrapped .group :: frames), s)
  | .conditional child _ _ _ =>
    .ok ((.call child index context, .wrapped .conditional :: frames), s)
  | .literal _ =>
    let (id, s) := Store.success (.mark .literal) index emptyMap s
    .ok ((.give [id], frames), s)
  | .line _ =>
    let (id, s) := Store.success (.mark .line) index emptyMap s
    .ok ((.give [id], frames), s)

/-- The remembered successes of a site, if there are any and the context allows them. -/
def Tables.replay? (t : Tables) (site : Site) (context : Context) : Option (List ResultId) :=
  match t.memo[site]? with
  | none => none
  | some results =>
    let current := t.store.map ((context.at? site.index).getD emptyMap)
    let recorded := t.store.map ((t.cutoffs[site]?).getD emptyMap)
    if !results.isEmpty && current.allows recorded then some results.toList else none

/-- Entering a pattern of this kind is bounded. -/
def PatternKind.isBounded : PatternKind → Bool
  | thunk _ | consume _ => false
  | _ => true

/-- Calls a pattern: gives what is remembered, cuts the call off, or starts to match. -/
def invoke (g : Grammar) (input : Input) (id : PatternId) (index : Nat) (context : Context)
    (frames : List Frame) (t : Tables) : Progress :=
  match g.pattern? id with
  | none => .faulted (.unknownPattern id)
  | some p =>
    let site : Site := ⟨index, p.recognizer⟩
    match t.replay? site context with
    | some results => .running ⟨.give results, frames, t⟩
    | none =>
      match t with
      | ⟨store, memo, counts, cutoffs⟩ =>
        let count := counts.getD site 0
        if p.kind.isBounded && input.size - index + 1 < count then
          match context.at? index with
          | none => .faulted (.noContext site)
          | some map =>
            let (failure, store) := Store.failure .infiniteRecursion index map store
            .running ⟨.give [failure], frames, ⟨store, memo, counts, cutoffs⟩⟩
        else
          let (inner, store) := Store.enter context site (count + 1) store
          match evaluate g input p index inner (.complete site :: frames) store with
          | .error fault => .faulted fault
          | .ok ((control, frames), store) =>
            .running ⟨control, frames, ⟨store, memo, counts.insert site (count + 1), cutoffs⟩⟩

/-- The map of the last cut-off among results. -/
def lastCutoff? (s : Store) (results : List ResultId) : Option MapId :=
  results.foldl
    (fun last id =>
      let result := s.result id
      match result.outcome with
      | .failure kind => if s.failureKind kind = .infiniteRecursion then some result.map else last
      | .success _ => last)
    none

/-- The results that are successes. -/
def successesOf (s : Store) (results : List ResultId) : List ResultId :=
  results.filter fun id =>
    match (s.result id).outcome with
    | .success _ => true
    | .failure _ => false

/-- Remembers the results of a site. -/
def Tables.record (t : Tables) (site : Site) (results : List ResultId) : Tables :=
  match t with
  | ⟨store, memo, counts, cutoffs⟩ =>
    let cutoffs := match lastCutoff? store results with
      | some map => cutoffs.insert site map
      | none => cutoffs
    let known := memo.getD site .empty
    ⟨store, memo.insert site (known.insertAll (successesOf store results)), counts, cutoffs⟩

/-- Hands results to the construct that waits for them. -/
def resume (frame : Frame) (results : List ResultId) (frames : List Frame) (t : Tables) : Machine :=
  match frame with
  | .complete site => ⟨.give results, frames, t.record site results⟩
  | frame =>
    match t with
    | ⟨store, memo, counts, cutoffs⟩ =>
      let ((control, frames), store) : Turn × Store :=
        match frame with
        | .wrapped wrapper =>
          let (results, store) := results.mapM (wrapResult wrapper) store
          ((.give results, frames), store)
        | .option position =>
          let (out, store) := optionResults results .empty store
          let (absent, store) := Store.success .absent position emptyMap store
          ((.give (out.insert absent).toList, frames), store)
        | .sequence frame =>
          let (following, store) := extendSequence frame.current results frame.following store
          (nextSequence frame.context frames (frame.child :: frame.later) frame.pending following
            frame.finished store, store)
        | .choice frame => resumeChoice frame results frames store
        | .many frame state isSeparator =>
          let parent := store.result state.result
          let (frame, store) := extendMany parent state.mark isSeparator results frame store
          (nextMany frame frames store, store)
        | .complete _ => ((.give results, frames), store)
      ⟨control, frames, ⟨store, memo, counts, cutoffs⟩⟩

/-- One step of the machine. -/
def step (g : Grammar) (input : Input) (m : Machine) : Progress :=
  match m with
  | ⟨.call id index context, frames, tables⟩ => invoke g input id index context frames tables
  | ⟨.give results, [], tables⟩ => .finished results tables
  | ⟨.give results, frame :: frames, tables⟩ => .running (resume frame results frames tables)

/-- Steps of the machine while they go on, at most as many as there is fuel. -/
def run (g : Grammar) (input : Input) : Nat → Machine → Progress
  | 0, m => .running m
  | fuel + 1, m =>
    match step g input m with
    | .running m => run g input fuel m
    | answer => answer

/-- The machine before it matches a pattern at the first token. -/
def Machine.initial (id : PatternId) : Machine := ⟨.call id 0 [], [], .empty⟩

/-- Is an answer. -/
def Progress.isDone : Progress → Bool
  | running _ => false
  | _ => true

/-- More fuel keeps an answer. -/
theorem run_add {g : Grammar} {input : Input} {fuel : Nat} {m : Machine}
    (h : (run g input fuel m).isDone = true) (more : Nat) :
    run g input (fuel + more) m = run g input fuel m := by
  induction fuel generalizing m with
  | zero => simp [run, Progress.isDone] at h
  | succ fuel ih =>
    rw [Nat.add_right_comm]
    cases hs : step g input m with
    | running next =>
      simp only [run, hs] at h ⊢
      exact ih h
    | finished results tables => simp only [run, hs]
    | faulted fault => simp only [run, hs]

end ReversibleGrammar
