/-
What an evaluation of a repetition gives, whatever its calls list.

The calls of an item or of a separator may list anything, under whatever labels
and whatever has been remembered or cut off before; the chains of what they list
are explored in order, and what the repetition gives are those chains.

* `Repeats` — the calls that a repetition makes, and the successes that each of them lists;
* `Yields.repeats` — every evaluation of a repetition is of this form;
* `Task.repeatTo` — the same, computed;
* `Store.Repeating` — the chains that a repetition has found, and those that it has still to
  extend;
* `Repeats.explored` — it goes on until nothing is left to extend;
* `repetition_gives_chains` — in every state of a run, a repetition gives each chain of what its
  calls list exactly once, longer ones first, if calls of one part at one position list the same.
-/
import ReversibleGrammar.Proofs.Grammar.Built
import ReversibleGrammar.Proofs.Recognizer.Chained
import ReversibleGrammar.Proofs.Recognizer.Repetition
import ReversibleGrammar.Proofs.Recognizer.States

namespace ReversibleGrammar

/-- A call of an item or of a separator, and the successes that it lists. -/
structure PartCall where
  isSeparator : Bool
  index : Nat
  successes : List Success

/-- The calls that a repetition makes from a task on, what it gives, and the tables it leaves. -/
inductive Repeats (g : Grammar) (input : Input) :
    Task → Tables → List PartCall → List ResultId → Tables → Prop
  | give (results : List ResultId) (t : Tables) : Repeats g input (.give results) t [] results t
  | call {id : PatternId} {index : Nat} {context : Context} {frame : ManyFrame}
      {state : PartialMany} {isSeparator : Bool} {t u v w : Tables} {task : Task}
      {results results' : List ResultId} {calls : List PartCall}
      (h : Yields g input (.call id index context) t results u)
      (hresume : ∀ frames,
        resume (.many frame state isSeparator) results frames u = task.machine frames v)
      (h' : Repeats g input task v calls results' w) :
      Repeats g input (.wait id index context (.many frame state isSeparator)) t
        (⟨isSeparator, index, u.store.successes results⟩ :: calls) results' w

/-- What the calls list. -/
def offersOf (calls : List PartCall) : Offers := fun isSeparator index success =>
  ∃ call ∈ calls, call.isSeparator = isSeparator ∧ call.index = index ∧ success ∈ call.successes

/-- Calls of the item, or of the separator, at one position list the same successes. -/
def SameSuccesses (calls : List PartCall) : Prop :=
  ∀ call ∈ calls, ∀ call' ∈ calls, call.isSeparator = call'.isSeparator →
    call.index = call'.index → ∀ success, success ∈ call.successes ↔ success ∈ call'.successes

theorem SameSuccesses.offersOf_iff {calls : List PartCall} (h : SameSuccesses calls)
    {call : PartCall} (hcall : call ∈ calls) (success : Success) :
    offersOf calls call.isSeparator call.index success ↔ success ∈ call.successes := by
  constructor
  · rintro ⟨call', hcall', hpart, hindex, hsuccess⟩
    exact (h call' hcall' call hcall hpart hindex success).1 hsuccess
  · exact fun hsuccess => ⟨call, hcall, rfl, rfl, hsuccess⟩

/-! ### Evaluations of repetitions -/

/-- A repetition gives its results, or waits for its next part. -/
inductive Task.OfMany : Task → Prop
  | give (results : List ResultId) : OfMany (.give results)
  | wait (id : PatternId) (index : Nat) (context : Context) (frame : ManyFrame)
      (state : PartialMany) (isSeparator : Bool) :
      OfMany (.wait id index context (.many frame state isSeparator))

theorem nextMany_ofMany {frame : ManyFrame} {frames : List Frame} {s : Store} {task : Task}
    (h : nextMany frame frames s = task.turn frames) : task.OfMany := by
  rcases nextMany_cases frame s with ⟨-, hnext⟩ | ⟨state, front, back, -, hnext⟩
  · rw [hnext] at h
    rw [Task.turn_give h.symm]
    exact .give _
  · rw [hnext] at h
    unfold callMany at h
    split at h
    all_goals
      rw [Task.turn_wait h.symm]
      exact .wait _ _ _ _ _ _

/-- Every evaluation of a repetition is made of the calls of its parts. -/
theorem Yields.repeats {g : Grammar} {input : Input} {task : Task} {t u : Tables}
    {results : List ResultId} (h : Yields g input task t results u) (htask : task.OfMany) :
    ∃ calls, Repeats g input task t calls results u := by
  induction h with
  | give results t => exact ⟨[], .give results t⟩
  | replay | cutoff | evaluate => cases htask
  | @wait _ _ _ _ _ u _ _ _ _ _ h hresume _ _ ih' =>
    cases htask with
    | wait _ _ _ frame state isSeparator =>
      have hnext := (Task.of_machine (hresume [])).1
      obtain ⟨calls, h'⟩ := ih' (nextMany_ofMany hnext)
      exact ⟨_, .call h hresume h'⟩

/-! ### Computing the calls -/

/-- The task that a machine without other frames is at. -/
def Machine.task (m : Machine) : Task :=
  match m.control, m.frames with
  | .call id index context, frame :: _ => .wait id index context frame
  | .call id index context, [] => .call id index context
  | .give results, _ => .give results

/-- The calls that a repetition makes, what it gives, and the tables it leaves, as far as the fuel
for each call and the number of rounds go. -/
def Task.repeatTo (g : Grammar) (input : Input) (fuel : Nat) :
    Nat → Task → Tables → Option (List PartCall × List ResultId × Tables)
  | _, .give results, t => some ([], results, t)
  | rounds + 1, .wait id index context (.many frame state isSeparator), t =>
    match run g input fuel ⟨.call id index context, [], t⟩ with
    | .finished results u =>
      let m := resume (.many frame state isSeparator) results [] u
      (repeatTo g input fuel rounds m.task m.tables).map fun (calls, results', w) =>
        (⟨isSeparator, index, u.store.successes results⟩ :: calls, results', w)
    | _ => none
  | _, _, _ => none

instance (calls : List PartCall) : Decidable (SameSuccesses calls) :=
  decidable_of_iff
    (∀ call ∈ calls, ∀ call' ∈ calls, call.isSeparator = call'.isSeparator →
      call.index = call'.index → ∀ success ∈ call.successes, success ∈ call'.successes)
    ⟨fun h call hcall call' hcall' hpart hindex success =>
      ⟨h call hcall call' hcall' hpart hindex success,
        h call' hcall' call hcall hpart.symm hindex.symm success⟩,
      fun h call hcall call' hcall' hpart hindex success =>
        (h call hcall call' hcall' hpart hindex success).1⟩

theorem Machine.task_machine (task : Task) (t : Tables) : (task.machine [] t).task = task := by
  cases task <;> rfl

/-- A call that a run without other frames finishes is an evaluation. -/
theorem yields_of_run {g : Grammar} (hg : g.Closed) {input : Input} {fuel : Nat} {id : PatternId}
    {index : Nat} {context : Context} {t u : Tables} {results : List ResultId}
    (h : run g input fuel ⟨.call id index context, [], t⟩ = .finished results u) :
    Yields g input (.call id index context) t results u := by
  by_cases hid : id < g.patterns.size
  · rcases run_cases hg input fuel (.call id index context) hid [] t with
      ⟨results', u', rest, hyields, -, heq⟩ | ⟨site, -, heq⟩ | ⟨m, heq⟩
    · cases rest with
      | zero => cases h.symm.trans heq
      | succ rest =>
        cases h.symm.trans heq
        exact hyields
    · cases h.symm.trans heq
    · cases h.symm.trans heq
  · have hp : g.pattern? id = none := Array.getElem?_eq_none (Nat.not_lt.1 hid)
    cases fuel <;> simp [run, step, invoke, hp] at h

/-- What is computed is what the repetition does. -/
theorem Repeats.of_repeatTo {g : Grammar} (hg : g.Closed) {input : Input} {fuel rounds : Nat}
    {task : Task} {t u : Tables} {calls : List PartCall} {results : List ResultId}
    (h : task.repeatTo g input fuel rounds t = some (calls, results, u)) :
    Repeats g input task t calls results u := by
  induction rounds generalizing task t calls with
  | zero =>
    cases task with
    | give =>
      cases h
      exact .give _ _
    | call => cases h
    | wait id index context frame => cases frame <;> cases h
  | succ rounds ih =>
    cases task with
    | give =>
      cases h
      exact .give _ _
    | call => cases h
    | wait id index context frame =>
      cases frame with
      | many frame state isSeparator =>
        rw [Task.repeatTo] at h
        split at h
        · rename_i results' u' hrun
          obtain ⟨⟨calls, results, w⟩, hrest, heq⟩ := Option.map_eq_some_iff.1 h
          cases heq
          -- the frame calls its item and its separator only, whatever their numbers
          have hwithin : (Frame.many frame state isSeparator).Within
              (frame.item + frame.separator.getD 0 + 1) := by
            refine ⟨Nat.lt_succ_of_le (Nat.le_add_right _ _), fun c hc => ?_⟩
            rw [hc, Option.getD_some]
            exact Nat.lt_succ_of_le (Nat.le_add_left _ _)
          obtain ⟨task, v, hresume, -⟩ := resume_task _ hwithin results' u'
          rw [hresume, Machine.task_machine] at hrest
          exact .call (yields_of_run hg hrun) hresume (ih hrest)
        · cases h
      | _ => cases h

/-! ### Exploration -/

section

variable {s t : Store} {input : Input} {start : Nat} {c : PartialChain} {r : ResultId}

/-- The state of a repetition is a chain. -/
structure Store.HoldsState (s : Store) (input : Input) (start : Nat) (separated : Bool)
    (state : PartialMany) (c : PartialChain) : Prop where
  holds : s.HoldsChain input start state.result c
  mark_eq : state.mark = c.mark start
  afterItem_eq : state.afterItem = c.nextIsSeparator separated

/-- The repetition has found the chains `found`, and has still to extend `queue`. -/
structure Store.Repeating (s : Store) (input : Input) (start : Nat) (frame : ManyFrame)
    (found queue : List PartialChain) : Prop where
  emitted_faithful : frame.emitted.Faithful
  separated_faithful : frame.separated.Faithful
  emitted : List.Forall₂ (s.HoldsChain input start) frame.emitted.toList
    (found.filter PartialChain.isComplete)
  separated : List.Forall₂ (s.HoldsChain input start) frame.separated.toList
    (found.filter fun c => !c.isComplete)
  queue : List.Forall₂ (s.HoldsState input start frame.separator.isSome)
    (frame.front ++ frame.back.reverse) queue

variable {frame : ManyFrame} {found queue : List PartialChain} {state : PartialMany}

theorem Store.HoldsState.mono (hgrows : s.Grows t) {separated : Bool}
    (h : s.HoldsState input start separated state c) :
    t.HoldsState input start separated state c :=
  ⟨h.holds.mono hgrows, h.mark_eq, h.afterItem_eq⟩

theorem Store.Repeating.mono (hgrows : s.Grows t)
    (h : s.Repeating input start frame found queue) :
    t.Repeating input start frame found queue where
  emitted_faithful := h.emitted_faithful
  separated_faithful := h.separated_faithful
  emitted := h.emitted.imp fun _ _ hholds => hholds.mono hgrows
  separated := h.separated.imp fun _ _ hholds => hholds.mono hgrows
  queue := h.queue.imp fun _ _ hholds => hholds.mono hgrows

/-- A repetition starts with the chain without rounds. -/
theorem startMany_repeating (hs : s.Sound) (input : Input) (item : PatternId)
    (separator : Option PatternId) (index : Nat) (context : Context) :
    ∃ frame t, (∀ frames, startMany item separator index context frames s =
        (nextMany frame frames t, t)) ∧ s.Extends t ∧ frame.separator = separator ∧
      t.Repeating input index frame [⟨[], none⟩] [⟨[], none⟩] := by
  obtain ⟨initial, t, hinitial, hextends, f, hmatched, hf⟩ :=
    hs.made .manyStart (by simp [Fragment.parts]) index
  have hholds : t.HoldsChain input index initial ⟨[], none⟩ := ⟨f, hmatched, .start hf⟩
  refine ⟨_, t, fun frames => by rw [startMany, hinitial], hextends, rfl, ?_⟩
  exact
    { emitted_faithful := ResultSet.faithful_empty.insert initial
      separated_faithful := ResultSet.faithful_empty
      emitted := .cons hholds .nil
      separated := .nil
      queue := .cons ⟨hholds, rfl, by simp [PartialChain.nextIsSeparator]⟩ .nil }

/-- A repetition calls the part that comes next, where the last one stops. -/
theorem Store.HoldsState.callMany_eq
    (h : s.HoldsState input start frame.separator.isSome state c) :
    ∃ id, ∀ frames, callMany frame state frames s = (.call id (c.stop start) frame.context,
      .many frame state (c.nextIsSeparator frame.separator.isSome) :: frames) := by
  obtain ⟨⟨f, hmatched, -⟩, -, hafter⟩ := h
  unfold callMany
  rw [hmatched.result_eq]
  split
  · rename_i separator _ htrue
    exact ⟨separator, fun _ => by rw [← hafter, htrue]⟩
  · rename_i hother
    refine ⟨frame.item, fun _ => ?_⟩
    rw [← hafter]
    cases hseparator : frame.separator with
    | none =>
      rw [hafter, hseparator]
      rfl
    | some separator =>
      cases hnext : state.afterItem with
      | true => exact absurd hnext (hother separator hseparator)
      | false => rfl

/-- A new chain goes to the end of those found and of those to extend. -/
theorem Store.Repeating.add (hs : s.Sound) (h : s.Repeating input start frame found queue)
    {isSeparator : Bool} {mark : Nat} (hholds : s.HoldsChain input start r c)
    (hcomplete : c.isComplete = !isSeparator) (hrounds : c.rounds ≠ [])
    (hmark : isSeparator = true → mark = c.mark start) :
    s.Repeating input start (frame.add s mark isSeparator r)
      (if c ∈ found then found else found ++ [c]) (if c ∈ found then queue else queue ++ [c]) := by
  -- a result has been found exactly if its chain has, so that the set tells new chains apart
  have hmem {rs : List ResultId} {cs : List PartialChain}
      (hforall : List.Forall₂ (s.HoldsChain input start) rs cs) : r ∈ rs ↔ c ∈ cs :=
    mem_iff_of_forall₂ (fun r' c' hholds' => hholds.eq_iff hs hholds') hforall
  cases isSeparator with
  | true =>
    have hr : r ∈ frame.separated.toList ↔ c ∈ found := by
      rw [hmem h.separated, List.mem_filter]
      simp [hcomplete]
    show s.Repeating input start (separateMany frame r mark) _ _
    by_cases hc : c ∈ found
    · have hold : frame.separated.holds r = true := (h.separated_faithful r).2 (hr.2 hc)
      rw [if_pos hc, if_pos hc, separateMany, if_pos hold]
      exact h
    · rw [if_neg hc, if_neg hc, separateMany,
        h.separated_faithful.not_holds (mt hr.1 hc), if_neg Bool.false_ne_true]
      refine ⟨h.emitted_faithful, h.separated_faithful.insert r, ?_, ?_, ?_⟩
      · simpa [List.filter_append, hcomplete] using h.emitted
      · rw [h.separated_faithful.toList_insert, if_neg (mt hr.1 hc), List.filter_append]
        exact List.rel_append h.separated (by simp [hcomplete, hholds])
      · rw [List.reverse_cons, ← List.append_assoc]
        refine List.rel_append h.queue (.cons ⟨hholds, hmark rfl, ?_⟩ .nil)
        simp [PartialChain.nextIsSeparator, hcomplete]
  | false =>
    have hr : r ∈ frame.emitted.toList ↔ c ∈ found := by
      rw [hmem h.emitted, List.mem_filter]
      simp [hcomplete]
    show s.Repeating input start (emitMany frame r (s.result r).stop) _ _
    by_cases hc : c ∈ found
    · have hold : frame.emitted.holds r = true := (h.emitted_faithful r).2 (hr.2 hc)
      rw [if_pos hc, if_pos hc, emitMany, if_pos hold]
      exact h
    · rw [if_neg hc, if_neg hc, emitMany,
        h.emitted_faithful.not_holds (mt hr.1 hc), if_neg Bool.false_ne_true]
      refine ⟨h.emitted_faithful.insert r, h.separated_faithful, ?_, ?_, ?_⟩
      · rw [h.emitted_faithful.toList_insert, if_neg (mt hr.1 hc), List.filter_append]
        exact List.rel_append h.emitted (by simp [hcomplete, hholds])
      · simpa [List.filter_append, hcomplete] using h.separated
      · rw [List.reverse_cons, ← List.append_assoc]
        refine List.rel_append h.queue (.cons ⟨hholds, ?_, ?_⟩ .nil)
        · obtain ⟨f, hmatched, -⟩ := hholds
          have hpending : c.pending = none := by simpa [PartialChain.isComplete] using hcomplete
          simp [hmatched.result_eq, PartialChain.stop, hpending]
        · simp [PartialChain.nextIsSeparator, hcomplete, hrounds]

/-- New chains go to the end, each once. -/
theorem Store.Repeating.foldl_add (hs : s.Sound) (h : s.Repeating input start frame found queue)
    (hnodup : found.Nodup) (isSeparator : Bool) (mark : Nat) {rs : List ResultId}
    {cs : List PartialChain} (hholds : List.Forall₂ (s.HoldsChain input start) rs cs)
    (hcs : ∀ c ∈ cs, c.isComplete = (!isSeparator) ∧ c.rounds ≠ [] ∧
      (isSeparator = true → mark = c.mark start)) :
    ∃ news, s.Repeating input start
        (rs.foldl (fun frame r => frame.add s mark isSeparator r) frame)
        (found ++ news) (queue ++ news) ∧
      (found ++ news).Nodup ∧ news ⊆ cs ∧ cs ⊆ found ++ news := by
  induction hholds generalizing frame found queue with
  | nil => exact ⟨[], by simpa using h, by simpa using hnodup, by simp, by simp⟩
  | @cons r c rs cs hr _ ih =>
    obtain ⟨hcomplete, hrounds, hmark⟩ := hcs c List.mem_cons_self
    have hadd := h.add hs hr hcomplete hrounds hmark
    have hrest := fun d hd => hcs d (List.mem_cons_of_mem c hd)
    by_cases hc : c ∈ found
    · rw [if_pos hc, if_pos hc] at hadd
      obtain ⟨news, hnews, hnodup', hsub, hall⟩ := ih hadd hnodup hrest
      exact ⟨news, hnews, hnodup', List.subset_cons_of_subset c hsub,
        List.cons_subset.2 ⟨List.mem_append_left _ hc, hall⟩⟩
    · rw [if_neg hc, if_neg hc] at hadd
      have hnodup : (found ++ [c]).Nodup :=
        hnodup.append (List.nodup_singleton c) (by simpa using hc)
      obtain ⟨news, hnews, hnodup', hsub, hall⟩ := ih hadd hnodup hrest
      rw [List.append_assoc, List.singleton_append] at hnews hnodup' hall
      rw [List.append_assoc, List.singleton_append] at hnews
      exact ⟨c :: news, hnews, hnodup', List.cons_subset_cons c hsub,
        List.cons_subset.2 ⟨List.mem_append_right _ List.mem_cons_self, hall⟩⟩

section

variable {τ ν : Type} [Token τ ν] {g : Grammar} {tokens : Array τ} {separated : Bool}

/-- A chain is extended by the successes of its next part that make progress. -/
theorem Store.Repeating.extend (hs : s.Sound)
    (h : s.Repeating (.ofTokens tokens) start frame found queue) (hnodup : found.Nodup)
    (hseparated : frame.separator.isSome = separated)
    (hstate : s.HoldsState (.ofTokens tokens) start separated state c) {id : PatternId}
    {results : List ResultId}
    (hresults : ∀ r ∈ results, s.Supports g tokens (.whole id) (c.stop start) r)
    {isSeparator : Bool} (hnext : c.nextIsSeparator separated = isSeparator) :
    ∃ frame' t news,
      extendMany (s.result state.result) state.mark isSeparator results frame s = (frame', t) ∧
      s.Extends t ∧ frame'.separator.isSome = separated ∧
      t.Repeating (.ofTokens tokens) start frame' (found ++ news) (queue ++ news) ∧
      (found ++ news).Nodup ∧
      (∀ d, d ∈ news → ∃ success ∈ s.successes results,
        (isSeparator = false → success.stop ≠ c.mark start) ∧ d = c.extend isSeparator success) ∧
      ∀ success ∈ s.successes results, (isSeparator = false → success.stop ≠ c.mark start) →
        c.extend isSeparator success ∈ found ++ news := by
  obtain ⟨⟨f, hmatched, hchained⟩, hmark, -⟩ := hstate
  have hknown : ∀ r ∈ results, s.Known r := fun r hr => (hresults r hr).known
  obtain ⟨made, t, hextend, hextends, hremade⟩ := extendMany_remade (c.stop start) state.mark
    isSeparator frame hs (hs.exists_fragment hmatched) hknown
  have hparts := extendMany_parts (s.result state.result) state.mark isSeparator results frame s
  rw [← hmatched.result_eq] at hextend
  rw [hextend] at hparts
  have hcomplete : isSeparator = true → c.pending = none ∧ c.rounds ≠ [] := fun htrue =>
    (PartialChain.nextIsSeparator_eq_true (hnext.trans htrue)).2
  -- what is extended by is what makes progress
  have hsuccesses : t.successes (progressing t state.mark isSeparator results) =
      (s.successes results).filter fun success => isSeparator || success.stop != c.mark start := by
    rw [Store.successes_progressing, Store.successes_mono hextends.grows hknown, hmark]
  have hmem (success : Success) :
      success ∈ t.successes (progressing t state.mark isSeparator results) ↔
        success ∈ s.successes results ∧ (isSeparator = false → success.stop ≠ c.mark start) := by
    rw [hsuccesses, List.mem_filter]
    cases isSeparator <;> simp
  have hholds : List.Forall₂ (t.HoldsChain (.ofTokens tokens) start) (successesOf t made)
      ((t.successes (progressing t state.mark isSeparator results)).map
        (c.extend isSeparator)) := by
    rw [List.forall₂_map_right_iff]
    refine forall₂_imp_of_mem_mem (fun r _ success hsuccess hmade => ?_)
      (Store.forall₂_successes hremade)
    have hspans := (Store.Supports.success hresults ((hmem success).1 hsuccess).1).2.2
    exact hmade.holdsChain (hchained.mono hextends.grows) (fun htrue => (hcomplete htrue).1)
      (hspans.mono hextends.grows)
  obtain ⟨news, hnews, hnodup, hsub, hall⟩ := (h.mono hextends.grows).foldl_add hextends.sound
    hnodup isSeparator state.mark hholds fun d hd => by
      obtain ⟨success, -, rfl⟩ := List.mem_map.1 hd
      cases isSeparator with
      | true => exact ⟨rfl, (hcomplete rfl).2, fun _ => hmark⟩
      | false => exact ⟨rfl, List.append_ne_nil_of_right_ne_nil _ (List.cons_ne_nil _ _), nofun⟩
  refine ⟨_, t, news, hextend, hextends, hparts.2 ▸ hseparated, hnews, hnodup,
    fun d hd => ?_, fun success hsuccess hprogress => ?_⟩
  · obtain ⟨success, hsuccess, rfl⟩ := List.mem_map.1 (hsub hd)
    obtain ⟨hsuccess, hprogress⟩ := (hmem success).1 hsuccess
    exact ⟨success, hsuccess, hprogress, rfl⟩
  · exact hall (List.mem_map.2 ⟨success, (hmem success).2 ⟨hsuccess, hprogress⟩, rfl⟩)

/-- A repetition goes on until nothing is left to extend, and gives what it has found, the last
first. -/
theorem Repeats.explored (hg : g.Closed) (hstart : start ≤ tokens.size) {offers : Offers}
    {task : Task} {t u : Tables} {calls : List PartCall} {results : List ResultId}
    (h : Repeats g (.ofTokens tokens) task t calls results u)
    (hoffers : ∀ call ∈ calls, ∀ success,
      offers call.isSeparator call.index success ↔ success ∈ call.successes)
    (ht : t.Sound g tokens) {frames : List Frame} (hseparated : frame.separator.isSome = separated)
    (hnext : nextMany frame frames t.store = task.turn frames) {done : List PartialChain}
    (hrepeating : t.store.Repeating (.ofTokens tokens) start frame (done ++ queue) queue)
    (hexplored : Explored offers separated start done queue) :
    ∃ found, Explored offers separated start found [] ∧
      List.Forall₂ (u.store.HoldsChain (.ofTokens tokens) start) results
        (found.filter PartialChain.isComplete).reverse := by
  induction h generalizing frame frames done queue with
  | give results t =>
    rcases nextMany_cases frame t.store with ⟨hempty, hgive⟩ | ⟨state, front, back, -, hcall⟩
    · rw [hgive] at hnext
      cases Task.turn_give hnext.symm
      have hqueue := hrepeating.queue
      rw [hempty, List.forall₂_nil_left_iff] at hqueue
      subst hqueue
      refine ⟨done, hexplored, ?_⟩
      have hemitted := hrepeating.emitted
      rw [List.append_nil] at hemitted
      exact List.forall₂_reverse_iff.2 hemitted
    · rw [hcall] at hnext
      unfold callMany at hnext
      split at hnext <;> cases hnext
  | @call id index context _ _ _ t u v w task results results' calls hyields hresume _ ih =>
    rcases nextMany_cases frame t.store with ⟨-, hgive⟩ | ⟨state, front, back, hcons, hcall⟩
    · rw [hgive] at hnext
      cases hnext
    have hqueue := hrepeating.queue
    rw [hcons] at hqueue
    cases hqueue with
    | @cons _ c _ queue hstate hrest =>
    obtain ⟨part, hpart⟩ :=
      @Store.HoldsState.callMany_eq _ _ _ _ { frame with front, back } _ hstate
    rw [hcall, hpart] at hnext
    cases Task.turn_wait hnext.symm
    subst hseparated
    -- the call lists what is offered
    obtain ⟨f, -, hchained⟩ := hstate.holds
    obtain ⟨hle, hstop⟩ := hchained.le hstart
    obtain ⟨hu, hgrows, hresults⟩ := hyields.supports hg ht ⟨rfl, rfl, hstop⟩
    have hlist := hoffers _ List.mem_cons_self
    have hmayExtend (success : Success) :
        c.MayExtend offers frame.separator.isSome start success ↔
          success ∈ u.store.successes results ∧
            (c.nextIsSeparator frame.separator.isSome = false → success.stop ≠ c.mark start) := by
      constructor
      · rintro ⟨hoffered, hprogress⟩
        exact ⟨(hlist success).1 hoffered, fun hitem => (hprogress hitem).ne'⟩
      · rintro ⟨hsuccess, hprogress⟩
        have hle' := (Store.Supports.success hresults hsuccess).1
        exact ⟨(hlist success).2 hsuccess, fun hitem =>
          lt_of_le_of_ne (hle.trans hle') (hprogress hitem).symm⟩
    obtain ⟨store, memo, counts, cutoffs⟩ := u
    have hpopped : store.Repeating (.ofTokens tokens) start { frame with front, back }
        (done ++ c :: queue) queue :=
      { hrepeating.mono hgrows with queue := hrest.imp fun _ _ h => h.mono hgrows }
    obtain ⟨frame', s', news, hextend, hextends, hseparated, hnews, hnodup, hnew, hall⟩ :=
      hpopped.extend hu.store hexplored.nodup rfl (hstate.mono hgrows) hresults rfl
    have hmachine := hresume []
    simp only [resume, hextend] at hmachine
    obtain ⟨hturn, rfl⟩ := Task.of_machine hmachine
    rw [show done ++ c :: queue ++ news = done ++ [c] ++ (queue ++ news) by simp] at hnews
    refine ih (fun call hcall => hoffers call (List.mem_cons_of_mem _ hcall))
      (hu.withStore hextends.sound hextends.grows _) hseparated hturn hnews
      (hexplored.step hnodup (fun d hd => ?_) fun success hsuccess => ?_)
    · obtain ⟨success, hsuccess, hprogress, rfl⟩ := hnew d hd
      exact ⟨success, (hmayExtend success).2 ⟨hsuccess, hprogress⟩, rfl⟩
    · obtain ⟨hsuccess, hprogress⟩ := (hmayExtend success).1 hsuccess
      exact hall success hsuccess hprogress

/-- The results are exactly the chains of what is offered: each of them once, longer ones first and
the one without items last. -/
structure Store.ListsChains (s : Store) (input : Input) (offers : Offers) (separated : Bool)
    (start : Nat) (results : List ResultId) (chains : List (List Round)) : Prop where
  holds : List.Forall₂ (s.HoldsChain input start) results (chains.map (⟨·, none⟩))
  mem_iff : ∀ rounds, rounds ∈ chains ↔ ChainOf offers separated start rounds
  nodup : chains.Nodup
  longest_first : chains.Pairwise fun c d => d.length ≤ c.length
  last_eq : chains.getLast? = some []

/-- No task takes frames away. -/
theorem Task.length_le_frames (task : Task) (frames : List Frame) (t : Tables) :
    frames.length ≤ (task.machine frames t).frames.length := by
  cases task <;> simp [Task.machine, Task.turn]

/-- A call that is matched starts its pattern inside the context of its site. -/
theorem exists_evaluate_of_step {input : Input} {id : PatternId} {p : Pattern}
    (hp : g.pattern? id = some p) {index : Nat} {context : Context} {frames : List Frame}
    {t v : Tables} {task : Task}
    (h : step g input ⟨.call id index context, frames, t⟩ =
      .running (task.machine (.complete ⟨index, p.recognizer⟩ :: frames) v)) :
    ∃ inner store store', Store.enter context ⟨index, p.recognizer⟩
        (t.counts.getD ⟨index, p.recognizer⟩ 0 + 1) t.store = (inner, store) ∧
      evaluate g input p index inner (.complete ⟨index, p.recognizer⟩ :: frames) store =
        .ok (task.turn (.complete ⟨index, p.recognizer⟩ :: frames), store') ∧
      v = t.entered ⟨index, p.recognizer⟩ store' := by
  -- a call that gives results at once leaves the frames as they are
  have hne {m : Machine} (hframes : m.frames = frames) :
      m ≠ task.machine (.complete ⟨index, p.recognizer⟩ :: frames) v := by
    rintro rfl
    have hle := task.length_le_frames (.complete ⟨index, p.recognizer⟩ :: frames) v
    rw [hframes, List.length_cons] at hle
    exact Nat.not_succ_le_self _ hle
  rw [step] at h
  rcases invoke_cases input hp index context t with ⟨results, -, heq⟩ | ⟨-, -, -, -, heq⟩ |
    ⟨-, -, -, map, failure, store, -, -, heq⟩ | ⟨-, -, inner, store, henter, heq⟩
  · rw [heq] at h
    exact absurd (Progress.running.inj h) (hne rfl)
  · rw [heq] at h
    cases h
  · rw [heq] at h
    exact absurd (Progress.running.inj h) (hne rfl)
  · rw [heq] at h
    split at h
    · cases h
    · rename_i control frames' store' hevaluate
      obtain ⟨hturn, rfl⟩ := Task.of_machine (Progress.running.inj h)
      exact ⟨inner, store, store', henter, hturn ▸ hevaluate, rfl⟩

/-- A repetition that a run comes to and matches gives exactly the chains of what its calls list, if
calls of its item, or of its separator, at one position list the same. -/
theorem repetition_gives_chains (hg : g.Built) {root id : PatternId} {fuel index : Nat}
    {context : Context} {frames : List Frame} {t v u : Tables}
    (hrun : run g (.ofTokens tokens) fuel (.initial root) =
      .running ⟨.call id index context, frames, t⟩)
    {p : Pattern} (hp : g.pattern? id = some p) {item : PatternId} {separator : Option PatternId}
    (hkind : p.kind = .many item separator) {task : Task}
    (hstep : step g (.ofTokens tokens) ⟨.call id index context, frames, t⟩ =
      .running (task.machine (.complete ⟨index, p.recognizer⟩ :: frames) v))
    {calls : List PartCall} {results : List ResultId}
    (h : Repeats g (.ofTokens tokens) task v calls results u) (hsame : SameSuccesses calls) :
    ∃ chains : List (List Round), u.store.ListsChains (.ofTokens tokens) (offersOf calls)
      separator.isSome index results chains := by
  have hclosed := hg.closed
  have hsound := sound_of_run hclosed hrun
  obtain ⟨hindex, -⟩ := hsound.calls id index context rfl
  obtain ⟨inner, store, store', henter, hevaluate, rfl⟩ := exists_evaluate_of_step hp hstep
  obtain ⟨hstore, hgrows, -⟩ := hsound.tables.store.enter context ⟨index, p.recognizer⟩
    (t.counts.getD ⟨index, p.recognizer⟩ 0 + 1)
  rw [henter] at hstore hgrows
  obtain ⟨frame, s, hstart, hextends, rfl, hrepeating⟩ :=
    startMany_repeating hstore (.ofTokens tokens) item separator index inner
  simp only [evaluate, hkind, hstart, Except.ok.injEq, Prod.mk.injEq] at hevaluate
  obtain ⟨hnext, rfl⟩ := hevaluate
  obtain ⟨found, hexplored, hholds⟩ := h.explored hclosed hindex
    (fun call hcall success => hsame.offersOf_iff hcall success)
    (hsound.tables.withStore hextends.sound (hgrows.trans hextends.grows) _) rfl hnext
    (List.nil_append [(⟨[], none⟩ : PartialChain)] ▸ hrepeating)
    (explored_start (offersOf calls) frame.separator.isSome index)
  obtain ⟨chains, heq, hmem, hnodup, hlength, hlast⟩ := hexplored.chains
  exact ⟨chains, heq ▸ hholds, hmem, hnodup, hlength, hlast⟩

end

end

/-- Letters that are matched in two ways each, with commas between them. -/
def Grammar.commas : Grammar where
  patterns := #[{ id := 0, kind := .consume "a" }, { id := 1, kind := .sequence [0] },
    { id := 2, kind := .choice [0, 1] .parallel none }, { id := 3, kind := .consume "," },
    { id := 4, kind := .many 2 (some 3) }]
  rules := #[]
  labels := #[]

theorem Grammar.built_commas : commas.Built :=
  ⟨[.consume "a", .sequence [0], .parallelChoice [0, 1], .consume ",", .manySeparated 2 3],
    by cbv⟩

/-- Two letters are four chains, the first of them two, and there is the one without letters; the
comma and the second letter are called again for each of the chains before them. -/
theorem repetition_gives_chains_commas :
    ∃ (task : Task) (v : Tables) (calls : List PartCall) (results : List ResultId) (u : Tables),
      step Grammar.commas (.ofTokens #["a", ",", "a"]) (.initial 4) =
        .running (task.machine [.complete ⟨0, .pattern 4⟩] v) ∧
      Repeats Grammar.commas (.ofTokens #["a", ",", "a"]) task v calls results u ∧
      calls.length = 9 ∧ SameSuccesses calls ∧ results.length = 7 ∧
      ∃ chains, u.store.ListsChains (.ofTokens #["a", ",", "a"]) (offersOf calls) true 0 results
        chains := by
  obtain ⟨task, v, hstep, hcomputed⟩ : ∃ (task : Task) (v : Tables),
      step Grammar.commas (.ofTokens #["a", ",", "a"]) (.initial 4) =
        .running (task.machine [.complete ⟨0, .pattern 4⟩] v) ∧
      ((task.repeatTo Grammar.commas (.ofTokens #["a", ",", "a"]) 20 20 v).map
        fun (calls, results, _) =>
          (calls.length, decide (SameSuccesses calls), results.length)) = some (9, true, 7) :=
    ⟨.wait _ _ _ (.many _ _ _), _, rfl, by decide +kernel⟩
  obtain ⟨⟨calls, results, u⟩, hrepeatTo, heq⟩ := Option.map_eq_some_iff.1 hcomputed
  simp only [Prod.mk.injEq, decide_eq_true_iff] at heq
  obtain ⟨hcalls, hsame, hresults⟩ := heq
  have h := Repeats.of_repeatTo Grammar.built_commas.closed hrepeatTo
  have hrun : run Grammar.commas (.ofTokens #["a", ",", "a"]) 0 (.initial 4) =
      .running ⟨.call 4 0 [], [], .empty⟩ := rfl
  have hp : Grammar.commas.pattern? 4 = some { id := 4, kind := .many 2 (some 3) } := rfl
  exact ⟨task, v, calls, results, u, hstep, h, hcalls, hsame, hresults,
    repetition_gives_chains (ν := String) Grammar.built_commas hrun hp rfl hstep h hsame⟩

end ReversibleGrammar
