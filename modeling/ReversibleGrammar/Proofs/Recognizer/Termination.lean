/-
Recognition comes to an end.

A pattern other than a thunk or a token is matched only so often at a position,
and what a construct has still to do with the results of one call gets less from
call to call.  Thunks are not bounded, so that they must not go round in circles
among themselves.

* `Tables.budget` — how many matches may still be started;
* `Frame.load` — what a construct has still to do;
* `resume_load` — it gets less, in the order of Dershowitz and Manna;
* `recognition_ends` — every run ends, and starts only so many matches at a site.
-/
import ReversibleGrammar.Proofs.Grammar.Built
import ReversibleGrammar.Proofs.Recognizer.Typing

namespace ReversibleGrammar

/-- The pattern is a thunk, and the other one is the body of its rule. -/
def Grammar.Refers (g : Grammar) (id body : PatternId) : Prop :=
  ∃ p rule, g.pattern? id = some p ∧ p.kind = .thunk rule ∧ g.ruleBody? rule = some body

/-- No rule comes back to itself through thunks only. -/
def Grammar.NoThunkCycle (g : Grammar) : Prop := ∀ id, ¬ Relation.TransGen g.Refers id id

theorem Grammar.noThunkCycle_of_rank {g : Grammar} (rank : PatternId → Nat)
    (h : ∀ id body, g.Refers id body → rank body < rank id) : g.NoThunkCycle := by
  have hlt {id body : PatternId} (hrefers : Relation.TransGen g.Refers id body) :
      rank body < rank id := by
    induction hrefers with
    | single hstep => exact h _ _ hstep
    | tail _ hstep ih => exact (h _ _ hstep).trans ih
  exact fun id hcycle => lt_irrefl _ (hlt hcycle)

/-- It suffices that no rule is a mere reference. -/
theorem Grammar.noThunkCycle_of_bodies {g : Grammar}
    (h : ∀ rule ∈ g.rules, ∀ p, g.pattern? rule.body = some p → ∀ r, p.kind ≠ .thunk r) :
    g.NoThunkCycle := by
  intro id hcycle
  -- what comes back to itself is a reference, and the body of a rule
  obtain ⟨_, ⟨p, r, hp, hkind, -⟩, -⟩ := Relation.TransGen.head'_iff.1 hcycle
  obtain ⟨_, -, ⟨_, r', -, -, hbody⟩⟩ := Relation.TransGen.tail'_iff.1 hcycle
  obtain ⟨rule, hrule, rfl⟩ := Option.map_eq_some_iff.1 hbody
  exact h rule (Array.mem_of_getElem? hrule) p hp r hkind

/-- The machine comes to an answer. -/
def Halts (g : Grammar) (input : Input) (m : Machine) : Prop :=
  ∃ fuel, (run g input fuel m).isDone = true

section Halts

variable {g : Grammar} {input : Input} {m m' : Machine}

theorem Halts.of_running (hstep : step g input m = .running m') (h : Halts g input m') :
    Halts g input m := by
  obtain ⟨fuel, h⟩ := h
  refine ⟨fuel + 1, ?_⟩
  simp only [run, hstep]
  exact h

theorem halts_of_faulted {fault : Fault} (hstep : step g input m = .faulted fault) :
    Halts g input m :=
  ⟨1, by simp only [run, hstep, Progress.isDone]⟩

theorem halts_give_nil (results : List ResultId) (t : Tables) :
    Halts g input ⟨.give results, [], t⟩ :=
  ⟨1, rfl⟩

end Halts

/-! ### What a construct has still to do -/

/-- How far a state of a repetition can still come: the tokens after its last item, and whether a
separator comes first. -/
def PartialMany.load (size : Nat) (state : PartialMany) : Nat ×ₗ Nat :=
  toLex (size - state.mark, if state.afterItem then 1 else 0)

/-- What a construct has still to do after the call that it waits for. -/
def Frame.load (size : Nat) : Frame → Multiset (Nat ×ₗ Nat)
  | sequence frame => {toLex (frame.later.length, frame.pending.length)}
  | choice frame => {toLex (frame.later.length, 0)}
  | many frame state _ =>
    ((state :: (frame.front ++ frame.back)).map (PartialMany.load size) : List (Nat ×ₗ Nat))
  | complete _ | wrapped _ | option _ => 0

theorem isDershowitzMannaLT_singleton {a b : Nat ×ₗ Nat} (h : a < b) :
    Multiset.IsDershowitzMannaLT {a} {b} :=
  ⟨0, {a}, {b}, Multiset.singleton_ne_zero b, (zero_add _).symm, (zero_add _).symm, by simpa⟩

theorem takeSuccess_length {s : Store} {finished finished' : ResultSet} {ids rest : List ResultId}
    {current : Result} (h : takeSuccess s finished ids = (finished', some (current, rest))) :
    rest.length < ids.length := by
  induction ids generalizing finished with
  | nil => cases h
  | cons id ids ih =>
    unfold takeSuccess at h
    dsimp only at h
    split at h
    · cases h
      exact Nat.lt_succ_self _
    · exact (ih h).trans (Nat.lt_succ_self _)

section

variable {id : PatternId} {index : Nat} {context : Context} {frame' : Frame}

theorem nextSequence_load {size : Nat} {context' : Context} {child : PatternId}
    {later : List PatternId} {pending : List ResultId} {following finished : ResultSet} {s : Store}
    (h : nextSequence context' [] (child :: later) pending following finished s =
      (Task.wait id index context frame').turn []) :
    (frame'.load size).IsDershowitzMannaLT {toLex (later.length, pending.length)} := by
  induction later generalizing child pending following finished with
  | nil =>
    unfold nextSequence at h
    rcases htake : takeSuccess s finished pending with ⟨finished', _ | ⟨current, rest⟩⟩
    · simp only [htake] at h
      cases h
    · simp only [htake] at h
      cases h
      refine isDershowitzMannaLT_singleton (Prod.Lex.toLex_lt_toLex.2 (.inr ⟨rfl, ?_⟩))
      exact takeSuccess_length htake
  | cons next later ih =>
    unfold nextSequence at h
    rcases htake : takeSuccess s finished pending with ⟨finished', _ | ⟨current, rest⟩⟩
    · simp only [htake] at h
      refine (ih h).trans (isDershowitzMannaLT_singleton (Prod.Lex.toLex_lt_toLex.2 (.inl ?_)))
      exact Nat.lt_succ_self _
    · simp only [htake] at h
      cases h
      refine isDershowitzMannaLT_singleton (Prod.Lex.toLex_lt_toLex.2 (.inr ⟨rfl, ?_⟩))
      exact takeSuccess_length htake

theorem nextChoice_load {size : Nat} {frame : ChoiceFrame} {next : List PatternId} {s t : Store}
    (h : nextChoice frame [] next s = ((Task.wait id index context frame').turn [], t)) :
    (frame'.load size).IsDershowitzMannaLT {toLex (next.length, 0)} := by
  cases next with
  | nil =>
    simp only [nextChoice] at h
    split at h <;> cases h
  | cons alternative later =>
    cases h
    exact isDershowitzMannaLT_singleton (Prod.Lex.toLex_lt_toLex.2 (.inl (Nat.lt_succ_self _)))

theorem resumeChoice_load {size : Nat} {frame : ChoiceFrame} {results : List ResultId}
    {s t : Store}
    (h : resumeChoice frame results [] s = ((Task.wait id index context frame').turn [], t)) :
    (frame'.load size).IsDershowitzMannaLT ((Frame.choice frame).load size) := by
  unfold resumeChoice at h
  rcases hchoice : choiceResults frame.index results .empty .empty s with
    ⟨⟨successes, failures⟩, u⟩
  simp only [hchoice] at h
  split at h
  · cases h
  · exact nextChoice_load h

theorem callMany_load {size : Nat} {frame : ManyFrame} {state : PartialMany} {s : Store}
    (h : callMany frame state [] s = (Task.wait id index context frame').turn []) :
    frame'.load size = (Frame.many frame state true).load size := by
  unfold callMany at h
  split at h <;> cases h <;> rfl

/-- A repetition waits with one of the states that it has to extend. -/
theorem nextMany_load {size : Nat} {frame : ManyFrame} {s : Store}
    (h : nextMany frame [] s = (Task.wait id index context frame').turn []) :
    frame'.load size =
      ((frame.front ++ frame.back).map (PartialMany.load size) : List (Nat ×ₗ Nat)) := by
  unfold nextMany at h
  split at h
  · rename_i state front hfront
    rw [callMany_load h, hfront]
    rfl
  · rename_i hfront
    split at h
    · rename_i state front hback
      rw [callMany_load h, hfront, List.nil_append]
      refine Multiset.coe_eq_coe.2 (List.Perm.map _ ?_)
      rw [List.append_nil, ← hback]
      exact List.reverse_perm frame.back
    · cases h

theorem separateMany_back (frame : ManyFrame) (r : ResultId) (mark : Nat) :
    ∃ news, (separateMany frame r mark).front = frame.front ∧
      (separateMany frame r mark).back = news ++ frame.back ∧
      ∀ state ∈ news, state = ⟨r, mark, false⟩ := by
  unfold separateMany
  split
  · exact ⟨[], rfl, rfl, by simp⟩
  · exact ⟨[⟨r, mark, false⟩], rfl, rfl, by simp⟩

theorem emitMany_back (frame : ManyFrame) (r : ResultId) (stop : Nat) :
    ∃ news, (emitMany frame r stop).front = frame.front ∧
      (emitMany frame r stop).back = news ++ frame.back ∧
      ∀ state ∈ news, state = ⟨r, stop, frame.separator.isSome⟩ := by
  unfold emitMany
  split
  · exact ⟨[], rfl, rfl, by simp⟩
  · exact ⟨[⟨r, stop, frame.separator.isSome⟩], rfl, rfl, by simp⟩

/-- The new states of a repetition. -/
theorem foldl_add_back (s : Store) (mark : Nat) (isSeparator : Bool) (rs : List ResultId)
    (frame : ManyFrame) :
    ∃ states, (rs.foldl (fun frame r => frame.add s mark isSeparator r) frame).front = frame.front ∧
      (rs.foldl (fun frame r => frame.add s mark isSeparator r) frame).back =
        states ++ frame.back ∧
      ∀ state ∈ states, ∃ r ∈ rs, state = ⟨r, if isSeparator then mark else (s.result r).stop,
        !isSeparator && frame.separator.isSome⟩ := by
  induction rs generalizing frame with
  | nil => exact ⟨[], rfl, rfl, by simp⟩
  | cons r rs ih =>
    obtain ⟨states, hfront, hback, hstates⟩ := ih (frame.add s mark isSeparator r)
    have hseparator := (add_parts frame s mark isSeparator r).2
    have hadd : ∃ news, (frame.add s mark isSeparator r).front = frame.front ∧
        (frame.add s mark isSeparator r).back = news ++ frame.back ∧
        ∀ state ∈ news, state = ⟨r, if isSeparator then mark else (s.result r).stop,
          !isSeparator && frame.separator.isSome⟩ := by
      cases isSeparator with
      | true => exact separateMany_back frame r mark
      | false => exact emitMany_back frame r (s.result r).stop
    obtain ⟨news, hfront', hback', hnews⟩ := hadd
    refine ⟨states ++ news, hfront.trans hfront', ?_, fun state hstate => ?_⟩
    · rw [List.foldl_cons, hback, hback', List.append_assoc]
    · rcases List.mem_append.1 hstate with hstate | hstate
      · obtain ⟨r', hr', rfl⟩ := hstates state hstate
        exact ⟨r', List.mem_cons_of_mem r hr', by rw [hseparator]⟩
      · exact ⟨r, List.mem_cons_self, hnews state hstate⟩

end

/-- What a construct has still to do gets less from call to call. -/
theorem resume_load {τ ν : Type} [Token τ ν] {g : Grammar} {tokens : Array τ} {t u : Tables}
    {frame frame' : Frame} {child id : PatternId} {index start : Nat} {results : List ResultId}
    {child' : PatternId} {index' : Nat} {context' : Context} (hs : t.store.Sound)
    (hwaits : t.store.Waits g tokens frame child index id start)
    (hresults : ∀ r ∈ results, t.store.Supports g tokens (.whole child) index r)
    (h : resume frame results [] t = (Task.wait child' index' context' frame').machine [] u) :
    (frame'.load tokens.size).IsDershowitzMannaLT (frame.load tokens.size) := by
  obtain ⟨store, memo, counts, cutoffs⟩ := t
  replace hs : store.Sound := hs
  replace hresults : ∀ r ∈ results, store.Supports g tokens (.whole child) index r := hresults
  have hknown : ∀ r ∈ results, store.Known r := fun r hr => (hresults r hr).known
  -- what comes after a part of a repetition is nearer to the end of the input
  have hmany {frame : ManyFrame} {state : PartialMany} {isSeparator : Bool} {f : FragmentId}
      (hmatched : store.Matched state.result f index) (hmark : state.mark ≤ index)
      (hafter : isSeparator = true → state.afterItem = true)
      (h : resume (.many frame state isSeparator) results [] ⟨store, memo, counts, cutoffs⟩ =
        (Task.wait child' index' context' frame').machine [] u) :
      (frame'.load tokens.size).IsDershowitzMannaLT
        ((Frame.many frame state isSeparator).load tokens.size) := by
    obtain ⟨made, s, hextend, hextends, hremade⟩ := extendMany_remade index state.mark isSeparator
      frame hs (hs.exists_fragment hmatched) hknown
    obtain ⟨states, hfront, hback, hstates⟩ :=
      foldl_add_back s state.mark isSeparator (successesOf s made) frame
    simp only [resume, hmatched.result_eq, hextend] at h
    obtain ⟨hturn, -⟩ := Task.of_machine h
    rw [nextMany_load hturn, hfront, hback]
    refine ⟨((frame.front ++ frame.back).map (PartialMany.load tokens.size) : List (Nat ×ₗ Nat)),
      (states.map (PartialMany.load tokens.size) : List (Nat ×ₗ Nat)),
      {state.load tokens.size}, Multiset.singleton_ne_zero _, ?_, ?_, ?_⟩
    · rw [Multiset.coe_add, ← List.map_append]
      refine Multiset.coe_eq_coe.2 (List.Perm.map _ ?_)
      rw [List.append_assoc]
      exact List.perm_append_comm.append_left frame.front
    · rw [add_comm]
      rfl
    · intro load hload
      obtain ⟨other, hother, rfl⟩ := List.mem_map.1 (Multiset.mem_coe.1 hload)
      refine ⟨_, Multiset.mem_singleton_self _, ?_⟩
      obtain ⟨r, hr, rfl⟩ := hstates other hother
      obtain ⟨r', hr', f', stop, hmatched', g', hg', -⟩ := exists_of_mem_successesOf hremade hr
      obtain ⟨hr', hprogress⟩ := List.mem_filter.1 hr'
      obtain ⟨hle, hstop, -⟩ :=
        ((hresults r' hr').mono hs hextends.grows).matched hmatched'
      refine Prod.Lex.toLex_lt_toLex.2 ?_
      cases isSeparator with
      | true => exact .inr ⟨rfl, by simp [hafter rfl]⟩
      | false =>
        have hne : stop ≠ state.mark := by simpa [hmatched'.result_eq] using hprogress
        refine .inl ?_
        simp only [hg'.result_eq]
        show tokens.size - stop < tokens.size - state.mark
        omega
  cases hwaits with
  | wrapped | option =>
    simp only [resume] at h
    obtain ⟨hturn, -⟩ := Task.of_machine h
    cases hturn
  | sequence =>
    simp only [resume] at h
    obtain ⟨hturn, -⟩ := Task.of_machine h
    exact nextSequence_load hturn
  | choice =>
    rename_i frame _
    rcases hresume : resumeChoice frame results [] store with ⟨⟨control, frames⟩, s⟩
    simp only [resume, hresume] at h
    obtain ⟨hturn, -⟩ := Task.of_machine h
    rw [hturn] at hresume
    exact resumeChoice_load hresume
  | item hready hstate hindex hafter =>
    exact hmany hindex (hstate.mark_le hindex) (fun hfalse => absurd hfalse Bool.false_ne_true) h
  | separator hready hstate hindex hafter hseparator =>
    exact hmany hindex (hstate.mark_le hindex) (fun _ => hafter) h

/-! ### How many matches may still be started -/

theorem counts_entered (t : Tables) (site : Site) (store : Store) (other : Site) :
    (t.entered site store).counts.getD other 0 =
      if other = site then t.counts.getD site 0 + 1 else t.counts.getD other 0 := by
  rw [Tables.entered, Std.TreeMap.getD_insert]
  by_cases h : other = site
  · subst h
    simp
  · rw [if_neg h, if_neg (fun hcmp => h (Std.LawfulEqCmp.eq_of_compare hcmp).symm)]

theorem counts_le_entered (t : Tables) (site : Site) (store : Store) (other : Site) :
    t.counts.getD other 0 ≤ (t.entered site store).counts.getD other 0 := by
  rw [counts_entered]
  split
  · rename_i h
    rw [h]
    exact Nat.le_succ _
  · exact le_rfl

/-- How many matches of bounded patterns may still be started. -/
def Tables.budget (g : Grammar) (size : Nat) (t : Tables) : Nat :=
  ∑ i : Fin (size + 1), ∑ p : Fin g.patterns.size,
    (size - i + 2 - t.counts.getD ⟨i, g.patterns[p].recognizer⟩ 0)

section Budget

variable {g : Grammar} {size : Nat} {t u : Tables}

theorem budget_le (h : ∀ site, t.counts.getD site 0 ≤ u.counts.getD site 0) :
    u.budget g size ≤ t.budget g size :=
  Finset.sum_le_sum fun _ _ => Finset.sum_le_sum fun _ _ => Nat.sub_le_sub_left (h _) _

/-- A match that is started is one of them. -/
theorem budget_entered_lt {index : Nat} {id : PatternId} {p : Pattern} (store : Store)
    (hindex : index ≤ size) (hp : g.pattern? id = some p)
    (hcount : t.counts.getD ⟨index, p.recognizer⟩ 0 ≤ size - index + 1) :
    (t.entered ⟨index, p.recognizer⟩ store).budget g size < t.budget g size := by
  obtain ⟨hid, rfl⟩ := Array.getElem?_eq_some_iff.1 hp
  have hle := counts_le_entered t ⟨index, g.patterns[id].recognizer⟩ store
  refine Finset.sum_lt_sum (fun _ _ => Finset.sum_le_sum fun _ _ => Nat.sub_le_sub_left (hle _) _)
    ⟨⟨index, Nat.lt_succ_of_le hindex⟩, Finset.mem_univ _, ?_⟩
  refine Finset.sum_lt_sum (fun _ _ => Nat.sub_le_sub_left (hle _) _)
    ⟨⟨id, hid⟩, Finset.mem_univ _, ?_⟩
  have hself := counts_entered t ⟨index, g.patterns[id].recognizer⟩ store
    ⟨index, g.patterns[id].recognizer⟩
  rw [if_pos rfl] at hself
  show size - index + 2 - (t.entered ⟨index, g.patterns[id].recognizer⟩ store).counts.getD
    ⟨index, g.patterns[id].recognizer⟩ 0 <
      size - index + 2 - t.counts.getD ⟨index, g.patterns[id].recognizer⟩ 0
  omega

end Budget

/-! ### Every task ends -/

section Ends

variable {τ ν : Type} [Token τ ν] (g : Grammar) (tokens : Array τ)

/-- Later tables. -/
structure Tables.Leads (t u : Tables) : Prop where
  sound : u.Sound g tokens
  grows : t.store.Grows u.store
  counts_le : ∀ site, t.counts.getD site 0 ≤ u.counts.getD site 0

/-- A task ends if whatever waits for its results does. -/
def Task.Ends (task : Task) (t : Tables) : Prop :=
  ∀ frames id start, task.Ready g tokens t.store id start →
    (∀ results u, t.Leads g tokens u →
      (∀ r ∈ results, u.store.Supports g tokens (.whole id) start r) →
        Halts g (.ofTokens tokens) ⟨.give results, frames, u⟩) →
    Halts g (.ofTokens tokens) (task.machine frames t)

variable {g tokens}

theorem Tables.Leads.trans {t u v : Tables} (h : t.Leads g tokens u) (h' : u.Leads g tokens v) :
    t.Leads g tokens v :=
  ⟨h'.sound, h.grows.trans h'.grows, fun site => (h.counts_le site).trans (h'.counts_le site)⟩

/-- A construct ends if its call does, and it does whatever less it turns to next. -/
theorem ends_wait {frame : Frame} {child : PatternId} {index : Nat} {context : Context}
    {t : Tables} (hframe : frame.Within g.patterns.size) (ht : t.Sound g tokens)
    (hcall : (Task.call child index context).Ends g tokens t)
    (hnext : ∀ child' index' context' frame' u, t.Leads g tokens u →
      (frame'.load tokens.size).IsDershowitzMannaLT (frame.load tokens.size) →
      (Task.wait child' index' context' frame').Within g.patterns.size →
        (Task.wait child' index' context' frame').Ends g tokens u) :
    (Task.wait child index context frame).Ends g tokens t := by
  rintro frames id start ⟨hwaits, hle, hindex⟩ hgive
  refine hcall (frame :: frames) child index ⟨rfl, rfl, hindex⟩ fun results u hleads hresults => ?_
  have hwaits := hwaits.mono ht.store hleads.grows
  obtain ⟨task, v, hresume, hmoves⟩ := resume_task frame hframe results u
  obtain ⟨s, hextends, rfl, hready⟩ :=
    resume_ready hleads.sound.store hwaits hle hindex hresults (hresume [])
  have hleads' : t.Leads g tokens { u with store := s } := hleads.trans
    ⟨hleads.sound.withStore hextends.sound hextends.grows _, hextends.grows, fun _ => le_rfl⟩
  have hstep : step g (.ofTokens tokens) ⟨.give results, frame :: frames, u⟩ =
      .running (task.machine frames { u with store := s }) := by
    simp only [step, hresume]
  refine Halts.of_running hstep ?_
  cases task with
  | call child' index' context' => exact absurd rfl (hmoves.2 child' index' context')
  | give results' => exact hgive results' _ hleads' hready
  | wait child' index' context' frame' =>
    have hload := resume_load hleads.sound.store hwaits hresults (hresume [])
    exact hnext child' index' context' frame' _ hleads' hload hmoves.1 frames id start hready
      fun results' w hleads'' => hgive results' w (hleads'.trans hleads'')

/-- A construct ends if all calls do that leave no more to be started. -/
theorem ends_wait_of_calls {budget : Nat}
    (hcalls : ∀ child index context (t : Tables), child < g.patterns.size → t.Sound g tokens →
      t.budget g tokens.size ≤ budget → (Task.call child index context).Ends g tokens t)
    {frame : Frame} {child : PatternId} {index : Nat} {context : Context} {t : Tables}
    (htask : (Task.wait child index context frame).Within g.patterns.size) (ht : t.Sound g tokens)
    (hbudget : t.budget g tokens.size ≤ budget) :
    (Task.wait child index context frame).Ends g tokens t := by
  have hwf : WellFounded (Multiset.IsDershowitzMannaLT : Multiset (Nat ×ₗ Nat) → _ → Prop) :=
    Multiset.wellFounded_isDershowitzMannaLT
  induction hload : frame.load tokens.size using hwf.induction
    generalizing frame child index context t with
  | _ load ih =>
    subst hload
    refine ends_wait htask.2 ht (hcalls child index context t htask.1 ht hbudget) ?_
    intro child' index' context' frame' u hleads hlt htask'
    exact ih _ hlt htask' hleads.sound ((budget_le hleads.counts_le).trans hbudget) rfl

/-- Thunks that do not come back to themselves lead somewhere else in finitely many steps. -/
theorem wellFounded_refers (hg : g.Closed) (hthunk : g.NoThunkCycle) :
    WellFounded fun body id => g.Refers id body := by
  have hlt {id body : PatternId} (h : g.Refers id body) : body < g.patterns.size := by
    obtain ⟨p, rule, -, -, hbody⟩ := h
    obtain ⟨r, hr, rfl⟩ := Option.map_eq_some_iff.1 hbody
    exact hg.body_lt rule r hr
  -- thunks are among finitely many patterns, on which their steps have no cycle
  let below (a b : Fin g.patterns.size) : Prop := Relation.TransGen g.Refers b a
  have : IsTrans (Fin g.patterns.size) below := ⟨fun _ _ _ h h' => Relation.TransGen.trans h' h⟩
  have : Std.Irrefl below := ⟨fun a h => hthunk a h⟩
  have hwf := Finite.wellFounded_of_trans_of_irrefl below
  have hacc (a : Fin g.patterns.size) : Acc (fun body id => g.Refers id body) a.1 := by
    induction a using hwf.induction with
    | _ a ih => exact .intro _ fun body h => ih ⟨body, hlt h⟩ (.single h)
  exact ⟨fun id => .intro _ fun body h => hacc ⟨body, hlt h⟩⟩

/-- A pattern that is not bounded and waits is a thunk. -/
theorem evaluate_unbounded {id : PatternId} {p : Pattern} (hp : g.pattern? id = some p)
    (hbounded : ¬ p.kind.isBounded = true) {index index' : Nat} {context context' : Context}
    {s s' : Store} {child : PatternId} {frame : Frame}
    (h : evaluate g (.ofTokens tokens) p index context [] s =
      .ok ((Task.wait child index' context' frame).turn [], s')) :
    frame = .wrapped .thunk ∧ g.Refers id child := by
  unfold evaluate at h
  cases hkind : p.kind with
  | consume terminal =>
    simp only [hkind] at h
    cases h
  | thunk rule =>
    cases hbody : g.ruleBody? rule with
    | none => simp [hkind, hbody] at h
    | some body =>
      simp only [hkind, hbody] at h
      cases h
      exact ⟨rfl, p, rule, hp, hkind, hbody⟩
  | _ => simp [hkind, PatternKind.isBounded] at hbounded

/-- Every call ends. -/
theorem ends_call (hg : g.Closed) (hthunk : g.NoThunkCycle) (budget : Nat) {id : PatternId}
    (hid : id < g.patterns.size) (index : Nat) (context : Context) {t : Tables}
    (ht : t.Sound g tokens) (hbudget : t.budget g tokens.size ≤ budget) :
    (Task.call id index context).Ends g tokens t := by
  induction budget using Nat.strongRecOn generalizing id index context t with
  | ind budget ihbudget =>
    have hwf := wellFounded_refers hg hthunk
    induction id using hwf.induction generalizing index context t with
    | _ id ihthunk =>
      rintro frames goal start ⟨rfl, rfl, hindex⟩ hgive
      have hp : g.pattern? id = some g.patterns[id] := Array.getElem?_eq_getElem hid
      generalize g.patterns[id] = p at hp
      have hready : (Task.call id index context).Ready g tokens t.store id index :=
        ⟨rfl, rfl, hindex⟩
      rcases invoke_cases (.ofTokens tokens) hp index context t with ⟨results, hreplay, h⟩ |
        ⟨-, -, -, -, h⟩ | ⟨hreplay, hbounded, hcount, map, failure, store, hmap, hfailure, h⟩ |
        ⟨hreplay, hcount, inner, store, henter, h⟩
      · obtain ⟨hsound, hgrows, hresults⟩ := (Yields.replay hp hreplay).supports hg ht hready
        exact .of_running (h frames) (hgive results t ⟨hsound, hgrows, fun _ => le_rfl⟩ hresults)
      · exact halts_of_faulted (h frames)
      · obtain ⟨hsound, hgrows, hresults⟩ := (Yields.cutoff hp hreplay hbounded hcount hmap
          hfailure).supports hg ht hready
        exact .of_running (h frames) (hgive _ _ ⟨hsound, hgrows, fun _ => le_rfl⟩ hresults)
      · obtain ⟨task, store', htask, hmoves⟩ :=
          evaluate_task hg (.ofTokens tokens) hp index inner store
        obtain ⟨hsound, hgrows, -⟩ := ht.store.enter context ⟨index, p.recognizer⟩
          (t.counts.getD ⟨index, p.recognizer⟩ 0 + 1)
        rw [henter] at hsound hgrows
        obtain ⟨hextends, hready'⟩ := evaluate_ready hsound hp hindex (htask [])
        have hleads : t.Leads g tokens (t.entered ⟨index, p.recognizer⟩ store') :=
          ⟨ht.withStore hextends.sound (hgrows.trans hextends.grows) _,
            hgrows.trans hextends.grows, counts_le_entered t _ store'⟩
        -- what the pattern gives is remembered first
        have hcomplete (results : List ResultId) (u : Tables)
            (hu : (t.entered ⟨index, p.recognizer⟩ store').Leads g tokens u)
            (hresults : ∀ r ∈ results, u.store.Supports g tokens (.whole id) index r) :
            Halts g (.ofTokens tokens)
              ⟨.give results, .complete ⟨index, p.recognizer⟩ :: frames, u⟩ := by
          have hrecord : u.Leads g tokens (u.record ⟨index, p.recognizer⟩ results) :=
            ⟨hu.sound.record hg hp hresults, .refl _, fun _ => le_rfl⟩
          exact .of_running rfl (hgive results _ (hleads.trans (hu.trans hrecord)) hresults)
        have hstep := h frames
        simp only [htask] at hstep
        refine .of_running hstep ?_
        cases task with
        | call child index' context' => exact absurd rfl (hmoves.2 child index' context')
        | give results =>
          exact hcomplete results _ ⟨hleads.sound, .refl _, fun _ => le_rfl⟩ hready'
        | wait child index' context' frame =>
          suffices hends : (Task.wait child index' context' frame).Ends g tokens
              (t.entered ⟨index, p.recognizer⟩ store') from
            hends (.complete ⟨index, p.recognizer⟩ :: frames) id index hready' hcomplete
          by_cases hbounded : p.kind.isBounded = true
          · have hlt := budget_entered_lt store' hindex hp (hcount hbounded)
            refine ends_wait_of_calls ?_ hmoves.1 hleads.sound le_rfl
            intro child index context t hchild ht hle
            exact ihbudget _ (hlt.trans_le hbudget) hchild index context ht hle
          · -- a thunk leaves the budget as it is, and leads to another pattern
            obtain ⟨rfl, hrefers⟩ := evaluate_unbounded hp hbounded (htask [])
            refine ends_wait hmoves.1.2 hleads.sound (ihthunk child hrefers hmoves.1.1 index'
              context' hleads.sound ((budget_le hleads.counts_le).trans hbudget)) ?_
            rintro _ _ _ _ _ _ ⟨_, _, _, hne, -, hload, -⟩
            exact absurd (add_eq_zero.1 hload.symm).2 hne

end Ends

/-! ### How often a site is matched -/

/-- The machine starts to match a bounded pattern at the site: it calls one under the site's key,
and the call puts frames on those that wait. -/
def Machine.starts (g : Grammar) (input : Input) (site : Site) (m : Machine) : Bool :=
  match m.control, step g input m with
  | .call id index _, .running next =>
    (g.pattern? id).any fun p => p.kind.isBounded && site = ⟨index, p.recognizer⟩ &&
      m.frames.length < next.frames.length
  | _, _ => false

/-- How often a run starts to match a bounded pattern at the site. -/
def startsOf (g : Grammar) (input : Input) (site : Site) : Nat → Machine → Nat
  | 0, _ => 0
  | fuel + 1, m =>
    match step g input m with
    | .running next => (m.starts g input site).toNat + startsOf g input site fuel next
    | _ => 0

section Starts

variable {g : Grammar} {input : Input} {m next : Machine}

theorem resume_counts (frame : Frame) (results : List ResultId) (frames : List Frame)
    (t : Tables) : (resume frame results frames t).tables.counts = t.counts := by
  cases frame <;> rfl

/-- A call that starts a match is counted, and is not one too many. -/
theorem counts_step (hg : g.Closed) (hstep : step g input m = .running next) (site : Site) :
    m.tables.counts.getD site 0 ≤ next.tables.counts.getD site 0 ∧
      (m.starts g input site = true → m.tables.counts.getD site 0 ≤ input.size - site.index + 1 ∧
        next.tables.counts.getD site 0 = m.tables.counts.getD site 0 + 1) := by
  obtain ⟨control, frames, t⟩ := m
  cases control with
  | give results =>
    refine ⟨?_, fun h => nomatch h⟩
    cases frames with
    | nil => cases hstep
    | cons frame frames =>
      cases hstep
      rw [resume_counts]
  | call id index context =>
    have hinvoke : invoke g input id index context frames t = .running next := hstep
    cases hp : g.pattern? id with
    | none =>
      simp only [invoke, hp] at hinvoke
      cases hinvoke
    | some p =>
      have hstarts (h : (Machine.mk (.call id index context) frames t).starts g input site = true) :
          p.kind.isBounded = true ∧ site = ⟨index, p.recognizer⟩ ∧
            frames.length < next.frames.length := by
        simpa [Machine.starts, hstep, hp, and_assoc] using h
      rcases invoke_cases input hp index context t with ⟨results, -, h⟩ | ⟨-, -, -, -, h⟩ |
        ⟨-, -, -, map, failure, store, -, -, h⟩ | ⟨-, hcount, inner, store, -, h⟩
      · rw [h] at hinvoke
        cases hinvoke
        exact ⟨le_rfl, fun h => absurd (hstarts h).2.2 (lt_irrefl _)⟩
      · rw [h] at hinvoke
        cases hinvoke
      · rw [h] at hinvoke
        cases hinvoke
        exact ⟨le_rfl, fun h => absurd (hstarts h).2.2 (lt_irrefl _)⟩
      · obtain ⟨task, store', htask, -⟩ := evaluate_task hg input hp index inner store
        rw [h, htask] at hinvoke
        cases hinvoke
        refine ⟨counts_le_entered t _ store' site, fun h => ?_⟩
        obtain ⟨hbounded, rfl, -⟩ := hstarts h
        exact ⟨hcount hbounded, by rw [counts_entered, if_pos rfl]⟩

/-- What is started after a step was not counted before it. -/
theorem startsOf_le (hg : g.Closed) (site : Site) (fuel : Nat) (m : Machine) :
    startsOf g input site fuel m ≤
      input.size - site.index + 2 - m.tables.counts.getD site 0 := by
  induction fuel generalizing m with
  | zero => exact Nat.zero_le _
  | succ fuel ih =>
    unfold startsOf
    split
    · rename_i next hstep
      obtain ⟨hle, hstarts⟩ := counts_step hg hstep site
      have hih := ih next
      cases hm : m.starts g input site with
      | false =>
        simp only [Bool.toNat_false]
        omega
      | true =>
        obtain ⟨hcount, hnext⟩ := hstarts hm
        simp only [Bool.toNat_true]
        omega
    · exact Nat.zero_le _

end Starts

/-- Without a cycle of thunks, recognition ends for every pattern and every input, and starts to
match the bounded patterns of one key at one position at most twice more than there are tokens
left. -/
theorem recognition_ends {τ ν : Type} [Token τ ν] {g : Grammar} (hg : g.Built)
    (hthunk : g.NoThunkCycle) (id : PatternId) (tokens : Array τ) :
    (∃ fuel, (run g (.ofTokens tokens) fuel (.initial id)).isDone = true) ∧
      ∀ site fuel, startsOf g (.ofTokens tokens) site fuel (.initial id) ≤
        tokens.size - site.index + 2 := by
  have hclosed := hg.closed
  constructor
  · by_cases hid : id < g.patterns.size
    · refine ends_call hclosed hthunk _ hid 0 [] Tables.sound_empty le_rfl [] id 0
        ⟨rfl, rfl, Nat.zero_le _⟩ fun results u _ _ => ?_
      exact halts_give_nil results u
    · have hp : g.pattern? id = none := Array.getElem?_eq_none (Nat.not_lt.1 hid)
      refine ⟨1, ?_⟩
      simp only [run, step, Machine.initial, invoke, hp, Progress.isDone]
  · intro site fuel
    exact (startsOf_le hclosed site fuel (.initial id)).trans (Nat.sub_le _ _)

theorem Grammar.noThunkCycle_suffixes : suffixes.NoThunkCycle := by
  refine noThunkCycle_of_rank (fun id => if id = 0 then 1 else 0) ?_
  rintro id body ⟨p, rule, hp, hkind, hbody⟩
  obtain ⟨hlt, rfl⟩ := Array.getElem?_eq_some_iff.1 hp
  have hlt : id < 5 := hlt
  interval_cases id <;> simp [suffixes] at hkind
  subst hkind
  cases hbody
  decide

/-- Left recursion ends. -/
theorem recognition_ends_suffixes :
    (∃ fuel, (run Grammar.suffixes (.ofTokens #["a", "x"]) fuel (.initial 4)).isDone = true) ∧
      ∀ site fuel, startsOf Grammar.suffixes (.ofTokens #["a", "x"]) site fuel (.initial 4) ≤
        2 - site.index + 2 :=
  recognition_ends Grammar.built_suffixes Grammar.noThunkCycle_suffixes 4 #["a", "x"]

end ReversibleGrammar
