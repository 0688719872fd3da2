/-
What constructs make of what their calls list.

A pattern that starts to match calls its children one after the other.  If the
calls list what the children match, the pattern lists what it makes of that.

* `Answers` — calls of a pattern at a position list its matches;
* `AnswersAll` — so do calls that are made one after the other;
* `wrapped_ensures`, `option_ensures`, `choice_ensures`, `sequence_ensures` — construct by
  construct.

Each call of a construct may find the tables in another state than the calls before
it.  The first one may come back to the construct, at the construct's own position; and
what one call has entered need not be entered by the calls after it.
-/
import ReversibleGrammar.Proofs.Grammar.Calls
import ReversibleGrammar.Proofs.Recognizer.Ensures
import ReversibleGrammar.Proofs.Recognizer.Listing

namespace ReversibleGrammar

/-- A property of tables that keeps the store sound and does not look at what is stored later. -/
structure Tables.Stable (Inv : Tables → Prop) : Prop where
  sound : ∀ {t : Tables}, Inv t → t.store.Sound
  withStore : ∀ {t : Tables} {s : Store}, Inv t → t.store.Extends s → Inv { t with store := s }

section

variable {τ ν : Type} [Token τ ν] (g : Grammar) (tokens : Array τ)

/-- The results list matches of the pattern, and come with later tables that satisfy `Inv`. -/
structure Tables.Answered (Inv : Tables → Prop) (t : Tables) (id : PatternId)
    (ys : List (Tree ν × Nat)) (results : List ResultId) (u : Tables) : Prop where
  inv : Inv u
  grows : t.store.Grows u.store
  lists : u.store.Lists (u.store.Reads g tokens id) results ys

/-- From tables that satisfy `Pre`, calls of the pattern at the position list these matches and
leave tables that satisfy `Inv`. -/
def Answers (fault : Site → Prop) (Pre Inv : Tables → Prop) (context : Context) (id : PatternId)
    (i : Nat) (ys : List (Tree ν × Nat)) : Prop :=
  ∀ t, Pre t → (Task.call id i context).Ensures g (.ofTokens tokens) fault t
    (t.Answered g tokens Inv id ys)

/-- Calls that are made one after the other list matches, from tables that satisfy `Pre` to tables
that satisfy `Inv`: each leaves what the next one starts from. -/
inductive AnswersAll (fault : Site → Prop) (context : Context) (read : Readings ν) :
    List Call → (Tables → Prop) → (Tables → Prop) → Prop
  | nil {Inv : Tables → Prop} (hInv : Tables.Stable Inv) :
    AnswersAll fault context read [] Inv Inv
  | cons {Pre Mid Inv : Tables → Prop} {c : Call} {later : List Call} (hPre : Tables.Stable Pre)
      (hcall : Answers g tokens fault Pre Mid context c.1 c.2 (read c.1 c.2))
      (hlater : AnswersAll fault context read later Mid Inv) :
    AnswersAll fault context read (c :: later) Pre Inv

end

section

variable {τ ν : Type} [Token τ ν] {g : Grammar} {tokens : Array τ} {fault : Site → Prop}
variable {Pre Inv : Tables → Prop} {context : Context} {id : PatternId} {p : Pattern} {i : Nat}
variable {read : Readings ν}

theorem Store.Lists.reads_mono {s t : Store} (hs : s.Sound) (hgrows : s.Grows t)
    {results : List ResultId} {ys : List (Tree ν × Nat)}
    (h : s.Lists (s.Reads g tokens id) results ys) : t.Lists (t.Reads g tokens id) results ys :=
  h.mono hgrows fun _ _ hread => hread.mono hs hgrows

theorem Answers.mono {Pre' Inv' : Tables → Prop} {ys : List (Tree ν × Nat)}
    (h : Answers g tokens fault Pre Inv context id i ys) (hPre : ∀ t, Pre' t → Pre t)
    (hInv : ∀ t, Inv t → Inv' t) : Answers g tokens fault Pre' Inv' context id i ys :=
  fun t ht => (h t (hPre t ht)).mono fun _ u hu => ⟨hInv u hu.inv, hu.grows, hu.lists⟩

/-! ### Several calls -/

theorem AnswersAll.stable {calls : List Call}
    (h : AnswersAll g tokens fault context read calls Pre Inv) :
    Tables.Stable Pre ∧ Tables.Stable Inv := by
  induction h with
  | nil hInv => exact ⟨hInv, hInv⟩
  | cons hPre _ _ ih => exact ⟨hPre, ih.2⟩

/-- Calls that all keep an invariant, whatever has been called before. -/
theorem answersAll_of_forall (hInv : Tables.Stable Inv) {calls : List Call}
    (h : ∀ c ∈ calls, Answers g tokens fault Inv Inv context c.1 c.2 (read c.1 c.2)) :
    AnswersAll g tokens fault context read calls Inv Inv := by
  induction calls with
  | nil => exact .nil hInv
  | cons c later ih =>
    obtain ⟨hc, hlater⟩ := List.forall_mem_cons.1 h
    exact .cons hInv hc (ih hlater)

/-! ### One child -/

/-- What a construct around one child makes of the matches of the child, one by one. -/
theorem resume_wrapped_ensures (hInv : Tables.Stable Inv) (hp : g.pattern? id = some p)
    {wrapper : Wrapper} {child : PatternId} (hkind : p.kind.wrapped? g = some (wrapper, child))
    {t u : Tables} {results : List ResultId} {ys : List (Tree ν × Nat)}
    (hu : t.Answered g tokens Inv child ys results u) :
    (Frame.wrapped wrapper).Ensures g (.ofTokens tokens) fault results u fun made v =>
      t.Answered g tokens Inv id (ys.map fun y => (.wrapped p y.1, y.2)) made v ∧
        made.length = results.length := by
  obtain ⟨store, memo, counts, cutoffs⟩ := u
  obtain ⟨hinv, hgrows, hresults⟩ := hu
  have hs : store.Sound := hInv.sound hinv
  obtain ⟨made, s, hmade, hextends, hremade⟩ := wrapResult_remade wrapper hs hresults.known
  refine ⟨.give made, ⟨s, memo, counts, cutoffs⟩, fun frames => ?_, ensures_give ?_⟩
  · simp only [resume, hmade]
    rfl
  · have hlists := hresults.reads_mono hs hextends.grows
    refine ⟨⟨hInv.withStore hinv hextends, hgrows.trans hextends.grows,
      hlists.remade hremade ?_⟩, hremade.length_eq.symm⟩
    intro f f' r r' stop y hr hr' hf' hread
    exact Store.reads_wrapped hextends.sound hp hkind hr hr' hf' hread

/-- What an option makes of the matches of its item. -/
theorem resume_option_ensures (hInv : Tables.Stable Inv) (hp : g.pattern? id = some p)
    {item : PatternId} (hkind : p.kind = .option item) {t u : Tables} {results : List ResultId}
    {ys : List (Tree ν × Nat)} (hu : t.Answered g tokens Inv item ys results u)
    (hnodup : ((ys.map (fun y : Tree ν × Nat => (Tree.present p y.1, y.2)) ++
      [(Tree.absent p, i)]).map Prod.fst).Nodup) :
    (Frame.option i).Ensures g (.ofTokens tokens) fault results u
      (t.Answered g tokens Inv id
        (ys.map (fun y => (.present p y.1, y.2)) ++ [(.absent p, i)])) := by
  obtain ⟨store, memo, counts, cutoffs⟩ := u
  obtain ⟨hinv, hgrows, hresults⟩ := hu
  have hs : store.Sound := hInv.sound hinv
  obtain ⟨made, s, hmade, hextends, hremade⟩ := optionResults_remade .empty hs hresults.known
  obtain ⟨absent, s', habsent, hextends', f, hmatched, hf⟩ :=
    hextends.sound.made .absent (by simp [Fragment.parts]) i
  have hextends'' := hextends.trans hextends'
  refine ⟨.give ((ResultSet.empty.insertAll (successesOf s made)).insertAll [absent]).toList,
    ⟨s', memo, counts, cutoffs⟩, fun frames => ?_, ensures_give ?_⟩
  · simp only [resume, hmade, habsent]
    rfl
  · refine ⟨hInv.withStore hinv hextends'', hgrows.trans hextends''.grows, ?_⟩
    -- the item first, as far as it matches
    have hpresent : s'.Lists (s'.Reads g tokens id) (successesOf s made)
        (ys.map fun y => (.present p y.1, y.2)) := by
      have hlists := hresults.reads_mono hs hextends.grows
      have hlists := hlists.remade (Q := s.Reads g tokens id) hremade
        fun f f' r r' stop y hr hr' hf' hread =>
          Store.reads_present hextends.sound hp hkind hr hr' hf' hread
      exact hlists.of_successes.reads_mono hextends.sound hextends'.grows
    have hlast : s'.Lists (s'.Reads g tokens id) [absent] [(.absent p, i)] :=
      (Store.lists_nil _).cons_matched hmatched ⟨f, hmatched, rebuild_absent hp hkind hf⟩
    have hunique : ∀ r (y y' : Tree ν × Nat), s'.Reads g tokens id r y →
        s'.Reads g tokens id r y' → y.1 = y'.1 := fun _ _ _ => Store.Reads.unique
    have hfirst := (Store.lists_nil (s := s') (s'.Reads g tokens id)).insertAll
      ResultSet.faithful_empty hunique hpresent
      (hnodup.sublist ((List.sublist_append_left _ _).map _))
    exact hfirst.insertAll (ResultSet.faithful_empty.insertAll _) hunique hlast hnodup

/-- A pattern around one child calls it. -/
theorem evaluate_wrapped {wrapper : Wrapper} {child : PatternId}
    (hkind : p.kind.wrapped? g = some (wrapper, child)) (input : Input) (i : Nat)
    (context : Context) (s : Store) (frames : List Frame) :
    evaluate g input p i context frames s =
      .ok ((Task.wait child i context (.wrapped wrapper)).turn frames, s) := by
  unfold evaluate
  cases hk : p.kind with
  | thunk rule =>
    rw [hk] at hkind
    obtain ⟨body, hbody, heq⟩ := Option.map_eq_some_iff.1 hkind
    cases heq
    simp only [hbody]
    rfl
  | indent | group | conditional =>
    rw [hk] at hkind
    cases hkind
    rfl
  | _ => simp [hk, PatternKind.wrapped?] at hkind

/-- A pattern around one child calls it, and wraps what the call lists. -/
theorem wrapped_ensures (hInv : Tables.Stable Inv) (hp : g.pattern? id = some p)
    {wrapper : Wrapper} {child : PatternId} (hkind : p.kind.wrapped? g = some (wrapper, child))
    {ys : List (Tree ν × Nat)} (hcall : Answers g tokens fault Pre Inv context child i ys)
    {t : Tables} (ht : Pre t) :
    p.Ensures g (.ofTokens tokens) fault i context t
      (t.Answered g tokens Inv id (ys.map fun y => (.wrapped p y.1, y.2))) := by
  refine ⟨.wait child i context (.wrapped wrapper), t.store, fun frames => ?_,
    ensures_wait (hcall t ht) fun results u hu =>
      (resume_wrapped_ensures hInv hp hkind hu).mono fun _ _ h => h.1⟩
  exact evaluate_wrapped hkind (.ofTokens tokens) i context t.store frames

/-- An option calls its item, and adds that it may be absent. -/
theorem option_ensures (hInv : Tables.Stable Inv) (hp : g.pattern? id = some p)
    {item : PatternId} (hkind : p.kind = .option item) {ys : List (Tree ν × Nat)}
    (hcall : Answers g tokens fault Pre Inv context item i ys)
    (hnodup : ((ys.map (fun y : Tree ν × Nat => (Tree.present p y.1, y.2)) ++
      [(Tree.absent p, i)]).map Prod.fst).Nodup) {t : Tables} (ht : Pre t) :
    p.Ensures g (.ofTokens tokens) fault i context t (t.Answered g tokens Inv id
      (ys.map (fun y => (.present p y.1, y.2)) ++ [(.absent p, i)])) := by
  refine ⟨.wait item i context (.option i), t.store, fun frames => ?_,
    ensures_wait (hcall t ht) fun results u hu => resume_option_ensures hInv hp hkind hu hnodup⟩
  simp only [evaluate, hkind]
  rfl

/-! ### Choices -/

/-- The matches of alternatives from the `index`th on, as matches of the choice. -/
def Readings.alternativesFrom (read : Readings ν) (p : Pattern) (i index : Nat)
    (alternatives : List PatternId) : List (List (Tree ν × Nat)) :=
  (alternatives.zipIdx index).map fun x => (read x.1 i).map fun y => (.choice p x.2 y.1, y.2)

theorem select_cons_of_empty (mode : ChoiceMode) (xss : List (List α)) :
    mode.select ([] :: xss) = mode.select xss := by
  cases mode <;> simp [ChoiceMode.select]

theorem alternativesFrom_cons (read : Readings ν) (p : Pattern) (i index : Nat) (a : PatternId)
    (later : List PatternId) : read.alternativesFrom p i index (a :: later) =
      ((read a i).map fun y => (.choice p index y.1, y.2)) ::
        read.alternativesFrom p i (index + 1) later := rfl

theorem nodup_choice (p : Pattern) (index : Nat) {ys : List (Tree ν × Nat)}
    (h : (ys.map Prod.fst).Nodup) :
    ((ys.map fun y : Tree ν × Nat => (Tree.choice p index y.1, y.2)).map Prod.fst).Nodup := by
  have heq : (ys.map fun y : Tree ν × Nat => (Tree.choice p index y.1, y.2)).map Prod.fst =
      (ys.map Prod.fst).map (Tree.choice p index) := by
    simp [Function.comp_def]
  rw [heq]
  exact h.map fun t t' h => by injection h

/-- A choice that has tried an alternative knows its matches, as matches of its own. -/
theorem choiceResults_lists {s : Store} (hs : s.Sound) (hp : g.pattern? id = some p)
    {alternatives : List PatternId} {mode : ChoiceMode} {names : Option (List String)}
    (hkind : p.kind = .choice alternatives mode names) {index : Nat} {alternative : PatternId}
    (halternative : alternatives[index]? = some alternative) {results : List ResultId}
    {ys : List (Tree ν × Nat)}
    (hresults : s.Lists (s.Reads g tokens alternative) results ys)
    (hnodup : ((ys.map fun y : Tree ν × Nat => (Tree.choice p index y.1, y.2)).map
      Prod.fst).Nodup) :
    ∃ successes failures t, choiceResults index results .empty .empty s =
        ((successes, failures), t) ∧ s.Extends t ∧
      t.Lists (t.Reads g tokens id) successes.toList
        (ys.map fun y => (.choice p index y.1, y.2)) ∧
      t.Lists (t.Reads (ν := ν) g tokens id) failures.toList [] ∧
      successes.isEmpty = ys.isEmpty := by
  obtain ⟨made, t, hmade, hextends, hremade⟩ :=
    choiceResults_remade index .empty .empty hs hresults.known
  have hlists := hresults.reads_mono hs hextends.grows
  have hlists := hlists.remade (Q := t.Reads g tokens id)
    (F := fun y => (.choice p index y.1, y.2)) hremade fun f f' r r' stop y hr hr' hf' hread =>
      Store.reads_choice hextends.sound hp hkind halternative hr hr' hf' hread
  refine ⟨_, _, t, hmade, hextends, hlists.of_successes.ofList (fun _ _ _ => Store.Reads.unique)
    hnodup, ?_, ?_⟩
  · have hnil : (([] : List (Tree ν × Nat)).map Prod.fst).Nodup := List.nodup_nil
    exact hlists.of_failures.ofList (fun _ _ _ => Store.Reads.unique) hnil
  · have hlength := hlists.reads.length_eq
    rw [List.length_map] at hlength
    rw [show ResultSet.empty.insertAll (successesOf t made) = .ofList (successesOf t made) from rfl,
      ResultSet.isEmpty_ofList, Bool.eq_iff_iff, List.isEmpty_iff_length_eq_zero,
      List.isEmpty_iff_length_eq_zero, hlength]

/-- Without alternatives that are left, a choice gives what was found, and perhaps a failure. -/
theorem nextChoice_nil_cases {s : Store} (hs : s.Sound) (frame : ChoiceFrame) :
    ∃ failed t, (∀ frames, nextChoice frame frames [] s =
        ((.give (frame.found.insertAll failed).toList, frames), t)) ∧
      s.Extends t ∧ ∀ r ∈ failed, t.Failed r := by
  cases hmatched : frame.matched with
  | true => exact ⟨[], s, fun _ => by simp only [nextChoice, hmatched]; rfl, .refl hs, by simp⟩
  | false =>
    cases hlabel : frame.label with
    | none =>
      exact ⟨[], s, fun _ => by simp only [nextChoice, hmatched, hlabel]; rfl, .refl hs, by simp⟩
    | some label =>
      obtain ⟨failure, t, k, hfailure, hextends, -, hresult⟩ :=
        hs.failure_eq (.alternativeFailed label) frame.position emptyMap
      refine ⟨[failure], t, fun _ => ?_, hextends, fun r hr => ?_⟩
      · simp only [nextChoice, hmatched, hlabel, hfailure]
        rfl
      · rw [List.mem_singleton.1 hr]
        exact ⟨k, _, _, hresult⟩

/-- A choice tries the alternatives that are left, and adds their matches to those found. -/
theorem nextChoice_ensures (hp : g.pattern? id = some p)
    {alternatives : List PatternId} {mode : ChoiceMode} {names : Option (List String)}
    (hkind : p.kind = .choice alternatives mode names) (frame : ChoiceFrame)
    {later : List PatternId} (hlater : alternatives.drop frame.index = later)
    (hcalls : AnswersAll g tokens fault context read
      ((read.tried mode i later).map fun a => (a, i)) Pre Inv)
    (hcontext : frame.context = context) (hposition : frame.position = i)
    (hmode : frame.mode = mode) {zs : List (Tree ν × Nat)} (hordered : mode = .ordered → zs = [])
    (hdistinct : ∀ a ∈ later, ((read a i).map Prod.fst).Nodup)
    (hnodup : ((zs ++ mode.select (read.alternativesFrom p i frame.index later)).map
      Prod.fst).Nodup)
    {t u : Tables} (hgrows : t.store.Grows u.store) (hu : Pre u)
    (hfaithful : frame.found.Faithful)
    (hfound : u.store.Lists (u.store.Reads g tokens id) frame.found.toList zs) :
    ∃ (task : Task) (s : Store),
      (∀ frames, nextChoice frame frames later u.store = (task.turn frames, s)) ∧
        task.Ensures g (.ofTokens tokens) fault { u with store := s } (t.Answered g tokens Inv id
          (zs ++ mode.select (read.alternativesFrom p i frame.index later))) := by
  have hunique {s : Store} : ∀ r (y y' : Tree ν × Nat), s.Reads g tokens id r y →
      s.Reads g tokens id r y' → y.1 = y'.1 := fun _ _ _ => Store.Reads.unique
  have hInv := hcalls.stable.2
  have hs := hcalls.stable.1.sound hu
  induction later generalizing frame zs Pre u with
  | nil =>
    cases hcalls
    have hselect : mode.select (read.alternativesFrom p i frame.index []) = [] := by
      cases mode <;> rfl
    rw [hselect, List.append_nil] at hnodup ⊢
    obtain ⟨failed, s, hnext, hextends, hfailed⟩ := nextChoice_nil_cases hs frame
    refine ⟨.give (frame.found.insertAll failed).toList, s, hnext,
      ensures_give ⟨hInv.withStore hu hextends, hgrows.trans hextends.grows, ?_⟩⟩
    have hfound := hfound.reads_mono hs hextends.grows
    have hlists := hfound.insertAll hfaithful hunique (Store.lists_failed _ hfailed)
      (by rwa [List.append_nil])
    rwa [List.append_nil] at hlists
  | cons a later ih =>
    rw [Readings.tried, List.map_cons] at hcalls
    obtain - | ⟨-, hcall, hcalls⟩ := hcalls
    have hMid := hcalls.stable.1
    refine ⟨.wait a i context (.choice { frame with later }), u.store, fun frames => ?_,
      ensures_wait (hcall u hu) fun results v hv => ?_⟩
    · rw [← hcontext, ← hposition]
      rfl
    obtain ⟨store, memo, counts, cutoffs⟩ := v
    have hs' : store.Sound := hMid.sound hv.inv
    have halternative : alternatives[frame.index]? = some a := by
      rw [← List.head?_drop, hlater]
      rfl
    have hys := nodup_choice p frame.index (hdistinct a List.mem_cons_self)
    obtain ⟨successes, failures, s, hchoice, hextends, hsuccesses, hfailures, hempty⟩ :=
      choiceResults_lists hs' hp hkind halternative hv.lists hys
    have hgrows' : u.store.Grows s := hv.grows.trans hextends.grows
    have hmid := hMid.withStore hv.inv hextends
    rw [alternativesFrom_cons] at hnodup ⊢
    by_cases hstop : (!successes.isEmpty && frame.mode == .ordered) = true
    · -- the first alternative with matches is the last one to be tried
      rw [hempty, hmode] at hstop
      rw [if_pos hstop, List.map_nil] at hcalls
      cases hcalls
      rw [← hempty, ← hmode] at hstop
      refine ⟨.give successes.toList, ⟨s, memo, counts, cutoffs⟩, fun frames => ?_,
        ensures_give ⟨hmid, hgrows.trans hgrows', ?_⟩⟩
      · simp only [resume, resumeChoice, hchoice, hstop, if_true]
        rfl
      · obtain ⟨hne, rfl⟩ : successes.isEmpty = false ∧ mode = .ordered := by
          simpa [hmode] using hstop
        rw [hordered rfl, List.nil_append]
        simpa [ChoiceMode.select, ← hempty, hne] using hsuccesses
    · have hordered' : mode = .ordered → (read a i).isEmpty = true := by
        rintro rfl
        rw [← hempty]
        simpa [hmode] using hstop
      rw [← hempty, ← hmode, if_neg hstop, hmode] at hcalls
      have hselect : zs ++ mode.select
            (((read a i).map fun y => (Tree.choice p frame.index y.1, y.2)) ::
              read.alternativesFrom p i (frame.index + 1) later) =
          (zs ++ (read a i).map fun y => (Tree.choice p frame.index y.1, y.2)) ++
            mode.select (read.alternativesFrom p i (frame.index + 1) later) := by
        cases mode with
        | ordered =>
          rw [List.isEmpty_iff.1 (hordered' rfl), List.map_nil, select_cons_of_empty,
            List.append_nil]
        | parallel => simp [ChoiceMode.select]
      rw [hselect] at hnodup ⊢
      have hnodup' := hnodup.sublist ((List.sublist_append_left _ _).map _)
      have hfound := (hfound.reads_mono hs hgrows').insertAll hfaithful hunique hsuccesses hnodup'
      have hfound := hfound.insertAll (hfaithful.insertAll _) hunique hfailures
        (by rwa [List.append_nil])
      rw [List.append_nil] at hfound
      let next : ChoiceFrame :=
        { frame with
          later
          index := frame.index + 1
          found := (frame.found.insertAll successes.toList).insertAll failures.toList
          matched := frame.matched || !successes.isEmpty }
      obtain ⟨task, s', hnext, h⟩ := ih next
        (by rw [← List.tail_drop, hlater, List.tail_cons]) hcalls hcontext hposition hmode
        (fun hmode => by rw [hordered hmode, List.isEmpty_iff.1 (hordered' hmode)]; rfl)
        (fun b hb => hdistinct b (List.mem_cons_of_mem a hb)) hnodup (hgrows.trans hgrows')
        hmid ((hfaithful.insertAll _).insertAll _) hfound hextends.sound
      refine ⟨task, ⟨s', memo, counts, cutoffs⟩, fun frames => ?_, h⟩
      have hnext : nextChoice next frames later s = (task.turn frames, s') := hnext frames
      simp only [next] at hnext
      simp only [resume, resumeChoice, hchoice, hstop, Bool.false_eq_true, if_false, hnext]
      rfl

/-- A choice calls its alternatives one after the other. -/
theorem choice_ensures (hp : g.pattern? id = some p)
    {alternatives : List PatternId} {mode : ChoiceMode} {names : Option (List String)}
    (hkind : p.kind = .choice alternatives mode names)
    (hcalls : AnswersAll g tokens fault context read
      ((read.tried mode i alternatives).map fun a => (a, i)) Pre Inv)
    (hdistinct : ∀ a ∈ alternatives, ((read a i).map Prod.fst).Nodup)
    (hnodup : ((mode.select (read.alternatives p alternatives i)).map Prod.fst).Nodup)
    {t : Tables} (ht : Pre t) :
    p.Ensures g (.ofTokens tokens) fault i context t
      (t.Answered g tokens Inv id (mode.select (read.alternatives p alternatives i))) := by
  obtain ⟨task, s, hnext, h⟩ := nextChoice_ensures hp hkind
    ⟨context, i, mode, p.label.bind g.labelText?, 0, [], .empty, false⟩
    rfl hcalls rfl rfl rfl (fun _ => rfl) hdistinct hnodup (.refl _) ht
    ResultSet.faithful_empty (Store.lists_nil _)
  refine ⟨task, s, fun frames => ?_, h⟩
  simp only [evaluate, hkind]
  exact congrArg Except.ok (hnext frames)

/-! ### Sequences -/

section

variable {s : Store} {α : Type} {P : ResultId → α → Prop} {pending : List ResultId}

/-- Results that list nothing are failures. -/
theorem takeSuccess_of_lists_nil (hs : s.Sound) (h : s.Lists P pending [])
    (finished : ResultSet) : takeSuccess s finished pending = (finished.insertAll pending, none) ∧
      ∀ r ∈ pending, s.Failed r := by
  rcases takeSuccess_cases finished hs h.known with htake |
    ⟨failed, r, f, stop, rest, rfl, hfailed, hmatched, -⟩
  · exact htake
  · obtain ⟨x, xs, hnil, -⟩ := h.of_matched hfailed hmatched
    cases hnil

/-- The first match among results is the first that they list. -/
theorem takeSuccess_of_lists_cons (hs : s.Sound) {x : α} {xs : List α}
    (h : s.Lists P pending (x :: xs)) (finished : ResultSet) :
    ∃ failed r f stop rest, takeSuccess s finished pending =
        (finished.insertAll failed, some (⟨.success f, stop, emptyMap⟩, rest)) ∧
      (∀ r ∈ failed, s.Failed r) ∧ s.Matched r f stop ∧ P r x ∧ s.Lists P rest xs := by
  rcases takeSuccess_cases finished hs h.known with ⟨-, hfailed⟩ |
    ⟨failed, r, f, stop, rest, rfl, hfailed, hmatched, htake⟩
  · cases h.eq_nil hfailed
  · obtain ⟨y, ys, hcons, hx, hxs⟩ := h.of_matched hfailed hmatched
    cases hcons
    exact ⟨failed, r, f, stop, rest, htake, hfailed, hmatched, hx, hxs⟩

end

theorem failed_insertAll {s : Store} {finished : ResultSet} {failed : List ResultId}
    (h : ∀ r ∈ finished.toList, s.Failed r) (h' : ∀ r ∈ failed, s.Failed r) :
    ∀ r ∈ (finished.insertAll failed).toList, s.Failed r :=
  fun r hr => (ResultSet.toList_insertAll_subset _ _ hr).elim (h r) (h' r)

/-- A sequence extends a prefix by what its next child lists. -/
theorem extendSequence_lists {s : Store} (hs : s.Sound) {before : List PatternId}
    {child : PatternId} {x : List (Tree ν) × Nat} {r : ResultId} {f : FragmentId} {stop : Nat}
    (hmatched : s.Matched r f stop) (hx : s.ReadsPrefix g tokens before r x)
    {following : ResultSet} (hfaithful : following.Faithful) {zs : List (List (Tree ν) × Nat)}
    (hfollowing : s.Lists (s.ReadsPrefix g tokens (before ++ [child])) following.toList zs)
    {results : List ResultId}
    (hresults : s.Lists (s.Reads g tokens child) results (read child x.2))
    (hnodup : ((zs ++ read.extendPrefix child x).map Prod.fst).Nodup) :
    ∃ following' t, extendSequence ⟨.success f, stop, emptyMap⟩ results following s =
        (following', t) ∧ s.Extends t ∧ following'.Faithful ∧
      t.Lists (t.ReadsPrefix g tokens (before ++ [child])) following'.toList
        (zs ++ read.extendPrefix child x) := by
  obtain ⟨f', hr, hparts⟩ := hx
  obtain ⟨rfl, rfl⟩ := hmatched.unique hr
  obtain ⟨made, t, hmade, hextends, hremade⟩ := extendSequence_remade x.2 following hs
    (hs.exists_fragment hmatched) hresults.known
  refine ⟨_, t, hmade, hextends, hfaithful.insertAll _, ?_⟩
  have hparts := hparts.mono hs hextends.grows
  have hlists := (hresults.reads_mono hs hextends.grows).remade
    (Q := t.ReadsPrefix g tokens (before ++ [child])) (F := fun y => (x.1 ++ [y.1], y.2)) hremade
    fun f f' r r' stop y hr hr' hf' hread =>
      Store.readsPrefix_step hextends.sound hr hr' hf' hparts hread
  have hfollowing := hfollowing.mono hextends.grows
    (Q := t.ReadsPrefix g tokens (before ++ [child])) fun r x hx => hx.mono hs hextends.grows
  exact hfollowing.insertAll hfaithful (fun _ _ _ => Store.ReadsPrefix.unique) hlists hnodup

/-- A sequence extends its prefixes by one child after the other.  In a round, the prefixes of `ws`
have been extended, and those of `xs` have not. -/
theorem nextSequence_ensures (hp : g.pattern? id = some p) {children : List PatternId}
    (hkind : p.kind = .sequence children) (hdistinct : read.Distinct)
    {before later : List PatternId} (hchildren : children = before ++ later)
    {ws xs : List (List (Tree ν) × Nat)} (hprefixes : read.prefixes before i = ws ++ xs)
    (hcalls : AnswersAll g tokens fault context read (read.callsAfter later ws xs) Pre Inv)
    {pending : List ResultId} {following finished : ResultSet} {t u : Tables}
    (hgrows : t.store.Grows u.store) (hu : Pre u) (hlast : later = [] → ws = [])
    (hfaithful : following.Faithful)
    (hpending : u.store.Lists (u.store.ReadsPrefix g tokens before) pending xs)
    (hfollowing : ∀ child ∈ later.head?, u.store.Lists
      (u.store.ReadsPrefix g tokens (before ++ [child])) following.toList
        (ws.flatMap (read.extendPrefix child)))
    (hfinished : ∀ r ∈ finished.toList, u.store.Failed r) :
    ∃ task : Task,
      (∀ frames, nextSequence context frames later pending following finished u.store =
        task.turn frames) ∧
        task.Ensures g (.ofTokens tokens) fault u (t.Answered g tokens Inv id
          ((read.prefixes children i).map fun x => (.sequence p x.1, x.2))) := by
  have hs := hcalls.stable.1.sound hu
  induction later generalizing before ws xs Pre pending following finished u with
  | nil =>
    obtain rfl := hlast rfl
    cases hcalls
    rw [List.append_nil] at hchildren
    subst hchildren
    refine ⟨.give _, fun _ => rfl, ensures_give ⟨hu, hgrows, ?_⟩⟩
    have hunique : ∀ r (x x' : List (Tree ν) × Nat), u.store.ReadsPrefix g tokens children r x →
        u.store.ReadsPrefix g tokens children r x' → x.1 = x'.1 :=
      fun _ _ _ => Store.ReadsPrefix.unique
    have hnodup := prefixes_nodup hdistinct children i
    rw [hprefixes, List.nil_append] at hnodup ⊢
    have hlists := (hpending.ofList hunique hnodup).insertAll (ResultSet.faithful_ofList pending)
      hunique (Store.lists_failed _ hfinished) (by rwa [List.append_nil])
    rw [List.append_nil] at hlists
    exact hlists.map fun r x hx => Store.reads_sequence hs hp hkind hx
  | cons child later ih =>
    have hround : read.prefixes (before ++ [child]) i =
        (ws ++ xs).flatMap (read.extendPrefix child) := by
      rw [prefixes_append_singleton, hprefixes]
    induction xs generalizing ws Pre pending following finished u with
    | nil =>
      -- the round is over, and what it has made is extended next
      obtain ⟨htake, hfailed⟩ := takeSuccess_of_lists_nil hs hpending finished
      have hchildren' : children = (before ++ [child]) ++ later := by simpa using hchildren
      rw [Readings.callsAfter, List.map_nil, List.nil_append] at hcalls
      rw [List.append_nil] at hround hcalls
      obtain ⟨task, hnext, h⟩ := ih hchildren' hround hcalls hgrows hu (fun _ => rfl)
        ResultSet.faithful_empty (hfollowing child rfl) (fun _ _ => Store.lists_nil _)
        (failed_insertAll hfinished hfailed) hs
      refine ⟨task, fun frames => ?_, h⟩
      rw [nextSequence, htake]
      exact hnext frames
    | cons x xs ihround =>
      obtain ⟨failed, r, f, stop, rest, htake, hfailed, hmatched, hx, hxs⟩ :=
        takeSuccess_of_lists_cons hs hpending finished
      obtain rfl : x.2 = stop := by
        obtain ⟨f', hr, -⟩ := hx
        exact (hr.unique hmatched).2
      rw [Readings.callsAfter, List.map_cons, List.cons_append] at hcalls
      obtain - | @⟨_, Mid, _, _, _, -, hcall, hcalls⟩ := hcalls
      have hMid := hcalls.stable.1
      let frame : SequenceFrame :=
        { context, child, later
          current := ⟨.success f, x.2, emptyMap⟩
          pending := rest
          following
          finished := finished.insertAll failed }
      refine ⟨.wait child x.2 context (.sequence frame), fun frames => ?_,
        ensures_wait (hcall u hu) fun results v hv => ?_⟩
      · rw [nextSequence, htake]
        rfl
      -- the prefix is extended by what the call lists, and the round goes on
      obtain ⟨store, memo, counts, cutoffs⟩ := v
      have hs' : store.Sound := hMid.sound hv.inv
      have hgrows' : u.store.Grows store := hv.grows
      have hnodup := prefixes_nodup hdistinct (before ++ [child]) i
      rw [hround, List.flatMap_append, List.flatMap_cons] at hnodup
      obtain ⟨following', s, hextend, hextends, hfaithful', hfollowing'⟩ :=
        extendSequence_lists hs' (hgrows'.matched hmatched) (hx.mono hs hgrows') hfaithful
          ((hfollowing child rfl).mono hgrows' fun r x hx => hx.mono hs hgrows') hv.lists
          (hnodup.sublist (((List.sublist_append_left _ _).append_left _).map _))
      have hgrows'' := hgrows'.trans hextends.grows
      have hmid := hMid.withStore hv.inv hextends
      have hprefixes' : read.prefixes before i = (ws ++ [x]) ++ xs := by simpa using hprefixes
      have hcalls' : AnswersAll g tokens fault context read
          (read.callsAfter (child :: later) (ws ++ [x]) xs) Mid Inv := by
        rw [Readings.callsAfter, List.append_assoc]
        exact hcalls
      have hfollowing'' : ∀ c ∈ (child :: later).head?, s.Lists
          (s.ReadsPrefix g tokens (before ++ [c])) following'.toList
            ((ws ++ [x]).flatMap (read.extendPrefix c)) := by
        intro c hc
        cases hc
        simpa using hfollowing'
      obtain ⟨task, hnext, h⟩ := ihround hprefixes' hcalls' (hgrows.trans hgrows'') hmid nofun
        hfaithful' (hxs.mono hgrows'' fun r x hx => hx.mono hs hgrows'') hfollowing''
        (failed_insertAll (fun r hr => hgrows''.failed (hfinished r hr))
          fun r hr => hgrows''.failed (hfailed r hr)) hextends.sound
        (by rw [hround]; simp)
      refine ⟨task, ⟨s, memo, counts, cutoffs⟩, fun frames => ?_, h⟩
      simp only [resume, frame, hextend, hnext]
      rfl

/-- A sequence calls its children one after the other, from the end of each of its prefixes. -/
theorem sequence_ensures (hp : g.pattern? id = some p) {children : List PatternId}
    (hkind : p.kind = .sequence children) (hdistinct : read.Distinct)
    (hcalls : AnswersAll g tokens fault context read (read.callsAfter children [] [([], i)])
      Pre Inv) {t : Tables} (ht : Pre t) :
    p.Ensures g (.ofTokens tokens) fault i context t (t.Answered g tokens Inv id
      ((read.prefixes children i).map fun x => (.sequence p x.1, x.2))) := by
  have hPre := hcalls.stable.1
  obtain ⟨initial, s, hinitial, hextends, f, hmatched, hf⟩ :=
    (hPre.sound ht).made .sequenceStart (by simp [Fragment.parts]) i
  have hpre : Pre { t with store := s } := hPre.withStore ht hextends
  have hpending : s.Lists (s.ReadsPrefix g tokens []) [initial] [([], i)] :=
    (Store.lists_nil _).cons_matched hmatched ⟨f, hmatched, Store.readsParts_nil hf⟩
  have hprefixes : read.prefixes [] i = [] ++ [([], i)] := rfl
  have hnone : ∀ r ∈ ResultSet.empty.toList, s.Failed r := List.forall_mem_nil _
  obtain ⟨task, hnext, h⟩ := nextSequence_ensures hp hkind hdistinct
    (List.nil_append children).symm hprefixes hcalls hextends.grows hpre (fun _ => rfl)
    ResultSet.faithful_empty hpending (fun _ _ => Store.lists_nil _) hnone
  refine ⟨task, s, fun frames => ?_, h⟩
  simp only [evaluate, hkind, hinitial, hnext]

/-! ### Without a child -/

/-- A token pattern looks at one token, and has one result. -/
theorem consume_ensures (hInv : Tables.Stable Inv) (hp : g.pattern? id = some p)
    {terminal : String} (hkind : p.kind = .consume terminal) (read : Readings ν) {t : Tables}
    (ht : Inv t) :
    p.Ensures g (.ofTokens tokens) fault i context t fun results u =>
      t.Answered g tokens Inv id (p.readings g tokens read i) results u ∧ results.length = 1 := by
  obtain ⟨r, s, hmatch, hextends, hr⟩ :=
    matchToken_cases (hInv.sound ht) (.ofTokens tokens) terminal i
  refine ⟨.give [r], s, fun frames => ?_,
    ensures_give ⟨⟨hInv.withStore ht hextends, hextends.grows, ?_⟩, rfl⟩⟩
  · simp only [evaluate, hkind, hmatch]
    rfl
  simp only [Pattern.readings, hkind]
  cases htoken : tokens[i]? with
  | none =>
    have hnot : ¬ (i < tokens.size ∧ (Input.ofTokens tokens).is i terminal = true) := fun h => by
      rw [Array.getElem?_eq_getElem h.1] at htoken
      cases htoken
    obtain ⟨k, kind, hr, -⟩ := (if_neg hnot).mp hr
    exact (Store.lists_nil _).cons_failed ⟨k, _, _, hr⟩
  | some token =>
    have hlt : i < tokens.size := (Array.getElem?_eq_some_iff.1 htoken).1
    have his : (Input.ofTokens tokens).is i terminal = Token.is token terminal := by
      simp only [Input.ofTokens, htoken]
    dsimp only
    split
    · rename_i htrue
      obtain ⟨f, hmatched, hf⟩ := (if_pos ⟨hlt, his.trans htrue⟩).mp hr
      exact (Store.lists_nil _).cons_matched hmatched
        ⟨f, hmatched, rebuild_leaf hp hkind hf htoken⟩
    · rename_i hfalse
      obtain ⟨k, kind, hr, -⟩ := (if_neg fun h => hfalse (his.symm.trans h.2)).mp hr
      exact (Store.lists_nil _).cons_failed ⟨k, _, _, hr⟩

/-- Layout without a child matches without looking at a token. -/
theorem mark_ensures (hInv : Tables.Stable Inv) (hp : g.pattern? id = some p)
    {marker : Marker} (hkind : p.kind.mark? = some marker) {t : Tables} (ht : Inv t) :
    p.Ensures g (.ofTokens tokens) fault i context t
      (t.Answered g tokens Inv id [(.mark p, i)]) := by
  obtain ⟨r, s, hmark, hextends, f, hmatched, hf⟩ :=
    (hInv.sound ht).made (.mark marker) (by simp [Fragment.parts]) i
  refine ⟨.give [r], s, fun frames => ?_,
    ensures_give ⟨hInv.withStore ht hextends, hextends.grows, ?_⟩⟩
  · cases hk : p.kind with
    | literal | line =>
      rw [hk] at hkind
      cases hkind
      simp only [evaluate, hk, hmark]
      rfl
    | _ => simp [hk, PatternKind.mark?] at hkind
  · exact (Store.lists_nil _).cons_matched hmatched
      ⟨f, hmatched, rebuild_mark hp hkind hf⟩

end

end ReversibleGrammar
