/-
What a parser answers, given what its pattern lists at the first token.

* `matchesOf`, `wholeTrees` — the matches among candidates, the trees among matches that take
  the whole input;
* `ParsesTo` — candidates and parses are those of a list of matches, in its order;
* `parsesTo_cases` — they are what the call at the first token lists, given enough fuel;
* `exists_recognize_fuel`, `exists_parsesTo` — there is enough.
-/
import ReversibleGrammar.Proofs.Recognizer.Construct
import ReversibleGrammar.Proofs.Recognizer.Termination

namespace ReversibleGrammar

variable {τ ν : Type}

/-- The match that a candidate is, if it is one. -/
def Candidate.match? : Candidate τ ν → Option (Tree ν × Nat)
  | success stop tree => some (tree, stop)
  | failure _ => none

/-- The matches among candidates: trees, and where they stop. -/
def matchesOf (cs : List (Candidate τ ν)) : List (Tree ν × Nat) := cs.filterMap Candidate.match?

/-- The trees of the matches that stop after `size` tokens. -/
def wholeTrees (size : Nat) (ys : List (Tree ν × Nat)) : List (Tree ν) :=
  (ys.filter fun y => y.2 = size).map Prod.fst

theorem mem_wholeTrees {size : Nat} {ys : List (Tree ν × Nat)} {t : Tree ν} :
    t ∈ wholeTrees size ys ↔ (t, size) ∈ ys := by
  simp [wholeTrees]

theorem wholeTrees_nodup {ys : List (Tree ν × Nat)} (h : (ys.map Prod.fst).Nodup) (size : Nat) :
    (wholeTrees size ys).Nodup :=
  h.sublist (List.filter_sublist.map _)

variable [Token τ ν]

/-- The candidates that match are `ys`, in order, and the parses are the trees among them that take
the whole input. -/
structure ParsesTo (g : Grammar) (config : ParserConfig) (id : PatternId) (tokens : Array τ)
    (ys : List (Tree ν × Nat)) : Prop where
  candidates : ∃ cs, candidates g config id tokens = .ok cs ∧ matchesOf cs = ys
  noMatch : wholeTrees tokens.size ys = [] →
    (∃ failures, parseAll g config id tokens = .error (.noMatch failures)) ∧
      ∃ failures, parseOne g config id tokens = .error (.noMatch failures)
  trees : ∀ tree trees, wholeTrees tokens.size ys = tree :: trees →
    parseAll g config id tokens = .ok (tree :: trees) ∧ parseOne g config id tokens = .ok tree

/-- Candidates and parses are given up, for lack of a context for the site. -/
structure GivesUp (g : Grammar) (config : ParserConfig) (id : PatternId) (tokens : Array τ)
    (site : Site) : Prop where
  candidates : candidates g config id tokens = .error (.fault (.noContext site))
  parseAll : parseAll g config id tokens = .error (.fault (.noContext site))
  parseOne : parseOne g config id tokens = .error (.fault (.noContext site))

section

variable {g : Grammar} {config : ParserConfig} {id : PatternId} {tokens : Array τ}
variable {results : List ResultId} {store : Store} {ys : List (Tree ν × Nat)}

theorem givesUp_of_recognize {site : Site}
    (h : recognize g config id tokens = .error (.fault (.noContext site))) :
    GivesUp g config id tokens site where
  candidates := by simp only [candidates, h, bind, Except.bind]
  parseAll := by simp only [parseAll, parseUpTo, h, bind, Except.bind]
  parseOne := by simp only [parseOne, parseUpTo, h, bind, Except.bind]

/-- Candidates are the results, one by one. -/
theorem mapM_candidateOf (config : ParserConfig) (hs : store.Sound)
    (h : store.Lists (store.Reads g tokens id) results ys) :
    ∃ cs, results.mapM (fun r => candidateOf g config id tokens store (store.result r)) = .ok cs ∧
      matchesOf cs = ys := by
  induction results generalizing ys with
  | nil =>
    obtain rfl : ys = [] := List.forall₂_nil_left_iff.1 h.reads
    exact ⟨[], rfl, rfl⟩
  | cons r results ih =>
    rcases h.cons_cases hs with ⟨f, stop, y, ys', -, rfl, ⟨f', hr, hread⟩, hys⟩ | ⟨hr, hys⟩
    · obtain ⟨cs, hcs, hmatches⟩ := ih hys
      have hcandidate : candidateOf g config id tokens store (store.result r) =
          .ok (.success y.2 y.1) := by
        simp only [candidateOf, hr.result_eq, treeOf, hread, Except.mapError, Except.map]
      refine ⟨.success y.2 y.1 :: cs, ?_, ?_⟩
      · rw [List.mapM_cons, hcandidate, hcs]
        rfl
      · rw [← hmatches]
        rfl
    · obtain ⟨cs, hcs, hmatches⟩ := ih hys
      obtain ⟨k, stop, map, hk⟩ := hr.result_eq
      have hcandidate : ∃ report, candidateOf (ν := ν) g config id tokens store (store.result r) =
          .ok (.failure report) := by
        simp only [candidateOf, hk]
        exact ⟨_, rfl⟩
      obtain ⟨report, hcandidate⟩ := hcandidate
      refine ⟨.failure report :: cs, ?_, ?_⟩
      · rw [List.mapM_cons, hcandidate, hcs]
        rfl
      · rw [← hmatches]
        rfl

theorem wholeTrees_cons (size : Nat) (y : Tree ν × Nat) (ys : List (Tree ν × Nat)) :
    wholeTrees size (y :: ys) =
      if y.2 = size then y.1 :: wholeTrees size ys else wholeTrees size ys := by
  by_cases hstop : y.2 = size <;> simp [wholeTrees, hstop]

/-- The fragments that are picked if they take the whole input are read as the trees that do, in
order. -/
theorem ofList_filterMap_reads {pick : ResultId → Option FragmentId} (hs : store.Sound)
    (h : store.Lists (store.Reads g tokens id) results ys) (hnodup : (ys.map Prod.fst).Nodup)
    {size : Nat} (hmatched : ∀ r f stop, store.Matched r f stop →
      pick r = if stop = size then some f else none)
    (hfailed : ∀ r, store.Failed r → pick r = none) :
    List.Forall₂ (fun f tree => rebuild g store.fragments tokens id f = .ok tree)
      (ResultSet.ofList (results.filterMap pick)).toList (wholeTrees size ys) := by
  have hfragments : List.Forall₂ (fun f tree => rebuild g store.fragments tokens id f = .ok tree)
      (results.filterMap pick) (wholeTrees size ys) := by
    clear hnodup
    induction results generalizing ys with
    | nil =>
      obtain rfl : ys = [] := List.forall₂_nil_left_iff.1 h.reads
      exact .nil
    | cons r results ih =>
      rcases h.cons_cases hs with ⟨f, stop, y, ys', -, rfl, ⟨f', hr, hread⟩, hys⟩ | ⟨hr, hys⟩
      · rw [wholeTrees_cons, List.filterMap_cons, hmatched r f' y.2 hr]
        by_cases hstop : y.2 = size
        · rw [if_pos hstop, if_pos hstop]
          exact .cons hread (ih hys)
        · rw [if_neg hstop, if_neg hstop]
          exact ih hys
      · rw [List.filterMap_cons, hfailed r hr]
        exact ih hys
  -- different trees are read from different fragments, so that none is left out
  have htrees : (wholeTrees size ys).Nodup := wholeTrees_nodup hnodup size
  have hunique : ∀ f (tree tree' : Tree ν), rebuild g store.fragments tokens id f = .ok tree →
      rebuild g store.fragments tokens id f = .ok tree' → tree = tree' := by
    intro f tree tree' hread hread'
    rw [hread] at hread'
    exact Except.ok.inj hread'
  have hids := Store.nodup_of_forall₂ hunique hfragments
    (by rwa [List.map_id'])
  have hsame : (ResultSet.ofList (results.filterMap pick)).toList = _ :=
    ResultSet.faithful_empty.toList_insertAll hids
  rw [hsame]
  exact hfragments

/-- The fragments that take the whole input are read as the trees that do, in order. -/
theorem completeFragments_reads (hs : store.Sound)
    (h : store.Lists (store.Reads g tokens id) results ys) (hnodup : (ys.map Prod.fst).Nodup)
    (size : Nat) :
    List.Forall₂ (fun f tree => rebuild g store.fragments tokens id f = .ok tree)
      (completeFragments store size results) (wholeTrees size ys) := by
  refine ofList_filterMap_reads hs h hnodup (fun r f stop hr => ?_) fun r hr => ?_
  · simp only [hr.result_eq]
  · obtain ⟨k, stop, map, hk⟩ := hr.result_eq
    simp only [hk]

/-- The parses of what is listed at the first token. -/
theorem parseUpTo_of_lists (config : ParserConfig) (hs : store.Sound)
    (hrecognize : recognize g config id tokens = .ok (results, store))
    (h : store.Lists (store.Reads g tokens id) results ys) (hnodup : (ys.map Prod.fst).Nodup)
    (limit : Option Nat) :
    (wholeTrees tokens.size ys = [] →
      ∃ failures, parseUpTo g config limit id tokens = .error (.noMatch failures)) ∧
    (wholeTrees tokens.size ys ≠ [] → parseUpTo g config limit id tokens = .ok
      (match limit with
        | some limit => (wholeTrees tokens.size ys).take limit
        | none => wholeTrees tokens.size ys)) := by
  have hreads := completeFragments_reads hs h hnodup tokens.size
  have hread {fs : List FragmentId} {trees : List (Tree ν)}
      (h : List.Forall₂ (fun f tree => rebuild g store.fragments tokens id f = .ok tree) fs trees) :
      fs.mapM (treeOf g store tokens id) = .ok trees := by
    refine mapM_eq_ok_iff.2 (h.imp fun f tree hread => ?_)
    simp only [treeOf, hread, Except.mapError]
  constructor
  · intro hnil
    rw [hnil, List.forall₂_nil_right_iff] at hreads
    simp only [parseUpTo, hrecognize, bind, Except.bind, hreads]
    exact ⟨_, rfl⟩
  · intro hne
    have hsome : (completeFragments store tokens.size results).isEmpty = false := by
      rw [List.isEmpty_eq_false_iff]
      intro hempty
      rw [hempty, List.forall₂_nil_left_iff] at hreads
      exact hne hreads
    simp only [parseUpTo, hrecognize, bind, Except.bind, hsome]
    cases limit with
    | none => exact hread hreads
    | some limit => exact hread (List.forall₂_take limit hreads)

/-- What a recognition lists is what the parser answers. -/
theorem parsesTo_of_lists (config : ParserConfig) (hs : store.Sound)
    (hrecognize : recognize g config id tokens = .ok (results, store))
    (h : store.Lists (store.Reads g tokens id) results ys) (hnodup : (ys.map Prod.fst).Nodup) :
    ParsesTo g config id tokens ys := by
  obtain ⟨hnone, hsome⟩ := parseUpTo_of_lists config hs hrecognize h hnodup none
  obtain ⟨hnone', hsome'⟩ := parseUpTo_of_lists config hs hrecognize h hnodup (some 1)
  obtain ⟨cs, hcs, hmatches⟩ := mapM_candidateOf config hs h
  refine ⟨⟨cs, bind_eq_ok_iff.2 ⟨_, hrecognize, hcs⟩, hmatches⟩, fun hnil => ⟨hnone hnil, ?_⟩,
    fun tree trees hcons => ⟨?_, ?_⟩⟩
  · obtain ⟨failures, hfailures⟩ := hnone' hnil
    exact ⟨failures, by simp only [parseOne, hfailures, bind, Except.bind]⟩
  · rw [hcons] at hsome
    exact hsome (List.cons_ne_nil tree trees)
  · rw [hcons] at hsome'
    have hone := hsome' (List.cons_ne_nil tree trees)
    simp only [parseOne, hone, bind, Except.bind, List.take_succ_cons, List.take_zero]
    rfl

end

/-! ### Enough fuel -/

/-- Some fuel suffices for a recognition. -/
theorem exists_recognize_fuel {g : Grammar} (hg : g.Closed) (hthunk : g.NoThunkCycle)
    {id : PatternId} (hid : id < g.patterns.size) (tokens : Array τ) :
    ∃ fuel, ∀ config : ParserConfig, fuel ≤ config.fuel →
      recognize g config id tokens ≠ .error .outOfFuel := by
  obtain ⟨fuel, hdone⟩ : Halts g (.ofTokens tokens) (.initial id) :=
    ends_call hg hthunk _ hid 0 [] Tables.sound_empty le_rfl [] id 0 ⟨rfl, rfl, Nat.zero_le _⟩
      fun results u _ _ => halts_give_nil results u
  refine ⟨fuel, fun config hfuel hout => ?_⟩
  obtain ⟨more, hmore⟩ := Nat.exists_eq_add_of_le hfuel
  have hrun : (run g (.ofTokens tokens) config.fuel (.initial id)).isDone = true := by
    rw [hmore, run_add hdone more]
    exact hdone
  unfold recognize at hout
  split at hout
  · rename_i m heq
    rw [heq] at hrun
    cases hrun
  · cases hout
  · cases hout

/-- The parser answers what the call at the first token lists, gives up at a site at which the call
may be given up, or does not have enough fuel. -/
theorem parsesTo_cases {g : Grammar} (hg : g.Closed) (config : ParserConfig) {id : PatternId}
    (hid : id < g.patterns.size) {tokens : Array τ} {fault : Site → Prop} {Inv : Tables → Prop}
    (hInv : Tables.Stable Inv) {ys : List (Tree ν × Nat)} (hnodup : (ys.map Prod.fst).Nodup)
    (h : (Task.call id 0 []).Ensures g (.ofTokens tokens) fault .empty
      (Tables.empty.Answered g tokens Inv id ys)) :
    ParsesTo g config id tokens ys ∨ (∃ site, fault site ∧ GivesUp g config id tokens site) ∨
      recognize g config id tokens = .error .outOfFuel := by
  rcases recognize_ensures hg config hid h with ⟨results, u, hu, hrecognize⟩ |
    ⟨site, hsite, hrecognize⟩ | hout
  · exact .inl (parsesTo_of_lists config (hInv.sound hu.inv) hrecognize hu.lists hnodup)
  · exact .inr (.inl ⟨site, hsite, givesUp_of_recognize hrecognize⟩)
  · exact .inr (.inr hout)

/-- With enough fuel, a call that is never given up lists what the parser answers. -/
theorem exists_parsesTo {g : Grammar} (hg : g.Closed) (hthunk : g.NoThunkCycle) {id : PatternId}
    (hid : id < g.patterns.size) {tokens : Array τ} {Inv : Tables → Prop}
    (hInv : Tables.Stable Inv) {ys : List (Tree ν × Nat)} (hnodup : (ys.map Prod.fst).Nodup)
    (h : (Task.call id 0 []).Ensures g (.ofTokens tokens) (fun _ => False) .empty
      (Tables.empty.Answered g tokens Inv id ys)) :
    ∃ fuel, ∀ config : ParserConfig, fuel ≤ config.fuel → ParsesTo g config id tokens ys := by
  obtain ⟨fuel, hfuel⟩ := exists_recognize_fuel hg hthunk hid tokens
  refine ⟨fuel, fun config hle => ?_⟩
  rcases parsesTo_cases hg config hid hInv hnodup h with h | ⟨_, hfault, _⟩ | hout
  · exact h
  · exact hfault.elim
  · exact absurd hout (hfuel config hle)

/-- Candidates are only answered by what is listed. -/
theorem matchesOf_of_candidates {g : Grammar} {config : ParserConfig} {id : PatternId}
    {tokens : Array τ} {ys : List (Tree ν × Nat)} {fault : Site → Prop}
    (h : ParsesTo g config id tokens ys ∨ (∃ site, fault site ∧ GivesUp g config id tokens site) ∨
      recognize g config id tokens = .error .outOfFuel) {cs : List (Candidate τ ν)}
    (hcs : candidates g config id tokens = .ok cs) : matchesOf cs = ys := by
  rcases h with h | ⟨site, -, h⟩ | h
  · obtain ⟨cs', hcs', hmatches⟩ := h.candidates
    obtain rfl : cs = cs' := Except.ok.inj (hcs.symm.trans hcs')
    exact hmatches
  · rw [h.candidates] at hcs
    cases hcs
  · simp only [candidates, h, bind, Except.bind] at hcs
    cases hcs

end ReversibleGrammar
