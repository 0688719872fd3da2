/-
Candidates with labels and without.

Labels without repetition do not change what a recognition finds.  It finds the same trees at the
same places in the same order and fails for the same reasons, and with labels it also says which
labelled choices failed.

* `Tree.unlabelled`, `Candidate.unlabelled` — results without the labels of their patterns;
* `rebuildTo_unlabelled` — fragments are read as the same trees but for labels;
* `labels_change_failures_only` — without labels, there are the candidates with labels but for
  failures of labelled choices.
-/
import ReversibleGrammar.Proofs.Labelling.Steps
import ReversibleGrammar.Proofs.Recognizer.Answer

namespace ReversibleGrammar

variable {τ ν : Type}

/-! ### Trees -/

namespace Tree

mutual

/-- The tree of the same patterns without labels. -/
def unlabelled : Tree ν → Tree ν
  | leaf p v => leaf p.unlabelled v
  | sequence p ts => sequence p.unlabelled (unlabelledAll ts)
  | choice p index t => choice p.unlabelled index t.unlabelled
  | many p items separators => many p.unlabelled (unlabelledAll items) (unlabelledAll separators)
  | absent p => absent p.unlabelled
  | present p t => present p.unlabelled t.unlabelled
  | wrapped p t => wrapped p.unlabelled t.unlabelled
  | mark p => mark p.unlabelled

/-- Several trees of the same patterns without labels. -/
def unlabelledAll : List (Tree ν) → List (Tree ν)
  | [] => []
  | t :: ts => t.unlabelled :: unlabelledAll ts

end

theorem unlabelledAll_eq_map (ts : List (Tree ν)) : unlabelledAll ts = ts.map unlabelled := by
  induction ts with
  | nil => rfl
  | cons t ts ih => rw [unlabelledAll, ih, List.map_cons]

end Tree

namespace Candidate

/-- The match of the same patterns without labels. -/
def unlabelled : Candidate τ ν → Candidate τ ν
  | success stop tree => .success stop tree.unlabelled
  | failure report => .failure report

/-- Is not just that a labelled choice failed. -/
def isKept : Candidate τ ν → Bool
  | success _ _ => true
  | failure report => !report.kind.isLabel

end Candidate

section

variable [Token τ ν] {g g' : Grammar} (hg : g.Labelling g')

include hg

/-- Without labels, a fragment is read as the same tree but for labels, or not for the same
reason. -/
theorem rebuildTo_unlabelled (fragments : Interner Fragment) (tokens : Array τ) (depth : Nat)
    (id : PatternId) (x : FragmentId) :
    rebuildTo g fragments tokens depth id x =
      (rebuildTo g' fragments tokens depth id x).map Tree.unlabelled := by
  induction depth generalizing id x with
  | zero => rfl
  | succ depth ih =>
    have hwrap (make : Pattern → Tree ν → Tree ν)
        (hmake : ∀ p t, make p.unlabelled t.unlabelled = (make p t).unlabelled) (p : Pattern)
        (child : PatternId) (part : FragmentId) :
        (rebuildTo g fragments tokens depth child part).map (make p.unlabelled) =
          ((rebuildTo g' fragments tokens depth child part).map (make p)).map Tree.unlabelled := by
      rw [ih]
      cases rebuildTo g' fragments tokens depth child part with
      | error _ => rfl
      | ok t => exact congrArg Except.ok (hmake p t)
    have hparts (child : PatternId) (parts : List FragmentId) :
        parts.mapM (rebuildTo g fragments tokens depth child) =
          (parts.mapM (rebuildTo g' fragments tokens depth child)).map (List.map Tree.unlabelled) :=
      mapM_eq_map_mapM (List.forall₂_same.2 fun part _ => ih child part)
    unfold rebuildTo
    rw [hg.pattern?_eq]
    cases g'.pattern? id with
    | none => rfl
    | some p =>
      simp only [Option.map_some]
      rw [show p.unlabelled.kind = p.kind from rfl]
      cases p.kind with
      | consume terminal =>
        cases fragments.get x with
        | leaf value =>
          dsimp only
          cases tokens[value]? <;> rfl
        | _ => rfl
      | sequence children =>
        dsimp only
        cases sequenceParts? fragments (x + 1) x with
        | none => rfl
        | some parts =>
          dsimp only
          split
          · have hall : (children.zip parts).mapM (fun c => rebuildTo g fragments tokens depth c.1 c.2) =
                ((children.zip parts).mapM fun c => rebuildTo g' fragments tokens depth c.1 c.2).map
                  (List.map Tree.unlabelled) :=
              mapM_eq_map_mapM (List.forall₂_same.2 fun c _ => ih c.1 c.2)
            rw [hall]
            cases (children.zip parts).mapM fun c => rebuildTo g' fragments tokens depth c.1 c.2 with
            | error _ => rfl
            | ok trees =>
              exact congrArg Except.ok (by simp [Tree.unlabelled, Tree.unlabelledAll_eq_map])
          · rfl
      | choice alternatives mode names =>
        cases fragments.get x with
        | choice index chosen =>
          dsimp only
          cases alternatives[index]? with
          | none => rfl
          | some alternative => exact hwrap (.choice · index) (fun _ _ => rfl) p alternative chosen
        | _ => rfl
      | many item separator =>
        dsimp only
        cases manyParts? fragments (x + 1) x with
        | none => rfl
        | some parts =>
          obtain ⟨items, separators⟩ := parts
          dsimp only
          rw [hparts]
          cases items.mapM (rebuildTo g' fragments tokens depth item) with
          | error _ => rfl
          | ok itemTrees =>
            cases separator with
            | some separator =>
              simp only [hparts]
              cases separators.mapM (rebuildTo g' fragments tokens depth separator) with
              | error _ => rfl
              | ok separatorTrees =>
                exact congrArg Except.ok (by simp [Tree.unlabelled, Tree.unlabelledAll_eq_map])
            | none =>
              cases separators with
              | nil =>
                exact congrArg Except.ok (by simp [Tree.unlabelled, Tree.unlabelledAll_eq_map])
              | cons _ _ => rfl
      | option item =>
        cases fragments.get x with
        | absent => rfl
        | present inner => exact hwrap .present (fun _ _ => rfl) p item inner
        | _ => rfl
      | thunk rule =>
        cases fragments.get x with
        | wrapped wrapper inner =>
          cases wrapper with
          | thunk =>
            dsimp only
            rw [hg.ruleBody?_eq]
            cases g'.ruleBody? rule with
            | none => rfl
            | some body => exact hwrap .wrapped (fun _ _ => rfl) p body inner
          | _ => rfl
        | _ => rfl
      | indent child | group child | conditional child _ _ _ =>
        cases fragments.get x with
        | wrapped wrapper inner =>
          cases wrapper <;> first | rfl | exact hwrap .wrapped (fun _ _ => rfl) p child inner
        | _ => rfl
      | literal _ | line _ =>
        cases fragments.get x with
        | mark marker => cases marker <;> rfl
        | _ => rfl

/-! ### Candidates -/

variable {s s' : Store} (config : ParserConfig) (id : PatternId) (tokens : Array τ)

/-- The same result is the same candidate, which is kept, or cannot be read in both. -/
theorem Store.Same.candidateOf_cases (hs : s.Twinned g' s') {r r' : ResultId}
    (h : s.Same s' r r') :
    (∃ fault, candidateOf g config id tokens s (s.result r) = .error (.fault fault) ∧
      candidateOf g' config id tokens s' (s'.result r') = .error (.fault fault)) ∨
    ∃ c : Candidate τ ν, candidateOf g config id tokens s (s.result r) = .ok c.unlabelled ∧
      candidateOf g' config id tokens s' (s'.result r') = .ok c ∧ c.isKept = true := by
  unfold candidateOf
  rcases h with ⟨f, stop, hr, hr'⟩ | ⟨kind, stop, map, hkind, ⟨k, hr, hk⟩, ⟨k', hr', hk'⟩⟩
  · simp only [hr.result_eq, hr'.result_eq, treeOf, rebuild, hs.fragments,
      rebuildTo_unlabelled hg]
    cases rebuildTo g' s'.fragments tokens (f + 1) id f with
    | error fault => exact .inl ⟨fault, rfl, rfl⟩
    | ok tree => exact .inr ⟨.success stop tree, rfl, rfl, rfl⟩
  · simp only [Store.result_eq hr, Store.result_eq hr', Store.failureKind,
      Interner.get_eq_of_get? hk, Interner.get_eq_of_get? hk']
    refine .inr ⟨_, rfl, rfl, ?_⟩
    simp only [Candidate.isKept, FailureReport.make, hkind, Bool.not_false]

omit hg in
/-- That a labelled choice failed is a candidate, which is not kept. -/
theorem Store.Added.exists_candidateOf {r' : ResultId} (h : s'.Added r') :
    ∃ c : Candidate τ ν, candidateOf g' config id tokens s' (s'.result r') = .ok c ∧
      c.isKept = false := by
  obtain ⟨label, stop, map, k, hr, hk⟩ := h
  unfold candidateOf
  simp only [Store.result_eq hr, Store.failureKind, Interner.get_eq_of_get? hk]
  exact ⟨_, rfl, rfl⟩

/-- Results that are the same but for failures of labelled choices are the same candidates but for
those, or cannot be read in both. -/
theorem mapM_candidateOf_cases (hs : s.Twinned g' s') {rs rs' : List ResultId}
    (h : s.Gives s' rs rs') :
    (∃ fault, rs.mapM (fun r => candidateOf g config id tokens s (s.result r)) =
        .error (.fault fault) ∧
      rs'.mapM (fun r => candidateOf g' config id tokens s' (s'.result r)) =
        .error (.fault fault)) ∨
    ∃ cs : List (Candidate τ ν),
      rs.mapM (fun r => candidateOf g config id tokens s (s.result r)) =
        .ok ((cs.filter Candidate.isKept).map Candidate.unlabelled) ∧
      rs'.mapM (fun r => candidateOf g' config id tokens s' (s'.result r)) = .ok cs := by
  unfold Store.Gives at h
  induction h with
  | nil => exact .inr ⟨[], rfl, rfl⟩
  | both hr _ ih =>
    simp only [List.mapM_cons]
    rcases hr.candidateOf_cases hg config id tokens hs with ⟨fault, hone, hone'⟩ | ⟨c, hone, hone', hkept⟩
    · exact .inl ⟨fault, by rw [hone]; rfl, by rw [hone']; rfl⟩
    · rw [hone, hone']
      rcases ih with ⟨fault, hall, hall'⟩ | ⟨cs, hall, hall'⟩
      · exact .inl ⟨fault, by rw [hall]; rfl, by rw [hall']; rfl⟩
      · refine .inr ⟨c :: cs, ?_, by rw [hall']; rfl⟩
        rw [hall, List.filter_cons_of_pos hkept]
        rfl
  | more hr _ ih =>
    simp only [List.mapM_cons]
    obtain ⟨c, hone, hkept⟩ := hr.exists_candidateOf config id tokens
    rw [hone]
    rcases ih with ⟨fault, hall, hall'⟩ | ⟨cs, hall, hall'⟩
    · exact .inl ⟨fault, hall, by rw [hall']; rfl⟩
    · refine .inr ⟨c :: cs, ?_, by rw [hall']; rfl⟩
      rw [hall, List.filter_cons_of_neg (by rw [hkept]; exact Bool.false_ne_true)]

end

/-- If no two patterns share a label, labels only add failures of labelled choices.  With enough
fuel, recognition is given up with labels and without, or the candidates without labels are those
with labels, in their order, but for such failures; less fuel than that lasts for both or for
neither. -/
theorem labels_change_failures_only [Token τ ν] {g g' : Grammar} (hbuilt : g.Built)
    (hthunk : g.NoThunkCycle) (hg : g.Labelling g') (hl : g'.DistinctLabels) {id : PatternId}
    (hid : id < g.size) (tokens : Array τ) :
    ∃ fuel, ∀ config : ParserConfig,
      (∃ fault fault', candidates g config id tokens = .error (.fault fault) ∧
        candidates g' config id tokens = .error (.fault fault')) ∨
      (∃ cs, candidates g' config id tokens = .ok cs ∧
        candidates g config id tokens =
          .ok ((cs.filter Candidate.isKept).map Candidate.unlabelled)) ∨
      config.fuel < fuel ∧ candidates g config id tokens = .error .outOfFuel ∧
        candidates g' config id tokens = .error .outOfFuel := by
  obtain ⟨fuel, hfuel⟩ := exists_recognize_fuel hbuilt.closed hthunk hid tokens
  refine ⟨fuel, fun config => ?_⟩
  have hout : recognize g config id tokens = .error .outOfFuel → config.fuel < fuel :=
    fun h => Nat.lt_of_not_le fun hle => hfuel config hle h
  have hrun := run_twinned hg hbuilt.closed hl (.ofTokens tokens) config.fuel
    (initial_twinned g' id)
  unfold candidates
  unfold recognize at hout ⊢
  generalize run g (.ofTokens tokens) config.fuel (.initial id) = p at hrun hout ⊢
  generalize run g' (.ofTokens tokens) config.fuel (.initial id) = p' at hrun ⊢
  cases hrun with
  | running => exact .inr (.inr ⟨hout rfl, rfl, rfl⟩)
  | faulted fault fault' => exact .inl ⟨fault, fault', rfl, rfl⟩
  | finished hs hresults =>
    rcases mapM_candidateOf_cases hg config id tokens hs hresults with ⟨fault, hall, hall'⟩ | ⟨cs, hall, hall'⟩
    · exact .inl ⟨fault, fault, hall, hall'⟩
    · exact .inr (.inl ⟨cs, hall', hall⟩)

/-- Left-recursive suffixes under labels that differ. -/
def Grammar.labelledSuffixes : Grammar where
  patterns := #[{ id := 0, label := some 1, kind := .thunk 0 }, { id := 1, kind := .consume "x" },
    { id := 2, label := some 2, kind := .sequence [0, 1] }, { id := 3, kind := .consume "a" },
    { id := 4, label := some 0, kind := .choice [2, 3] .parallel none }]
  rules := #[⟨"suffixes", 4⟩]
  labels := #["suffixes", "again", "longer"]

theorem Grammar.labelling_suffixes : suffixes.Labelling labelledSuffixes :=
  ⟨by simp [suffixes, labelledSuffixes, Pattern.unlabelled], rfl⟩

/-- On `x x`, recognition also says that the labelled choice failed. -/
theorem labels_change_failures_only_suffixes :
    ∃ cs, candidates Grammar.labelledSuffixes ⟨3, 100⟩ 4 #["x", "x"] = .ok cs ∧
      candidates Grammar.suffixes ⟨3, 100⟩ 4 #["x", "x"] =
        .ok ((cs.filter Candidate.isKept).map Candidate.unlabelled) ∧
      cs.map Candidate.isKept = [true, true, false] := by
  obtain ⟨cs, hcs, hkept⟩ := exists_ok_of_toOption_map
    (by decide +kernel : ((candidates Grammar.labelledSuffixes ⟨3, 100⟩ 4 #["x", "x"]).map
      fun cs : List (Candidate String String) => cs.map Candidate.isKept).toOption =
        some [true, true, false])
  obtain ⟨fuel, hfuel⟩ := labels_change_failures_only Grammar.built_suffixes
    Grammar.noThunkCycle_suffixes Grammar.labelling_suffixes
    (Grammar.distinctLabels_of_nodup (by decide)) (show 4 < _ by decide) #["x", "x"]
  rcases hfuel ⟨3, 100⟩ with ⟨_, _, -, herror⟩ | ⟨cs', hcs', hsame⟩ | ⟨-, -, herror⟩
  · rw [hcs] at herror
    cases herror
  · obtain rfl := Except.ok.inj (hcs.symm.trans hcs')
    exact ⟨cs, hcs, hsame, hkept⟩
  · rw [hcs] at herror
    cases herror

end ReversibleGrammar
