/-
The entry points of a parser agree.

Candidates are the trees of all results, while parses compare results by number and build only
the trees that are asked for.  Both lead to the same, since matches that differ are read as trees
that differ.

* `Candidate.stopped`, `reportsOf` — why a candidate is no parse; the reports of such candidates,
  one for each reason and place;
* `failuresOf_eq` — they are the failures among the results;
* `entry_points_agree` — all parses are the candidates that take the whole input, and one parse is
  the first of them; without any, both report why.
-/
import ReversibleGrammar.Proofs.Recognizer.Answer
import ReversibleGrammar.Proofs.Recognizer.Distinct

namespace ReversibleGrammar

/-- A list without what was there before, element by element. -/
theorem foldl_contains_eq_eraseDups {α : Type} [BEq α] (xs : List α) :
    xs.foldl (fun found x => if found.contains x then found else found ++ [x]) [] =
      xs.eraseDups := by
  suffices h : ∀ found : List α,
      xs.foldl (fun found x => if found.contains x then found else found ++ [x]) found.reverse =
        List.eraseDupsBy.loop (· == ·) xs found from h []
  induction xs with
  | nil => exact fun _ => rfl
  | cons x xs ih =>
    intro found
    rw [List.foldl_cons, List.contains_reverse]
    cases hx : found.contains x with
    | true => rw [if_pos rfl, ih found, List.eraseDupsBy.loop, ← List.contains_eq_any_beq, hx]
    | false =>
      rw [if_neg Bool.false_ne_true, ← List.reverse_cons, ih (x :: found), List.eraseDupsBy.loop,
        ← List.contains_eq_any_beq, hx]

section

variable {τ ν : Type}

/-- Why a candidate takes no more of `size` tokens, and where it stops. -/
def Candidate.stopped (size : Nat) : Candidate τ ν → FailureKind × Nat
  | success stop _ => (.tokensRemaining (size - stop), stop)
  | failure report => (report.kind, report.position)

variable [Token τ ν]

/-- A report for each reason and place at which candidates stop, in their order. -/
def reportsOf (tokens : Array τ) (lookahead : Nat) (cs : List (Candidate τ ν)) :
    List (FailureReport τ) :=
  (cs.map (Candidate.stopped tokens.size)).eraseDups.map fun failure =>
    .make failure.1 failure.2 tokens lookahead

variable {g : Grammar} {config : ParserConfig} {id : PatternId} {tokens : Array τ}

/-- The failures among results are the reasons why their candidates stop, if none of them takes
the whole input. -/
theorem failuresOf_eq {store : Store} {results : List ResultId} {cs : List (Candidate τ ν)}
    (hcs : results.mapM (fun r => candidateOf g config id tokens store (store.result r)) = .ok cs)
    (hnone : wholeTrees tokens.size (matchesOf cs) = []) :
    failuresOf store tokens.size results = (cs.map (Candidate.stopped tokens.size)).eraseDups := by
  rw [← foldl_contains_eq_eraseDups]
  refine congrArg (List.foldl _ []) ?_
  have hall := mapM_eq_ok_iff.1 hcs
  clear hcs
  induction hall with
  | nil => rfl
  | @cons r c results cs hr _ ih =>
    rw [List.filterMap_cons, List.map_cons]
    unfold candidateOf at hr
    cases houtcome : (store.result r).outcome with
    | success f =>
      rw [houtcome] at hr
      obtain ⟨tree, -, rfl⟩ := map_eq_ok_iff.1 hr
      have hcons : matchesOf (.success (store.result r).stop tree :: cs) =
          (tree, (store.result r).stop) :: matchesOf cs := rfl
      rw [hcons, wholeTrees_cons] at hnone
      split at hnone
      · cases hnone
      · rename_i hstop
        have hstop : (store.result r).stop ≠ tokens.size := hstop
        simp only [houtcome, if_neg hstop, ih hnone, Candidate.stopped]
    | failure k =>
      rw [houtcome] at hr
      cases hr
      simp only [houtcome, ih hnone, Candidate.stopped, FailureReport.make]

/-- All parses are the candidates that take the whole input, which all differ, and one parse is the
first of them.  If there are none, both report where each candidate stops and why, each pair
once. -/
theorem entry_points_agree (hg : g.Built) (hl : g.DistinctLabels) (config : ParserConfig)
    (id : PatternId) (tokens : Array τ) {cs : List (Candidate τ ν)}
    (h : candidates g config id tokens = .ok cs) :
    (wholeTrees tokens.size (matchesOf cs)).Nodup ∧
    (∀ tree trees, wholeTrees tokens.size (matchesOf cs) = tree :: trees →
      parseAll g config id tokens = .ok (wholeTrees tokens.size (matchesOf cs)) ∧
        parseOne g config id tokens = .ok tree) ∧
    (wholeTrees tokens.size (matchesOf cs) = [] →
      parseAll g config id tokens = .error (.noMatch (reportsOf tokens config.lookahead cs)) ∧
        parseOne g config id tokens =
          .error (.noMatch (reportsOf tokens config.lookahead cs))) := by
  obtain ⟨⟨results, store⟩, hrecognize, hcs⟩ := bind_eq_ok_iff.1 h
  obtain ⟨-, hs, -⟩ := given_of_recognize hrecognize
  obtain ⟨ys, hlists, hnodup⟩ := lists_of_recognize hg.closed hl hrecognize
  have hparses := parsesTo_of_lists config hs hrecognize hlists hnodup
  obtain ⟨cs', hcs', rfl⟩ := hparses.candidates
  obtain rfl := Except.ok.inj (h.symm.trans hcs')
  refine ⟨wholeTrees_nodup hnodup tokens.size, fun tree trees hcons => ?_, fun hnil => ?_⟩
  · rw [hcons]
    exact hparses.trees tree trees hcons
  · have hreads := completeFragments_reads hs hlists hnodup tokens.size
    rw [hnil, List.forall₂_nil_right_iff] at hreads
    have hnone (limit : Option Nat) : parseUpTo g config limit id tokens =
        .error (.noMatch (reportsOf tokens config.lookahead cs)) := by
      simp only [parseUpTo, hrecognize, bind, Except.bind, hreads, failuresOf_eq hcs hnil]
      rfl
    exact ⟨hnone none, by simp only [parseOne, hnone, bind, Except.bind]⟩

end

/-- An `a`, or any number of them, under labels that differ. -/
def Grammar.letters : Grammar where
  patterns := #[{ id := 0, kind := .consume "a" },
    { id := 1, label := some 0, kind := .sequence [0] },
    { id := 2, label := some 1, kind := .many 0 none },
    { id := 3, label := some 2, kind := .choice [1, 2] .parallel none }]
  rules := #[]
  labels := #["one", "many", "letters"]

theorem Grammar.built_letters : letters.Built :=
  ⟨[.consume "a", .sequence [0], .labeled 1 "one", .many 0, .labeled 2 "many",
    .parallelChoice [1, 2], .labeled 3 "letters"], by cbv⟩

theorem Grammar.distinctLabels_letters : letters.DistinctLabels :=
  distinctLabels_of_nodup (by decide)

/-- An `a` is parsed in two ways, and a `b` in none. -/
theorem entry_points_agree_letters :
    (∃ cs, candidates Grammar.letters ⟨3, 100⟩ 3 #["a"] = .ok cs ∧
      (wholeTrees 1 (matchesOf cs)).length = 2 ∧ (wholeTrees 1 (matchesOf cs)).Nodup ∧
      parseAll Grammar.letters ⟨3, 100⟩ 3 #["a"] = .ok (wholeTrees 1 (matchesOf cs))) ∧
    ∃ cs, candidates Grammar.letters ⟨3, 100⟩ 3 #["b"] = .ok cs ∧ cs.length = 2 ∧
      parseAll Grammar.letters ⟨3, 100⟩ 3 #["b"] = .error (.noMatch (reportsOf #["b"] 3 cs)) ∧
      parseOne Grammar.letters ⟨3, 100⟩ 3 #["b"] = .error (.noMatch (reportsOf #["b"] 3 cs)) := by
  have hagree (tokens : Array String) {cs : List (Candidate String String)} :=
    @entry_points_agree String String _ _ Grammar.built_letters Grammar.distinctLabels_letters
      ⟨3, 100⟩ 3 tokens cs
  constructor
  · obtain ⟨cs, hcs, hlength⟩ := exists_ok_of_toOption_map
      (by decide +kernel : ((candidates Grammar.letters ⟨3, 100⟩ 3 #["a"]).map
        fun cs : List (Candidate String String) => (wholeTrees 1 (matchesOf cs)).length).toOption =
          some 2)
    obtain ⟨hnodup, hsome, -⟩ := hagree #["a"] hcs
    obtain ⟨tree, trees, hcons⟩ := List.exists_cons_of_length_pos (hlength ▸ Nat.two_pos)
    exact ⟨cs, hcs, hlength, hnodup, (hsome tree trees hcons).1⟩
  · obtain ⟨cs, hcs, hlength⟩ := exists_ok_of_toOption_map
      (by decide +kernel : ((candidates Grammar.letters ⟨3, 100⟩ 3 #["b"]).map
        fun cs : List (Candidate String String) =>
          (cs.length, (wholeTrees 1 (matchesOf cs)).length)).toOption = some (2, 0))
    obtain ⟨hcount, hnone⟩ := Prod.mk.inj hlength
    obtain ⟨-, -, hreports⟩ := hagree #["b"] hcs
    exact ⟨cs, hcs, hcount, hreports (List.length_eq_zero_iff.1 hnone)⟩

end ReversibleGrammar
