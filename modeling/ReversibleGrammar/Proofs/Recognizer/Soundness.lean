/-
Trees that a parser gives are derivations.

* `Tree.Covers` — a tree derives a pattern over the first tokens;
* `means_of_recognize` — every match of a recognition means what its pattern asks for;
* `recognize_sound` — every match of a recognition is read as a tree that does;
* `parse_sound` — so are all candidates, and the trees of parses take the whole input.
-/
import ReversibleGrammar.Proofs.Grammar.Built
import ReversibleGrammar.Proofs.Recognizer.Typing

namespace ReversibleGrammar

variable {τ ν : Type} [Token τ ν] {g : Grammar} {id : PatternId}

/-- The tree is a derivation of the pattern over the first `stop` tokens, with their values as its
leaves. -/
structure Tree.Covers (g : Grammar) (tokens : Array τ) (id : PatternId) (stop : Nat)
    (tree : Tree ν) : Prop where
  stop_le : stop ≤ tokens.size
  derives : tree.Derives g tokens id 0 stop
  values : tree.values = (tokens.toList.take stop).map Token.value

/-- Every match of a recognition means what its pattern asks for. -/
theorem means_of_recognize (hg : g.Closed) {config : ParserConfig} (hid : id < g.patterns.size)
    {tokens : Array τ} {results : List ResultId} {store : Store}
    (h : recognize g config id tokens = .ok (results, store)) {r : ResultId} (hr : r ∈ results)
    {f : FragmentId} (hf : (store.result r).outcome = .success f) :
    (store.result r).stop ≤ tokens.size ∧
      store.Means g tokens (.whole id) f 0 (store.result r).stop := by
  rcases recognize_cases hg config hid tokens with ⟨results', u, hyields, h'⟩ | ⟨site, -, h'⟩ | h'
  · rw [h] at h'
    cases h'
    obtain ⟨-, -, hsupports⟩ := hyields.supports hg Tables.sound_empty ⟨rfl, rfl, Nat.zero_le _⟩
    obtain ⟨-, -, hstop, hmeans⟩ := (hsupports r hr).result
    exact ⟨hstop, hmeans f hf⟩
  · rw [h] at h'
    cases h'
  · rw [h] at h'
    cases h'

/-- Every match of a recognition is read as a derivation. -/
theorem recognize_sound (hg : g.Closed) (hl : g.DistinctLabels) {config : ParserConfig}
    (hid : id < g.patterns.size) {tokens : Array τ} {results : List ResultId} {store : Store}
    (h : recognize g config id tokens = .ok (results, store)) {r : ResultId} (hr : r ∈ results)
    {f : FragmentId} (hf : (store.result r).outcome = .success f) :
    ∃ tree : Tree ν, treeOf g store tokens id f = .ok tree ∧
      tree.Covers g tokens id (store.result r).stop := by
  obtain ⟨hstop, hmeans⟩ := means_of_recognize hg hid h hr hf
  obtain ⟨tree, hread, hderives⟩ := hmeans.holds hl
  refine ⟨tree, by simp [treeOf, hread, Except.mapError], hstop, hderives, ?_⟩
  rw [Tree.values_of_derives hderives, Tree.span, List.drop_zero, Nat.sub_zero]

/-- The fragments that take the whole input are those of matches that do. -/
theorem mem_completeFragments {store : Store} {size : Nat} {results : List ResultId}
    {f : FragmentId} : f ∈ completeFragments store size results ↔
      ∃ r ∈ results, (store.result r).outcome = .success f ∧ (store.result r).stop = size := by
  rw [completeFragments, ResultSet.mem_ofList, List.mem_filterMap]
  refine exists_congr fun r => and_congr_right fun _ => ?_
  dsimp only
  cases (store.result r).outcome with
  | success f' =>
    by_cases hstop : (store.result r).stop = size
    · simp [hstop]
    · simp [hstop]
  | failure k => simp

/-- The trees of parses that take the whole input. -/
theorem parseUpTo_sound (hg : g.Closed) (hl : g.DistinctLabels) {config : ParserConfig}
    (hid : id < g.patterns.size) {tokens : Array τ} {results : List ResultId} {store : Store}
    (h : recognize g config id tokens = .ok (results, store)) (limit : Option Nat) :
    (∃ trees : List (Tree ν), parseUpTo g config limit id tokens = .ok trees ∧
      ∀ tree ∈ trees, tree.Covers g tokens id tokens.size) ∨
    ∃ failures, parseUpTo g config limit id tokens = .error (.noMatch failures) := by
  have hall : ∀ f ∈ completeFragments store tokens.size results, ∃ tree : Tree ν,
      treeOf g store tokens id f = .ok tree ∧ tree.Covers g tokens id tokens.size := by
    intro f hf
    obtain ⟨r, hr, hsuccess, hstop⟩ := mem_completeFragments.1 hf
    rw [← hstop]
    exact recognize_sound hg hl hid h hr hsuccess
  unfold parseUpTo
  simp only [h, bind, Except.bind]
  split
  · exact .inr ⟨_, rfl⟩
  · refine .inl (exists_mapM_eq_ok fun f hf => hall f ?_)
    cases limit with
    | some limit => exact List.mem_of_mem_take hf
    | none => exact hf

/-- The tree of a parse is a derivation of the whole input. -/
theorem covers_of_parseOne (hg : g.Closed) (hl : g.DistinctLabels) {config : ParserConfig}
    (hid : id < g.patterns.size) {tokens : Array τ} {tree : Tree ν}
    (h : parseOne g config id tokens = .ok tree) : tree.Covers g tokens id tokens.size := by
  obtain ⟨trees, htrees, htree⟩ := bind_eq_ok_iff.1 h
  obtain ⟨⟨results, store⟩, hrecognize, -⟩ := bind_eq_ok_iff.1 htrees
  rcases parseUpTo_sound hg hl hid hrecognize (some 1) with ⟨trees', htrees', hcovers⟩ |
    ⟨failures, hfailures⟩
  · obtain rfl := Except.ok.inj (htrees.symm.trans htrees')
    cases trees with
    | nil => cases htree
    | cons first rest =>
      cases htree
      exact hcovers _ List.mem_cons_self
  · cases htrees.symm.trans hfailures

/-- If a recognition ends and no context is missing, every candidate that is a match is a
derivation, and so are the trees of parses, which take the whole input. -/
theorem parse_sound (hg : g.Built) (hl : g.DistinctLabels) (config : ParserConfig)
    (hid : id < g.size) (tokens : Array τ)
    (hends : recognize g config id tokens ≠ .error .outOfFuel)
    (hcontext : ∀ site, recognize g config id tokens ≠ .error (.fault (.noContext site))) :
    (∃ results, candidates g config id tokens = .ok results ∧
      ∀ stop tree, .success stop tree ∈ results → tree.Covers g tokens id stop) ∧
    ((∃ trees, parseAll g config id tokens = .ok trees ∧
        ∀ tree ∈ trees, tree.Covers g tokens id tokens.size) ∨
      ∃ failures, parseAll g config id tokens = .error (.noMatch failures)) ∧
    ((∃ tree, parseOne g config id tokens = .ok tree ∧ tree.Covers g tokens id tokens.size) ∨
      ∃ failures, parseOne g config id tokens = .error (.noMatch failures)) := by
  have hclosed := hg.closed
  obtain ⟨results, store, h⟩ : ∃ results store,
      recognize g config id tokens = .ok (results, store) := by
    rcases recognize_cases hclosed config hid tokens with ⟨results, u, -, h⟩ | ⟨site, -, h⟩ | h
    · exact ⟨results, u.store, h⟩
    · exact absurd h (hcontext site)
    · exact absurd h hends
  refine ⟨?_, parseUpTo_sound hclosed hl hid h none, ?_⟩
  · have hall : ∀ r ∈ results, ∃ candidate : Candidate τ ν,
        candidateOf g config id tokens store (store.result r) = .ok candidate ∧
          ∀ stop tree, candidate = .success stop tree → tree.Covers g tokens id stop := by
      intro r hr
      unfold candidateOf
      split
      · rename_i f hf
        obtain ⟨tree, htree, hcovers⟩ := recognize_sound hclosed hl hid h hr hf
        refine ⟨.success (store.result r).stop tree, map_eq_ok_iff.2 ⟨tree, htree, rfl⟩, ?_⟩
        intro stop tree' heq
        cases heq
        exact hcovers
      · exact ⟨_, rfl, fun _ _ heq => nomatch heq⟩
    obtain ⟨candidates', hcandidates, hcovers⟩ := exists_mapM_eq_ok hall
    refine ⟨candidates', bind_eq_ok_iff.2 ⟨_, h, hcandidates⟩, ?_⟩
    exact fun stop tree hmem => hcovers _ hmem stop tree rfl
  · rcases parseUpTo_sound hclosed hl hid h (some 1) with ⟨trees, htrees, hcovers⟩ |
      ⟨failures, hfailures⟩
    · unfold parseOne
      simp only [htrees, bind, Except.bind]
      cases trees with
      | nil => exact .inr ⟨[], rfl⟩
      | cons tree trees => exact .inl ⟨tree, rfl, hcovers tree List.mem_cons_self⟩
    · refine .inr ⟨failures, ?_⟩
      simp only [parseOne, hfailures, bind, Except.bind]

theorem Grammar.distinctLabels_suffixes : suffixes.DistinctLabels :=
  distinctLabels_of_unlabelled (by simp [suffixes])

/-- On `a x`, the candidates and the trees are derivations. -/
theorem parse_sound_suffixes :
    (∃ results, candidates Grammar.suffixes ⟨3, 100⟩ 4 #["a", "x"] = .ok results ∧
      ∀ stop tree, .success stop tree ∈ results →
        tree.Covers Grammar.suffixes #["a", "x"] 4 stop) ∧
    ((∃ trees, parseAll Grammar.suffixes ⟨3, 100⟩ 4 #["a", "x"] = .ok trees ∧
        ∀ tree ∈ trees, tree.Covers Grammar.suffixes #["a", "x"] 4 2) ∨
      ∃ failures, parseAll Grammar.suffixes ⟨3, 100⟩ 4 #["a", "x"] = .error (.noMatch failures)) ∧
    ((∃ tree, parseOne Grammar.suffixes ⟨3, 100⟩ 4 #["a", "x"] = .ok tree ∧
        tree.Covers Grammar.suffixes #["a", "x"] 4 2) ∨
      ∃ failures, parseOne Grammar.suffixes ⟨3, 100⟩ 4 #["a", "x"] =
        .error (.noMatch failures)) := by
  have hends : (recognize Grammar.suffixes ⟨3, 100⟩ 4 #["a", "x"]).isOk = true := by
    decide +kernel
  refine parse_sound Grammar.built_suffixes Grammar.distinctLabels_suffixes ⟨3, 100⟩ (by decide)
    #["a", "x"] (fun h => ?_) (fun site h => ?_)
  · rw [h] at hends
    cases hends
  · rw [h] at hends
    cases hends

end ReversibleGrammar
