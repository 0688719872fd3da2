/-
Reports of failed parses.

A parse without a tree reports every failure at the first token, and every match that stops early.
There is something to report since a recognition ends with some result, and what is reported is
so since failures are true.

* `FailureReport.IsSo` — what a report says of the tokens;
* `Grammar.Reports` — the reports are some, tell different things, and all of them are so;
* `reports_of_noMatch` — parses without a tree give such reports.
-/
import ReversibleGrammar.Proofs.Recognizer.EntryPoints
import ReversibleGrammar.Proofs.Recognizer.Truth

namespace ReversibleGrammar

section

variable {τ ν : Type} [Token τ ν]

/-- What the report says of the tokens is so. -/
def FailureReport.IsSo (g : Grammar) (tokens : Array τ) (report : FailureReport τ) : Prop :=
  match report.kind with
  | .infiniteRecursion => True
  | .tokensRemaining count => 1 ≤ count ∧ report.position + count = tokens.size
  | .tokensExhausted _ => report.position = tokens.size
  | .unexpectedToken expected found =>
    found = report.position ∧ ∃ token, tokens[found]? = some token ∧
      Token.is token expected = false
  | .alternativeFailed label => g.LabelsChoice label

/-- There are reports, no two of the same kind at the same position, and each of them is within the
tokens, shows those at its position and says what is so. -/
structure Grammar.Reports (g : Grammar) (tokens : Array τ) (lookahead : Nat)
    (reports : List (FailureReport τ)) : Prop where
  ne_nil : reports ≠ []
  nodup : (reports.map fun report => (report.kind, report.position)).Nodup
  position_le : ∀ report ∈ reports, report.position ≤ tokens.size
  lookahead_eq : ∀ report ∈ reports, report.lookahead = (tokens.extract report.position
    (min (report.position + lookahead) tokens.size)).toList
  isSo : ∀ report ∈ reports, report.IsSo g tokens

variable {g : Grammar} {config : ParserConfig} {id : PatternId} {tokens : Array τ}
variable {results : List ResultId} {store : Store} {reports : List (FailureReport τ)}

/-! ### Parses without a tree -/

theorem recognize_ne_noMatch : recognize g config id tokens ≠ .error (.noMatch reports) := by
  unfold recognize
  split <;> nofun

theorem treeOf_ne_noMatch {f : FragmentId} :
    (treeOf g store tokens id f : Except (ParseError τ) (Tree ν)) ≠ .error (.noMatch reports) := by
  unfold treeOf
  cases rebuild g store.fragments tokens id f <;> nofun

/-- A parse has no tree only if no result takes the whole input, and reports the failures. -/
theorem parseUpTo_eq_noMatch {limit : Option Nat}
    (h : parseUpTo g config limit id tokens = .error (.noMatch reports)) :
    ∃ results store, recognize g config id tokens = .ok (results, store) ∧
      completeFragments store tokens.size results = [] ∧
      reports = (failuresOf store tokens.size results).map fun failure =>
        .make failure.1 failure.2 tokens config.lookahead := by
  unfold parseUpTo at h
  cases hrecognize : recognize g config id tokens with
  | error e =>
    rw [hrecognize] at h
    cases h
    exact absurd hrecognize recognize_ne_noMatch
  | ok found =>
    obtain ⟨results, store⟩ := found
    simp only [hrecognize, bind, Except.bind] at h
    split at h
    · rename_i hnone
      cases h
      exact ⟨results, store, rfl, List.isEmpty_iff.1 hnone, rfl⟩
    · obtain ⟨f, -, hf⟩ := exists_of_mapM_eq_error h
      exact absurd hf treeOf_ne_noMatch

/-- A parse of one tree reports the same. -/
theorem parseOne_eq_noMatch (h : parseOne g config id tokens = .error (.noMatch reports)) :
    parseUpTo g config (some 1) id tokens = .error (.noMatch reports) := by
  cases hparse : parseUpTo g config (some 1) id tokens with
  | error e =>
    simp only [parseOne, hparse, bind, Except.bind] at h
    cases h
    rfl
  | ok trees =>
    cases trees with
    | cons tree trees =>
      simp only [parseOne, hparse, bind, Except.bind] at h
      cases h
    | nil =>
      -- there is a tree for each of the matches that are picked, and there is one
      obtain ⟨⟨results, store⟩, -, hparse⟩ := bind_eq_ok_iff.1 hparse
      dsimp only at hparse
      split at hparse
      · cases hparse
      · rename_i hsome
        have hlength := (mapM_eq_ok_iff.1 hparse).length_eq
        rw [List.length_take] at hlength
        have hpos := List.length_pos_iff.2 fun hnil => hsome (List.isEmpty_iff.2 hnil)
        simp only [List.length_nil] at hlength
        omega

/-! ### Failures -/

/-- A failure among results is one of them, or a match that stops early. -/
theorem mem_failuresOf {size : Nat} {kind : FailureKind} {position : Nat}
    (h : (kind, position) ∈ failuresOf store size results) :
    ∃ r ∈ results, (store.result r).stop = position ∧
      ((∃ f, (store.result r).outcome = .success f ∧ position ≠ size ∧
          kind = .tokensRemaining (size - position)) ∨
        ∃ k, (store.result r).outcome = .failure k ∧ kind = store.failureKind k) := by
  unfold failuresOf at h
  rw [foldl_contains_eq_eraseDups, List.mem_eraseDups, List.mem_filterMap] at h
  obtain ⟨r, hr, h⟩ := h
  refine ⟨r, hr, ?_⟩
  dsimp only at h
  split at h
  · rename_i f hf
    split at h
    · cases h
    · rename_i hstop
      cases h
      exact ⟨rfl, .inl ⟨f, hf, hstop, rfl⟩⟩
  · rename_i k hk
    cases h
    exact ⟨rfl, .inr ⟨k, hk, rfl⟩⟩

theorem nodup_eraseDups {α : Type} [BEq α] [LawfulBEq α] (xs : List α) : xs.eraseDups.Nodup := by
  induction hlength : xs.length using Nat.strong_induction_on generalizing xs with
  | _ n ih =>
    subst hlength
    cases xs with
    | nil => exact List.nodup_nil
    | cons x xs =>
      have hlt : (xs.filter fun y => !y == x).length < (x :: xs).length :=
        Nat.lt_succ_of_le (List.length_filter_le _ _)
      rw [List.eraseDups_cons, List.nodup_cons, List.mem_eraseDups]
      exact ⟨by simp, ih _ hlt _ rfl⟩

theorem nodup_failuresOf (size : Nat) : (failuresOf store size results).Nodup := by
  unfold failuresOf
  rw [foldl_contains_eq_eraseDups]
  exact nodup_eraseDups _

/-- If no result takes the whole input, every one leads to a failure. -/
theorem failuresOf_ne_nil {size : Nat} (hresults : results ≠ [])
    (h : completeFragments store size results = []) : failuresOf store size results ≠ [] := by
  obtain ⟨r, hr⟩ := List.exists_mem_of_ne_nil _ hresults
  obtain ⟨failure, hfailure⟩ : ∃ failure, failure ∈ failuresOf store size results := by
    unfold failuresOf
    simp only [foldl_contains_eq_eraseDups, List.mem_eraseDups, List.mem_filterMap]
    cases houtcome : (store.result r).outcome with
    | success f =>
      have hstop : (store.result r).stop ≠ size := fun hstop => by
        have hf := mem_completeFragments.2 ⟨r, hr, houtcome, hstop⟩
        rw [h] at hf
        cases hf
      exact ⟨(.tokensRemaining (size - (store.result r).stop), (store.result r).stop), r, hr,
        by simp only [houtcome, if_neg hstop]⟩
    | failure k =>
      exact ⟨(store.failureKind k, (store.result r).stop), r, hr, by simp only [houtcome]⟩
  exact List.ne_nil_of_mem hfailure

/-! ### Reports -/

/-- The results of a recognition stop within the tokens. -/
theorem stop_le_of_recognize (hg : g.Closed)
    (h : recognize g config id tokens = .ok (results, store)) {r : ResultId} (hr : r ∈ results) :
    (store.result r).stop ≤ tokens.size := by
  rcases recognize_cases hg config (lt_size_of_recognize h) tokens with
    ⟨results', u, hyields, h'⟩ | ⟨site, -, h'⟩ | h'
  · rw [h] at h'
    cases h'
    obtain ⟨-, -, hsupports⟩ := hyields.supports hg Tables.sound_empty ⟨rfl, rfl, Nat.zero_le _⟩
    exact (hsupports r hr).result.2.stop_le
  · rw [h] at h'
    cases h'
  · rw [h] at h'
    cases h'

/-- What is true of a failure is so in its report. -/
theorem FailureKind.HoldsAt.isSo {kind : FailureKind} {position : Nat}
    (h : kind.HoldsAt g (.ofTokens tokens) position) (hle : position ≤ tokens.size)
    (lookahead : Nat) : (FailureReport.make kind position tokens lookahead).IsSo g tokens := by
  cases kind with
  | infiniteRecursion => trivial
  | tokensRemaining count => exact h.elim
  | tokensExhausted expected => exact Nat.le_antisymm hle h
  | unexpectedToken expected found =>
    obtain ⟨rfl, hlt, his⟩ := h
    have hlt : found < tokens.size := hlt
    refine ⟨rfl, tokens[found], Array.getElem?_eq_getElem hlt, ?_⟩
    simpa [Input.ofTokens, hlt] using his
  | alternativeFailed label => exact h

/-- A parse without a tree has something to report, and all that it reports is so: of each kind
once at a position within the tokens, with the tokens there. -/
theorem reports_of_noMatch (hg : g.Built) (hoffers : ∀ p ∈ g.patterns, p.Offers)
    (config : ParserConfig) (id : PatternId) (tokens : Array τ)
    (h : parseAll g config id tokens = .error (.noMatch reports) ∨
      parseOne g config id tokens = .error (.noMatch reports)) :
    g.Reports tokens config.lookahead reports := by
  obtain ⟨limit, h⟩ : ∃ limit, parseUpTo g config limit id tokens = .error (.noMatch reports) :=
    h.elim (⟨none, ·⟩) fun h => ⟨some 1, parseOne_eq_noMatch h⟩
  obtain ⟨results, store, hrecognize, hnone, rfl⟩ := parseUpTo_eq_noMatch h
  obtain ⟨hgiven, hs, hknown⟩ := given_of_recognize hrecognize
  have htruthful := truthful_of_recognize hrecognize
  have hall : ∀ failure ∈ failuresOf store tokens.size results, failure.2 ≤ tokens.size ∧
      (FailureReport.make failure.1 failure.2 tokens config.lookahead).IsSo g tokens := by
    rintro ⟨kind, position⟩ hfailure
    obtain ⟨r, hr, rfl, ⟨f, hf, hstop, rfl⟩ | ⟨k, hk, rfl⟩⟩ := mem_failuresOf hfailure
    · have hle := stop_le_of_recognize hg.closed hrecognize hr
      refine ⟨hle, Nat.sub_pos_of_lt (lt_of_le_of_ne hle hstop), Nat.add_sub_cancel' hle⟩
    · have hle := stop_le_of_recognize hg.closed hrecognize hr
      refine ⟨hle, ?_⟩
      rcases hs.known_cases (hknown r hr) with ⟨f, stop, hf⟩ | ⟨k', stop, map, hr'⟩
      · rw [hf.result_eq] at hk
        cases hk
      · obtain ⟨kind, hkind, hholds⟩ := htruthful.holds hr'
        rw [Store.result_eq hr'] at hk hle ⊢
        cases hk
        rw [Store.failureKind, Interner.get_eq_of_get? hkind]
        exact hholds.isSo hle config.lookahead
  refine ⟨?_, ?_, List.forall_mem_map.2 fun failure hfailure => (hall failure hfailure).1,
    List.forall_mem_map.2 fun failure hfailure => ?_,
    List.forall_mem_map.2 fun failure hfailure => (hall failure hfailure).2⟩
  · exact fun hnil => failuresOf_ne_nil (hgiven.ne_nil hoffers) hnone (List.map_eq_nil_iff.1 hnil)
  · rw [List.map_map]
    exact (List.map_id _).symm ▸ nodup_failuresOf tokens.size
  · have hlength : (tokens.toList.drop failure.2).length = tokens.size - failure.2 := by simp
    have hle := (hall failure hfailure).1
    rw [Array.toList_extract, List.extract_eq_take_drop]
    refine List.take_eq_take_iff.2 ?_
    dsimp only [FailureReport.make]
    omega

end

/-- An `a` or a `b`, under a label. -/
def Grammar.letter : Grammar where
  patterns := #[{ id := 0, kind := .consume "a" }, { id := 1, kind := .consume "b" },
    { id := 2, label := some 0, kind := .choice [0, 1] .ordered none }]
  rules := #[]
  labels := #["letter"]

theorem Grammar.built_letter : letter.Built :=
  ⟨[.consume "a", .consume "b", .choice [0, 1], .labeled 2 "letter"], by cbv⟩

theorem Grammar.offers_letter : ∀ p ∈ letter.patterns, p.Offers := by
  simp [letter, Pattern.Offers]

/-- A `c` is neither, and not the letter that is asked for. -/
theorem reports_of_noMatch_letter :
    ∃ reports, parseAll Grammar.letter ⟨3, 100⟩ 2 #["c"] = .error (.noMatch reports) ∧
      reports.map FailureReport.kind = [.unexpectedToken "a" 0, .unexpectedToken "b" 0,
        .alternativeFailed "letter"] ∧ Grammar.letter.Reports #["c"] 3 reports := by
  have hkinds : (match parseAll Grammar.letter ⟨3, 100⟩ 2 #["c"] with
      | .error (.noMatch reports) => reports.map FailureReport.kind
      | _ => []) = [.unexpectedToken "a" 0, .unexpectedToken "b" 0,
        .alternativeFailed "letter"] := by
    decide +kernel
  split at hkinds
  · rename_i reports h
    exact ⟨reports, h, hkinds, reports_of_noMatch Grammar.built_letter Grammar.offers_letter
      ⟨3, 100⟩ 2 #["c"] (.inl h)⟩
  · cases hkinds

end ReversibleGrammar
