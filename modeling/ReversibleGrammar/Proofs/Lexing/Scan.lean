/-
Runs of a lexer.

A run is a succession of matches.  What one match keeps holds of the whole run, and runs
over parts of a source make a run over the source.

* `exists_match_of_step`, `scan_induction` — what a match does, and what all of them keep;
* `tokenizeDetached_eq` — without places, the same tokens are made;
* `Lexer.Lexes` — a part of a source makes some tokens, without their places;
* `lexes_of_firstMatch`, `Lexes.append`, `Lexes.tokenizeDetached_eq` — one match, several, and
  all of a source.
-/
import Mathlib.Logic.Relation
import ReversibleGrammar.Lexer.Basic
import ReversibleGrammar.Proofs.Listwise

namespace ReversibleGrammar

/-- What is recorded of a byte of the source. -/
def TokenizeOptions.place (options : TokenizeOptions) (offset : Nat) : Nat :=
  if options.trackPositions then offset else 0

/-- The run without the places of its tokens. -/
def Scan.detach (s : Scan) : Scan := { s with tokens := s.tokens.map LexToken.detach }

namespace Lexer

variable {l : Lexer} {options : TokenizeOptions} {s s' : Scan}

/-! ### One match and all of them -/

theorem firstMatch?_eq_some {rules : List CompiledRule} {cs : List Char} {r : CompiledRule}
    {m : Match} (h : firstMatch? rules cs = some (r, m)) :
    r ∈ rules ∧ r.regex.search? r.groups cs = some m := by
  obtain ⟨r', hr', hsearch⟩ := List.exists_of_findSome?_eq_some h
  obtain ⟨m', hm', heq⟩ := Option.map_eq_some_iff.1 hsearch
  cases heq
  exact ⟨hr', hm'⟩

theorem mem_rules_of_firstMatch? {q : Nat} {state : CompiledState}
    (hstate : l.states[q]? = some state) {cs : List Char} {r : CompiledRule} {m : Match}
    (h : firstMatch? state.rules cs = some (r, m)) : r ∈ l.rules := by
  refine List.mem_flatMap.2 ⟨state, ?_, (firstMatch?_eq_some h).1⟩
  exact Array.mem_toList_iff.2 (Array.mem_of_getElem? hstate)

/-- A match is of the first rule that matches, and takes something unless the rule has an action; it
takes a part of the rest, and may make a token and change the stack. -/
theorem exists_match_of_step (h : l.step options s = .ok s') :
    ∃ state r m stack, l.states[s.current]? = some state ∧
      firstMatch? state.rules s.rest = some (r, m) ∧
      (m.stop = 0 → r.rule.action ≠ none) ∧
      act r state.name s.current s.below = .ok stack ∧
      s' = ⟨stack.1, stack.2, s.offset + Text.byteLength (s.rest.take m.stop), s.rest.drop m.stop,
        if r.rule.discard then s.tokens
        else ⟨r.rule.name, m.groups, ⟨options.place s.offset,
          options.place (s.offset + Text.byteLength (s.rest.take m.stop))⟩⟩ :: s.tokens⟩ := by
  unfold step at h
  split at h
  · cases h
  rename_i state hstate
  split at h
  · cases h
  rename_i r m hmatch
  split at h
  · cases h
  rename_i hstalled
  obtain ⟨stack, hact, h⟩ := bind_eq_ok_iff.1 h
  refine ⟨state, r, m, stack, hstate, hmatch, fun hstop hnone => ?_, hact, ?_⟩
  · exact hstalled (by rw [hstop, hnone]; rfl)
  cases h
  -- both ends of a span are recorded, or none
  unfold TokenizeOptions.place
  cases options.trackPositions <;> rfl

theorem firstMatch?_of_step (h : l.step options s = .ok s') :
    ∃ state r m, l.states[s.current]? = some state ∧ firstMatch? state.rules s.rest = some (r, m) ∧
      s'.rest = s.rest.drop m.stop ∧ ∃ span, s'.tokens =
        if r.rule.discard then s.tokens else ⟨r.rule.name, m.groups, span⟩ :: s.tokens := by
  obtain ⟨state, r, m, stack, hstate, hmatch, -, -, rfl⟩ := exists_match_of_step h
  exact ⟨state, r, m, hstate, hmatch, rfl, _, rfl⟩

/-- A match takes what the expression of a rule matches, and makes a token unless that is
discarded. -/
theorem step_eq_ok (h : l.step options s = .ok s') :
    ∃ r ∈ l.rules, ∃ m, r.regex.search? r.groups s.rest = some m ∧ s'.rest = s.rest.drop m.stop ∧
      ∃ span, s'.tokens =
        if r.rule.discard then s.tokens else ⟨r.rule.name, m.groups, span⟩ :: s.tokens := by
  obtain ⟨state, r, m, hstate, hmatch, hrest, htokens⟩ := firstMatch?_of_step h
  obtain ⟨-, hsearch⟩ := firstMatch?_eq_some hmatch
  exact ⟨r, mem_rules_of_firstMatch? hstate hmatch, m, hsearch, hrest, htokens⟩

/-- What every match keeps holds at the end of the source. -/
theorem scan_induction {P : Scan → Prop}
    (hstep : ∀ s s', P s → l.step options s = .ok s' → P s') {fuel : Nat} {tokens : List LexToken}
    (hs : P s) (h : l.scan options fuel s = .ok tokens) :
    ∃ s', P s' ∧ s'.rest = [] ∧ tokens = s'.tokens.reverse := by
  induction fuel generalizing s with
  | zero =>
    unfold scan at h
    split at h
    · rename_i hend
      cases h
      exact ⟨s, hs, List.isEmpty_iff.1 hend, rfl⟩
    · cases h
  | succ fuel ih =>
    unfold scan at h
    split at h
    · rename_i hend
      cases h
      exact ⟨s, hs, List.isEmpty_iff.1 hend, rfl⟩
    · dsimp only at h
      split at h
      · cases h
      · rename_i next hnext
        exact ih (hstep s next hs hnext) h

theorem tokenize_induction {P : Scan → Prop}
    (hstep : ∀ s s', P s → l.step options s = .ok s' → P s') {source : String}
    {tokens : List LexToken} (hstart : ∀ q below, P ⟨q, below, 0, source.toList, []⟩)
    (h : l.tokenizeWith options source = .ok tokens) :
    ∃ s', P s' ∧ s'.rest = [] ∧ tokens = s'.tokens.reverse := by
  obtain ⟨⟨current, below⟩, -, h⟩ := bind_eq_ok_iff.1 h
  exact scan_induction hstep (hstart current below) h

/-! ### Places -/

theorem step_detach (l : Lexer) (options : TokenizeOptions) (s : Scan) :
    l.step { options with trackPositions := false } s.detach =
      (l.step options s).map Scan.detach := by
  unfold step Scan.detach
  dsimp only
  cases l.states[s.current]? with
  | none => rfl
  | some state =>
    dsimp only
    cases firstMatch? state.rules s.rest with
    | none => rfl
    | some found =>
      obtain ⟨r, m⟩ := found
      dsimp only
      split
      · rfl
      · cases act r state.name s.current s.below with
        | error e => rfl
        | ok stack => cases hdiscard : r.rule.discard <;> rfl

theorem scan_detach (l : Lexer) (options : TokenizeOptions) (fuel : Nat) (s : Scan) :
    l.scan { options with trackPositions := false } fuel s.detach =
      (l.scan options fuel s).map (List.map LexToken.detach) := by
  induction fuel generalizing s with
  | zero =>
    unfold scan
    cases hrest : s.rest with
    | nil => simp [Scan.detach, hrest, Except.map]
    | cons c cs => simp [Scan.detach, hrest, Except.map]
  | succ fuel ih =>
    unfold scan
    cases hrest : s.rest with
    | nil => simp [Scan.detach, hrest, Except.map]
    | cons c cs =>
      have hdetach : s.detach.rest = c :: cs := hrest
      simp only [hdetach, List.isEmpty_cons, Bool.false_eq_true, if_false, step_detach]
      cases l.step options s with
      | error e => rfl
      | ok s => exact ih s

/-- Without places, the same tokens are made. -/
theorem tokenizeDetached_eq (l : Lexer) (source : String) :
    l.tokenizeDetached source = (l.tokenize source).map (List.map LexToken.detach) :=
  l.scan_detach {} _ ⟨0, [], 0, source.toList, []⟩

/-! ### Parts of a source -/

/-- A match that takes characters, and records no places. -/
def Advances (l : Lexer) (s s' : Scan) : Prop :=
  s'.rest.length < s.rest.length ∧ l.step { trackPositions := false } s = .ok s'

/-- From a state on, the lexer makes these tokens, and goes on in a state with the rest of the
source. -/
def Lexes (l : Lexer) (q : Nat) (cs : List Char) (tokens : List LexToken) (q' : Nat)
    (cs' : List Char) : Prop :=
  ∀ offset before, ∃ offset', Relation.ReflTransGen l.Advances ⟨q, [], offset, cs, before⟩
    ⟨q', [], offset', cs', tokens.reverse ++ before⟩

section

variable {q q' q'' : Nat} {cs cs' cs'' : List Char} {tokens tokens' : List LexToken}

theorem lexes_nil (l : Lexer) (q : Nat) (cs : List Char) : l.Lexes q cs [] q cs :=
  fun offset _ => ⟨offset, .refl⟩

theorem Lexes.append (h : l.Lexes q cs tokens q' cs') (h' : l.Lexes q' cs' tokens' q'' cs'') :
    l.Lexes q cs (tokens ++ tokens') q'' cs'' := by
  intro offset before
  obtain ⟨offset', hruns⟩ := h offset before
  obtain ⟨offset'', hruns'⟩ := h' offset' (tokens.reverse ++ before)
  refine ⟨offset'', ?_⟩
  rw [List.reverse_append, List.append_assoc]
  exact hruns.trans hruns'

theorem firstMatch?_append {before : List CompiledRule}
    (hbefore : ∀ r ∈ before, r.regex.search? r.groups cs = none) {r : CompiledRule} {m : Match}
    (hmatch : r.regex.search? r.groups cs = some m) (after : List CompiledRule) :
    firstMatch? (before ++ r :: after) cs = some (r, m) := by
  have hnone : before.findSome? (fun r => (r.regex.search? r.groups cs).map fun m => (r, m)) =
      none := by
    rw [List.findSome?_eq_none_iff]
    intro r hr
    rw [hbefore r hr, Option.map_none]
  rw [firstMatch?, List.findSome?_append, hnone, Option.none_or, List.findSome?_cons, hmatch]
  rfl

/-- The first rule that matches makes a token, unless it is discarded. -/
theorem lexes_of_firstMatch {state : CompiledState} (hstate : l.states[q]? = some state)
    {r : CompiledRule} {m : Match} (hmatch : firstMatch? state.rules cs = some (r, m))
    (hact : act r state.name q [] = .ok (q', [])) (hstop : 0 < m.stop) (hcs : cs ≠ []) :
    l.Lexes q cs (if r.rule.discard then [] else [⟨r.rule.name, m.groups, .none⟩]) q'
      (cs.drop m.stop) := by
  intro offset before
  refine ⟨offset + Text.byteLength (cs.take m.stop), .single ⟨?_, ?_⟩⟩
  · have := List.length_pos_iff.2 hcs
    simp only [List.length_drop]
    omega
  · have hne : ¬ (m.stop = 0 && r.rule.action.isNone) = true := by simp [hstop.ne']
    simp only [step, hstate, hmatch, hne, hact]
    cases r.rule.discard <;> rfl

theorem scan_of_advances {fuel : Nat} (h : Relation.ReflTransGen l.Advances s s')
    (hend : s'.rest = []) (hfuel : s.rest.length ≤ fuel) :
    l.scan { trackPositions := false } fuel s = .ok s'.tokens.reverse := by
  induction h using Relation.ReflTransGen.head_induction_on generalizing fuel with
  | refl =>
    unfold scan
    simp [hend]
  | @head s u hstep _ ih =>
    obtain ⟨hlt, hstep⟩ := hstep
    have hne : s.rest ≠ [] := List.length_pos_iff.1 (by omega)
    obtain ⟨fuel, rfl⟩ := Nat.exists_eq_succ_of_ne_zero (show fuel ≠ 0 by omega)
    rw [scan, if_neg (by simpa using hne)]
    simp only [hstep]
    exact ih (by omega)

theorem le_matchBound (states below length : Nat) : length ≤ matchBound states below length := by
  rw [matchBound]
  exact (Nat.le_mul_of_pos_right length (by omega)).trans (Nat.le_mul_of_pos_right _ (by omega))

/-- What the parts of a source make, the source makes. -/
theorem Lexes.tokenizeDetached_eq {source : String} (h : l.Lexes 0 source.toList tokens q []) :
    l.tokenizeDetached source = .ok tokens := by
  obtain ⟨offset, hruns⟩ := h 0 []
  have hscan := scan_of_advances hruns rfl (le_matchBound l.states.size 0 source.toList.length)
  rwa [List.append_nil, List.reverse_reverse] at hscan

end

end Lexer

end ReversibleGrammar
