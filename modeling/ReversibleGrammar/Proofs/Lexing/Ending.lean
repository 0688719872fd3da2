/-
Runs of a lexer come to an end.

A match that takes characters leaves less of the source.  One that takes nothing leaves as much of
it, and a run may go on so forever.  If rules that match nothing only pop, it does not: states are
pushed by matches that take characters, one by each, so that what is left of the source, counted
twice, and the states below the current one come to less with every match.

* `CompiledRule.MatchesNothing` — a rule matches before some text without taking anything of it;
* `Scan.load`, `load_lt_of_step` — what is left of a run, and that a match leaves less;
* `exists_answer` — a run that has as much fuel comes to tokens, or to the error of a match;
* `tokenize_ends` — so does every run of such a lexer, whatever it starts with.
-/
import ReversibleGrammar.Proofs.Lexing.Coverage
import ReversibleGrammar.Proofs.Lexing.Regex

namespace ReversibleGrammar

/-- The rule matches before some text and takes nothing of it.  That text may have to begin in some
way, as it does for the start of a word. -/
def CompiledRule.MatchesNothing (r : CompiledRule) : Prop :=
  ∃ cs m, r.regex.search? r.groups cs = some m ∧ m.stop = 0

/-- The error is one that a match reports. -/
def LexError.OfMatch : LexError → Prop
  | stalled _ _ | noMatch _ _ | popEmpty _ _ => True
  | noStates | emptyState _ | unknownState _ | invalidPattern _ | endless => False

/-- What is left of a run: its source, of which each character may push a state, and the states below
the current one. -/
def Scan.load (s : Scan) : Nat := 2 * s.rest.length + s.below.length

namespace Lexer

/-- Rules that match nothing stall or pop. -/
def EmptyPops (l : Lexer) : Prop :=
  ∀ r ∈ l.rules, r.MatchesNothing → r.rule.action = none ∨ r.rule.action = some .pop

variable {l : Lexer} {options : TokenizeOptions} {s s' : Scan}

/-! ### One match -/

section

variable {r : CompiledRule} {state : String} {current : Nat} {below : List Nat}
variable {stack : Nat × List Nat}

/-- An action pushes one state at most. -/
theorem length_le_of_act (h : act r state current below = .ok stack) :
    stack.2.length ≤ below.length + 1 := by
  unfold act at h
  split at h
  case h_1 | h_2 | h_4 => cases h; simp
  case h_3 =>
    split at h
    · cases h
    · cases h
      simp only [List.length_cons]
      omega

theorem length_of_act_pop (hpop : r.rule.action = some .pop)
    (h : act r state current below = .ok stack) : stack.2.length + 1 = below.length := by
  cases below with
  | nil => simp [act, hpop] at h
  | cons q below =>
    simp only [act, hpop, Except.ok.injEq] at h
    rw [← h, List.length_cons]

theorem ofMatch_of_act_eq_error {e : LexError} (h : act r state current below = .error e) :
    e.OfMatch := by
  unfold act at h
  split at h
  case h_1 | h_2 | h_4 => cases h
  case h_3 =>
    split at h
    · cases h
      trivial
    · cases h

end

/-- A match leaves less of the run. -/
theorem load_lt_of_step (hpops : l.EmptyPops) (hrest : s.rest ≠ [])
    (h : l.step options s = .ok s') : s'.load < s.load := by
  obtain ⟨state, r, m, stack, hstate, hmatch, hstalled, hact, rfl⟩ := exists_match_of_step h
  have hpos := List.length_pos_iff.2 hrest
  simp only [Scan.load, List.length_drop]
  rcases Nat.eq_zero_or_pos m.stop with hstop | hstop
  · -- the rule has an action, since the lexer does not stall
    have hr := mem_rules_of_firstMatch? hstate hmatch
    have hnothing : r.MatchesNothing := ⟨s.rest, m, (firstMatch?_eq_some hmatch).2, hstop⟩
    have hpop := (hpops r hr hnothing).resolve_left (hstalled hstop)
    have hlength := length_of_act_pop hpop hact
    omega
  · have hlength := length_le_of_act hact
    omega

/-- In a state of the lexer, what stops a run is the error of a match. -/
theorem ofMatch_of_step_eq_error {e : LexError} (hknown : s.current < l.states.size)
    (h : l.step options s = .error e) : e.OfMatch := by
  unfold step at h
  rw [Array.getElem?_eq_getElem hknown] at h
  dsimp only at h
  split at h
  · cases h
    trivial
  split at h
  · cases h
    trivial
  rename_i r m _ _
  cases hact : act r l.states[s.current].name s.current s.below with
  | ok stack =>
    rw [hact] at h
    cases h
  | error e' =>
    rw [hact] at h
    cases h
    exact ofMatch_of_act_eq_error hact

/-! ### All matches -/

/-- Tokens, or the error of a match. -/
def Answers : Except LexError (List LexToken) → Prop
  | .ok _ => True
  | .error e => e.OfMatch

/-- A run comes to an answer if the fuel is as much as what is left of it. -/
theorem exists_answer (options : TokenizeOptions) (hl : l.Closed) (hpops : l.EmptyPops)
    (hknown : ∀ q ∈ s.current :: s.below, q < l.states.size) :
    ∃ answer, Answers answer ∧
      ∀ fuel, (s.rest ≠ [] → s.load ≤ fuel) → l.scan options fuel s = answer := by
  induction hload : s.load using Nat.strong_induction_on generalizing s with
  | _ load ih =>
    subst hload
    by_cases hrest : s.rest = []
    · refine ⟨.ok s.tokens.reverse, trivial, fun fuel _ => ?_⟩
      unfold scan
      rw [hrest]
      rfl
    have hload : 0 < s.load := by
      have hpos := List.length_pos_iff.2 hrest
      unfold Scan.load
      omega
    have hscan : ∀ fuel, l.scan options (fuel + 1) s = l.step options s >>= l.scan options fuel := by
      intro fuel
      rw [scan, if_neg (by simpa using hrest)]
      cases l.step options s <;> rfl
    cases hstep : l.step options s with
    | error e =>
      have he := ofMatch_of_step_eq_error (hknown _ List.mem_cons_self) hstep
      refine ⟨.error e, he, fun fuel hfuel => ?_⟩
      obtain ⟨fuel, rfl⟩ := Nat.exists_eq_add_one.2 (hload.trans_le (hfuel hrest))
      rw [hscan, hstep]
      rfl
    | ok next =>
      have hlt := load_lt_of_step hpops hrest hstep
      have hnext : ∀ q ∈ next.current :: next.below, q < l.states.size := by
        obtain ⟨state, r, m, stack, hstate, hmatch, -, hact, rfl⟩ := exists_match_of_step hstep
        exact hl.act (mem_rules_of_firstMatch? hstate hmatch) hknown hact
      obtain ⟨answer, hanswer, hruns⟩ := ih next.load hlt hnext rfl
      refine ⟨answer, hanswer, fun fuel hfuel => ?_⟩
      obtain ⟨fuel, rfl⟩ := Nat.exists_eq_add_one.2 (hload.trans_le (hfuel hrest))
      have hle := hfuel hrest
      rw [hscan, hstep]
      exact hruns fuel fun _ => by omega

/-- A run that goes on forever outlasts all fuel. -/
theorem loop_of_forever {run : Nat → StackScan}
    (h : ∀ n, l.Matches options (run n) (run (n + 1))) (fuel n : Nat) :
    l.loop options fuel (run n) = .error .endless := by
  induction fuel generalizing n with
  | zero =>
    obtain ⟨hrest, q, hhead, -⟩ := h n
    rcases l.loop_cases options (run n) with ⟨hend | hend, -⟩ | ⟨-, -, -, hendless, -⟩
    · exact absurd hend hrest
    · rw [hend] at hhead
      cases hhead
    · exact hendless
  | succ fuel ih =>
    obtain ⟨hrest, q, hhead, hmatch⟩ := h n
    rcases l.loop_cases options (run n) with ⟨hend | hend, -⟩ | ⟨q', -, hhead', -, hmore⟩
    · exact absurd hend hrest
    · rw [hend] at hhead
      cases hhead
    · obtain rfl : q = q' := Option.some.inj (hhead.symm.trans hhead')
      rw [hmore, hmatch]
      exact ih (n + 1)

/-- The matches that a run may take are as many as what is left of it at the start. -/
theorem load_le_matchBound (states below length : Nat) (hlength : 0 < length) :
    2 * length + below ≤ matchBound states below length := by
  have hbelow : below ≤ length * below := Nat.le_mul_of_pos_left below hlength
  calc 2 * length + below
      ≤ length * (below + 2) := by rw [Nat.mul_add]; omega
    _ ≤ length * (below + length * (states + 1) + 2) := Nat.mul_le_mul_left length (by omega)
    _ ≤ matchBound states below length := Nat.le_mul_of_pos_right _ (Nat.succ_pos states)

/-- A lexer whose rules stall or pop where they match nothing comes to an end on every source, from
every stack of its states.  No run goes on forever, and none takes more matches than the source has
characters, counted twice, and the stack has states below the current one.  It comes to tokens, or
to the error of a match. -/
theorem tokenize_ends {states : List LexerState} {l : Lexer} (hmake : make states = .ok l)
    (hpops : l.EmptyPops) (options : TokenizeOptions)
    (hknown : ∀ name ∈ options.initial, name ∈ l.stateNames) (source : String) :
    ∃ start : StackScan, l.firstStack options = .ok start.stack ∧
      start = ⟨start.stack, 0, source.toList, []⟩ ∧
      (¬ ∃ run : Nat → StackScan, run 0 = start ∧
        ∀ n, l.Matches options (run n) (run (n + 1))) ∧
      (∀ fuel, 2 * source.toList.length + start.stack.tail.length ≤ fuel →
        l.loop options fuel start = l.tokenizeWith options source) ∧
      ((∃ tokens, l.tokenizeWith options source = .ok tokens) ∨
        ∃ e, l.tokenizeWith options source = .error e ∧ e.OfMatch) := by
  have hl := closed_of_make hmake
  obtain ⟨current, below, hinitial, hstates⟩ := hl.initialStack hknown
  let start : Scan := ⟨current, below, 0, source.toList, []⟩
  obtain ⟨answer, hanswer, hruns⟩ := exists_answer (s := start) options hl hpops hstates
  -- the fuel that the lexer takes is enough, unless there is nothing to read
  have htokenize : l.tokenizeWith options source = answer := by
    rw [tokenizeWith, hinitial]
    exact hruns _ fun hrest =>
      load_le_matchBound l.states.size below.length source.toList.length (List.length_pos_iff.2 hrest)
  have hloop : ∀ fuel, start.load ≤ fuel → l.loop options fuel start.toStack = answer := by
    intro fuel hfuel
    rw [loop_toStack]
    exact hruns fuel fun _ => hfuel
  refine ⟨start.toStack, ?_, rfl, ?_, ?_, ?_⟩
  · rw [firstStack_eq, hinitial]
    rfl
  · rintro ⟨run, hrun, hforever⟩
    have hendless := loop_of_forever hforever start.load 0
    rw [hrun, hloop _ le_rfl] at hendless
    rw [hendless] at hanswer
    exact hanswer
  · intro fuel hfuel
    rw [htokenize]
    exact hloop fuel hfuel
  · rw [htokenize]
    cases answer with
    | ok tokens => exact .inl ⟨tokens, rfl⟩
    | error e => exact .inr ⟨e, rfl, hanswer⟩

/-- Each parenthesis pushes a state, and a rule that matches nothing leaves it before the next one. -/
theorem tokenize_ends_nested :
    let states : List LexerState :=
      [⟨"main", [(TokenRule.make "open" "\\(").then (.push "inner"), .make "letter" "[a-z]"]⟩,
        ⟨"inner", [.make "letter" "[a-z]", (TokenRule.make "leave" "").then .pop]⟩]
    ∃ l, make states = .ok l ∧ l.EmptyPops ∧ ∃ tokens,
      l.tokenizeWith { initial := ["main", "inner"] } "a(b" = .ok tokens ∧
      tokens.map (·.kind) = ["letter", "leave", "open", "letter"] ∧
      ∀ fuel, 7 ≤ fuel →
        l.loop { initial := ["main", "inner"] } fuel ⟨[1, 0], 0, "a(b".toList, []⟩ = .ok tokens := by
  intro states
  have hrules : (make states).toOption.map (fun l =>
      (l.stateNames, l.rules.map fun r => (r.regex, r.groups, r.rule.action))) =
      some (["main", "inner"],
        [((Regex.text ['(']).anchored, 0, some (.push "inner")),
          ((Regex.concat .empty (.set (.union .none (.range 'a' 'z')))).anchored, 0, none),
          ((Regex.concat .empty (.set (.union .none (.range 'a' 'z')))).anchored, 0, none),
          (Regex.empty.anchored, 0, some .pop)]) := by
    decide +kernel
  have hkinds : (make states).toOption.map (fun l =>
      (l.tokenizeWith { initial := ["main", "inner"] } "a(b").toOption.map (List.map (·.kind))) =
      some (some ["letter", "leave", "open", "letter"]) := by
    decide +kernel
  obtain ⟨l, hmake, hl⟩ := Option.map_eq_some_iff.1 hrules
  rw [hmake] at hkinds
  rw [toOption_eq_some_iff] at hmake
  obtain ⟨hnames, hrules⟩ := Prod.mk.inj hl
  obtain ⟨tokens, htokenize, hkinds⟩ := Option.map_eq_some_iff.1 (Option.some.inj hkinds)
  rw [toOption_eq_some_iff] at htokenize
  have hpops : l.EmptyPops := by
    rintro r hr ⟨cs, m, hsearch, hstop⟩
    have hmem := List.mem_map_of_mem (f := fun r => (r.regex, r.groups, r.rule.action)) hr
    simp only [hrules, List.mem_cons, List.not_mem_nil, or_false, Prod.mk.injEq] at hmem
    rcases hmem with ⟨hregex, hgroups, -⟩ | ⟨-, -, hnone⟩ | ⟨-, -, hnone⟩ | ⟨-, -, hpop⟩
    · -- the rule that pushes takes its parenthesis
      rw [hregex, hgroups, Regex.search?_text] at hsearch
      split at hsearch
      · cases hsearch
        cases hstop
      · cases hsearch
    · exact .inl hnone
    · exact .inl hnone
    · exact .inr hpop
  refine ⟨l, hmake, hpops, tokens, htokenize, hkinds, ?_⟩
  have hknown : ∀ name ∈ ["main", "inner"], name ∈ l.stateNames := by
    intro name hname
    rwa [hnames]
  obtain ⟨start, hstack, heq, -, hfuel, -⟩ :=
    tokenize_ends hmake hpops { initial := ["main", "inner"] } hknown "a(b"
  have hfirst : l.firstStack { initial := ["main", "inner"] } = .ok [1, 0] := by
    rw [firstStack, hnames]
    rfl
  obtain hstack : start.stack = [1, 0] := Except.ok.inj (hstack.symm.trans hfirst)
  rw [hstack] at heq hfuel
  rw [heq, htokenize] at hfuel
  exact hfuel

-- The empty text has no word boundary, but before a letter there is one, with nothing in it, and a
-- rule that pushes there never stops: a rule must not match without a character in any text.
example :
    (make [⟨"main", [(TokenRule.make "edge" "\\b").then (.push "main")]⟩]).toOption.map
      (fun l => (l.rules.map fun r => (r.regex.search? r.groups []).isSome, l.tokenize "a")) =
      some ([false], .error .endless) := by
  decide +kernel

end Lexer

end ReversibleGrammar
