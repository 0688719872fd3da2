/-
Which derivations a parser finds.

A pattern that tries everything it might match makes a match of every derivation.
Without left recursion nothing is lost after that, and it makes no difference
whether a rule is entered by its body or by a reference.  With left recursion
both may fail: what is entered first at a position is not recorded there, and a
remembered match is held back from an inner call, as long as that is not nested
more deeply than the one that has left it.

* `mem_readings_of_derives` — every derivation is a match;
* `parseAll_complete` — without left recursion, every derivation is parsed;
* `candidates_thunk` — without left recursion, references match what their rule matches;
* `mixed_incomplete`, `mixed_thunk` — left-recursive rules where that fails.
-/
import ReversibleGrammar.Proofs.Recognizer.Exactness

namespace ReversibleGrammar

/-- A pattern of the kind matches whatever its parts may match. -/
def PatternKind.isExhaustive : PatternKind → Bool
  | choice _ .ordered _ | many _ _ => false
  | _ => true

/-- No pattern leaves out matches of its parts. -/
def Grammar.Exhaustive (g : Grammar) : Prop :=
  ∀ {id : PatternId} {p : Pattern}, g.pattern? id = some p → p.kind.isExhaustive = true

section

variable {τ ν : Type} [Token τ ν] {g : Grammar} {tokens : Array τ} {read : Readings ν}

/-- Derivations of patterns that follow each other are found one after the other. -/
theorem mem_prefixes_of_threads {ts : List (Tree ν)}
    (h : ∀ t ∈ ts, ∀ id i j, i ≤ tokens.size → t.Derives g tokens id i j → (t, j) ∈ read id i)
    {children : List PatternId} (hlength : children.length = ts.length)
    {xs : List (List (Tree ν) × Nat)} {x : List (Tree ν) × Nat} (hx : x ∈ xs)
    (hsize : x.2 ≤ tokens.size) {j : Nat}
    (hthreads : Threads (List.zipWith (fun derives child => derives child)
      (Tree.derivesEach g tokens ts) children) x.2 j) :
    (x.1 ++ ts, j) ∈ children.foldl (fun xs child => xs.flatMap (read.extendPrefix child)) xs := by
  induction ts generalizing children xs x with
  | nil =>
    obtain rfl := List.length_eq_zero_iff.1 hlength
    obtain rfl : x.2 = j := hthreads
    simpa using hx
  | cons t ts ih =>
    cases children with
    | nil => cases hlength
    | cons child children =>
      obtain ⟨k, ht, hts⟩ := hthreads
      have hk := (Tree.passes_of_derives g tokens t child x.2 k ht).2.1 hsize
      have hnext : (x.1 ++ [t], k) ∈ xs.flatMap (read.extendPrefix child) :=
        List.mem_flatMap.2 ⟨x, hx, List.mem_map.2
          ⟨(t, k), h t List.mem_cons_self child x.2 k hsize ht, rfl⟩⟩
      have hrest := ih (fun t' ht' => h t' (List.mem_cons_of_mem t ht')) (Nat.succ.inj hlength)
        hnext hk hts
      simpa using hrest

namespace Tree

mutual

/-- If every pattern matches whatever its parts may match, every derivation is a match. -/
theorem mem_readings_of_derives (hall : g.Exhaustive) (hsolves : read.Solves g tokens) :
    ∀ (t : Tree ν) (id : PatternId) (i j : Nat), i ≤ tokens.size → t.Derives g tokens id i j →
      (t, j) ∈ read id i
  | leaf p v, id, i, j, hi, h => by
    obtain ⟨hp, terminal, token, hkind, htoken, his, rfl, rfl⟩ := h
    rw [hsolves id i hi, hp]
    simp [Pattern.readings, hkind, htoken, his]
  | sequence p ts, id, i, j, hi, h => by
    obtain ⟨hp, children, hkind, hlength, hthreads⟩ := h
    rw [hsolves id i hi, hp]
    simp only [Pattern.readings, hkind]
    have heach := mem_readings_of_derivesEach hall hsolves ts
    have hmem := mem_prefixes_of_threads heach hlength (List.mem_singleton_self ([], i)) hi hthreads
    exact List.mem_map.2 ⟨_, hmem, rfl⟩
  | choice p index t, id, i, j, hi, h => by
    obtain ⟨hp, alternatives, mode, names, alternative, hkind, halternative, ht⟩ := h
    have hread := mem_readings_of_derives hall hsolves t alternative i j hi ht
    rw [hsolves id i hi, hp]
    simp only [Pattern.readings, hkind]
    cases mode with
    | ordered =>
      have hexhaustive := hall hp
      rw [hkind] at hexhaustive
      cases hexhaustive
    | parallel =>
      have hmem : (alternative, index) ∈ alternatives.zipIdx :=
        List.mem_zipIdx_iff_getElem?.2 halternative
      exact List.mem_flatten.2 ⟨_, List.mem_map.2 ⟨_, hmem, rfl⟩,
        List.mem_map.2 ⟨_, hread, rfl⟩⟩
  | many p items separators, id, i, j, hi, h => by
    obtain ⟨hp, item, separator, hkind, -⟩ := h
    have hexhaustive := hall hp
    rw [hkind] at hexhaustive
    cases hexhaustive
  | absent p, id, i, j, hi, h => by
    obtain ⟨hp, ⟨item, hkind⟩, rfl⟩ := h
    rw [hsolves id i hi, hp]
    simp [Pattern.readings, hkind]
  | present p t, id, i, j, hi, h => by
    obtain ⟨hp, item, hkind, ht⟩ := h
    have hread := mem_readings_of_derives hall hsolves t item i j hi ht
    rw [hsolves id i hi, hp]
    simp only [Pattern.readings, hkind]
    exact List.mem_append_left _ (List.mem_map.2 ⟨_, hread, rfl⟩)
  | wrapped p t, id, i, j, hi, h => by
    obtain ⟨hp, wrapper, child, hkind, ht⟩ := h
    have hread := mem_readings_of_derives hall hsolves t child i j hi ht
    rw [hsolves id i hi, hp]
    simp only [Pattern.readings_wrapped hkind]
    exact List.mem_map.2 ⟨_, hread, rfl⟩
  | mark p, id, i, j, hi, h => by
    obtain ⟨hp, ⟨marker, hkind⟩, rfl⟩ := h
    rw [hsolves id i hi, hp]
    simp only [Pattern.readings_mark hkind, List.mem_singleton]

theorem mem_readings_of_derivesEach (hall : g.Exhaustive) (hsolves : read.Solves g tokens) :
    ∀ ts : List (Tree ν), ∀ t ∈ ts, ∀ id i j, i ≤ tokens.size → t.Derives g tokens id i j →
      (t, j) ∈ read id i
  | t :: ts => List.forall_mem_cons.2 ⟨mem_readings_of_derives hall hsolves t,
    mem_readings_of_derivesEach hall hsolves ts⟩
  | [] => fun _ ht => nomatch ht

end

end Tree

/-- What takes the whole input is parsed. -/
theorem ParsesTo.parseAll_of_mem {config : ParserConfig} {id : PatternId}
    {ys : List (Tree ν × Nat)} (h : ParsesTo g config id tokens ys) {t : Tree ν}
    (ht : (t, tokens.size) ∈ ys) :
    (∃ trees, parseAll g config id tokens = .ok trees ∧ t ∈ trees) ∧
      ∃ first : Tree ν, parseOne g config id tokens = .ok first := by
  have hmem := mem_wholeTrees.2 ht
  cases hwhole : wholeTrees tokens.size ys with
  | nil =>
    rw [hwhole] at hmem
    cases hmem
  | cons tree trees =>
    obtain ⟨hparseAll, hparseOne⟩ := h.trees tree trees hwhole
    exact ⟨⟨_, hparseAll, hwhole ▸ hmem⟩, tree, hparseOne⟩

/-- Without left recursion, and if every pattern matches whatever its parts may match, every
derivation of the input is parsed, unless the parser gives up. -/
theorem parseAll_complete (hg : g.Built) (hl : g.DistinctLabels) {rank : PatternId → Nat}
    (hrank : g.Ranked rank) (hall : g.Exhaustive) {id : PatternId} (hid : id < g.size)
    (tokens : Array τ) :
    ∃ fuel, ∀ config : ParserConfig, fuel ≤ config.fuel →
      (∃ site, GivesUp g config id tokens site) ∨
        ∀ t : Tree ν, t.Derives g tokens id 0 tokens.size →
          (∃ trees, parseAll g config id tokens = .ok trees ∧ t ∈ trees) ∧
            ∃ first : Tree ν, parseOne g config id tokens = .ok first := by
  obtain ⟨weight, hweight⟩ := hrank.exists_weighted tokens.size
  obtain ⟨read, hsolves, -, -⟩ := hweight.exists_solution (ν := ν)
  obtain ⟨fuel, hfuel⟩ := hsolves.exists_fuel hg.closed hl hrank hid
  refine ⟨fuel, fun config hle => ?_⟩
  rcases hfuel config hle with h | hgives
  · refine .inr fun t ht => h.parseAll_of_mem ?_
    exact t.mem_readings_of_derives hall hsolves id 0 tokens.size (Nat.zero_le _) ht
  · exact .inl hgives

end

theorem Grammar.exhaustive_runs : runs.Exhaustive := by
  intro id p hp
  have hmem : p ∈ runs.patterns := Array.mem_of_getElem? hp
  simp only [runs, List.mem_toArray, List.mem_cons, List.not_mem_nil, or_false] at hmem
  rcases hmem with rfl | rfl | rfl | rfl <;> rfl

/-- Every derivation of a run of `a a` is parsed. -/
theorem parseAll_complete_runs :
    ∃ fuel, ∀ config : ParserConfig, fuel ≤ config.fuel →
      (∃ site, GivesUp Grammar.runs config 3 #["a", "a"] site) ∨
        ∀ t : Tree String, t.Derives Grammar.runs #["a", "a"] 3 0 2 →
          (∃ trees, parseAll Grammar.runs config 3 #["a", "a"] = .ok trees ∧ t ∈ trees) ∧
            ∃ first : Tree String, parseOne Grammar.runs config 3 #["a", "a"] = .ok first :=
  parseAll_complete Grammar.built_runs Grammar.distinctLabels_runs Grammar.ranked_runs
    Grammar.exhaustive_runs (by decide) #["a", "a"]

/-! ### Left-recursive rules -/

/-- An `a` with any number of `x` and `y` after it, left-recursively. -/
def Grammar.mixed : Grammar where
  patterns := #[{ id := 0, kind := .thunk 0 }, { id := 1, kind := .consume "x" },
    { id := 2, kind := .sequence [0, 1] }, { id := 3, kind := .thunk 0 },
    { id := 4, kind := .consume "y" }, { id := 5, kind := .sequence [3, 4] },
    { id := 6, kind := .consume "a" }, { id := 7, kind := .choice [2, 5, 6] .parallel none }]
  rules := #[⟨"mixed", 7⟩]
  labels := #[]

theorem Grammar.built_mixed : mixed.Built :=
  ⟨[.rule "mixed", .consume "x", .sequence [0, 1], .rule "mixed", .consume "y", .sequence [3, 4],
    .consume "a", .parallelChoice [2, 5, 6], .define "mixed" 7], by cbv⟩

theorem Grammar.noThunkCycle_mixed : mixed.NoThunkCycle := by
  refine noThunkCycle_of_bodies fun rule hrule p hp r hkind => ?_
  obtain rfl : rule = ⟨"mixed", 7⟩ := by simpa [mixed] using hrule
  cases hp
  cases hkind

theorem Grammar.exhaustive_mixed : mixed.Exhaustive := by
  intro id p hp
  have hmem : p ∈ mixed.patterns := Array.mem_of_getElem? hp
  simp only [mixed, List.mem_toArray, List.mem_cons, List.not_mem_nil, or_false] at hmem
  rcases hmem with rfl | rfl | rfl | rfl | rfl | rfl | rfl | rfl <;> rfl

/-- The derivation of `a y x`. -/
def Grammar.mixedTree : Tree String :=
  let p (id : PatternId) : Pattern := (mixed.pattern? id).getD default
  .choice (p 7) 0 (.sequence (p 2) [.wrapped (p 0) (.choice (p 7) 1 (.sequence (p 5)
    [.wrapped (p 3) (.choice (p 7) 2 (.leaf (p 6) "a")), .leaf (p 4) "y"])), .leaf (p 1) "x"])

theorem Grammar.derives_mixedTree : mixedTree.Derives mixed #["a", "y", "x"] 7 0 3 := by
  simp [mixedTree, mixed, Tree.Derives, Tree.derivesEach, Threads, Grammar.pattern?,
    PatternKind.wrapped?, Grammar.ruleBody?, Token.is, Token.value]

/-- A left-recursive rule derives `a y x`, which is not parsed: what has come of the innermost call
is held back from the calls around it. -/
theorem mixed_incomplete :
    (Grammar.mixed.Built ∧ Grammar.mixed.NoThunkCycle ∧
      (∀ p ∈ Grammar.mixed.patterns, p.label = none) ∧ Grammar.mixed.Exhaustive) ∧
      Grammar.mixedTree.Derives Grammar.mixed #["a", "y", "x"] 7 0 3 ∧
        ∃ failures, parseOne (ν := String) Grammar.mixed ⟨3, 1000⟩ 7 #["a", "y", "x"] =
          .error (.noMatch failures) := by
  refine ⟨⟨Grammar.built_mixed, Grammar.noThunkCycle_mixed, by simp [Grammar.mixed],
    Grammar.exhaustive_mixed⟩, Grammar.derives_mixedTree, ?_⟩
  have hnone : (match parseOne (ν := String) Grammar.mixed ⟨3, 1000⟩ 7 #["a", "y", "x"] with
      | .error (.noMatch _) => true
      | _ => false) = true := by
    decide +kernel
  split at hnone
  · rename_i failures h
    exact ⟨failures, h⟩
  · cases hnone

/-! ### References -/

section

variable {τ ν : Type} [Token τ ν] {g : Grammar}

/-- Without left recursion, a reference to a rule matches what the body of the rule matches, in the
same order. -/
theorem candidates_thunk (hg : g.Built) (hl : g.DistinctLabels) {rank : PatternId → Nat}
    (hrank : g.Ranked rank) {id body : PatternId} {p : Pattern} {rule : RuleId}
    (hp : g.pattern? id = some p) (hkind : p.kind = .thunk rule)
    (hbody : g.ruleBody? rule = some body) (config : ParserConfig) {tokens : Array τ}
    {cs cs' : List (Candidate τ ν)} (hcs : candidates g config id tokens = .ok cs)
    (hcs' : candidates g config body tokens = .ok cs') :
    matchesOf cs = (matchesOf cs').map fun y => (.wrapped p y.1, y.2) := by
  obtain ⟨weight, hweight⟩ := hrank.exists_weighted tokens.size
  obtain ⟨read, hsolves, -, -⟩ := hweight.exists_solution (ν := ν)
  have hclosed := hg.closed
  have hid : id < g.patterns.size := (Array.getElem?_eq_some_iff.1 hp).1
  have hbodyid : body < g.patterns.size := by
    obtain ⟨found, hfound, rfl⟩ := Option.map_eq_some_iff.1 hbody
    exact hclosed.body_lt rule found hfound
  have hmatches := matchesOf_of_candidates
    (hsolves.parsesTo_cases hclosed hl hrank hid config) hcs
  have hmatches' := matchesOf_of_candidates
    (hsolves.parsesTo_cases hclosed hl hrank hbodyid config) hcs'
  have hwrapped : p.kind.wrapped? g = some (.thunk, body) := by
    rw [hkind, PatternKind.wrapped?, hbody]
    rfl
  rw [hmatches, hmatches', hsolves id 0 (Nat.zero_le _), hp]
  exact Pattern.readings_wrapped hwrapped tokens read 0

end

/-- A reference to the runs matches what they match. -/
theorem candidates_thunk_runs :
    ∃ cs cs' : List (Candidate String String),
      candidates Grammar.runs ⟨3, 100⟩ 1 #["a", "a"] = .ok cs ∧
        candidates Grammar.runs ⟨3, 100⟩ 3 #["a", "a"] = .ok cs' ∧
          matchesOf cs = (matchesOf cs').map fun y =>
            (.wrapped { id := 1, kind := .thunk 0 } y.1, y.2) := by
  have hends : ((candidates (ν := String) Grammar.runs ⟨3, 100⟩ 1 #["a", "a"]).map
      fun cs => (matchesOf cs).map Prod.snd).toOption = some [2, 1] := by
    decide +kernel
  have hends' : ((candidates (ν := String) Grammar.runs ⟨3, 100⟩ 3 #["a", "a"]).map
      fun cs => (matchesOf cs).map Prod.snd).toOption = some [2, 1] := by
    decide +kernel
  obtain ⟨cs, hcs, -⟩ := exists_ok_of_toOption_map hends
  obtain ⟨cs', hcs', -⟩ := exists_ok_of_toOption_map hends'
  exact ⟨cs, cs', hcs, hcs', candidates_thunk Grammar.built_runs Grammar.distinctLabels_runs
    Grammar.ranked_runs rfl rfl rfl ⟨3, 100⟩ hcs hcs'⟩

/-- On `a y`, the body of a left-recursive rule matches both tokens, and a reference to it only the
first. -/
theorem mixed_thunk :
    (Grammar.mixed.Built ∧ Grammar.mixed.NoThunkCycle ∧
      (∀ p ∈ Grammar.mixed.patterns, p.label = none) ∧
      Grammar.mixed.pattern? 0 = some { id := 0, kind := .thunk 0 } ∧
      Grammar.mixed.ruleBody? 0 = some 7) ∧
      ∃ cs cs' : List (Candidate String String),
        candidates Grammar.mixed ⟨3, 1000⟩ 0 #["a", "y"] = .ok cs ∧
          candidates Grammar.mixed ⟨3, 1000⟩ 7 #["a", "y"] = .ok cs' ∧
            (matchesOf cs).map Prod.snd = [1] ∧ (matchesOf cs').map Prod.snd = [2, 1] := by
  refine ⟨⟨Grammar.built_mixed, Grammar.noThunkCycle_mixed, by simp [Grammar.mixed], rfl, rfl⟩, ?_⟩
  have hends : ((candidates (ν := String) Grammar.mixed ⟨3, 1000⟩ 0 #["a", "y"]).map
      fun cs => (matchesOf cs).map Prod.snd).toOption = some [1] := by
    decide +kernel
  have hends' : ((candidates (ν := String) Grammar.mixed ⟨3, 1000⟩ 7 #["a", "y"]).map
      fun cs => (matchesOf cs).map Prod.snd).toOption = some [2, 1] := by
    decide +kernel
  obtain ⟨cs, hcs, hstops⟩ := exists_ok_of_toOption_map hends
  obtain ⟨cs', hcs', hstops'⟩ := exists_ok_of_toOption_map hends'
  exact ⟨cs, cs', hcs, hcs', hstops, hstops'⟩

end ReversibleGrammar
