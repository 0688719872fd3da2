/-
Chains: sums that nest to the left only.

If the right operand of a sum is a term, an expression is a term with any number of
signs and terms after it, and it nests to the left.

* `Sums.chain` — the tree of a chain, from its first token and the pairs after it;
* `Sums.mem_level_chain` — the levels of an expression at the first token are the chains that
  the input starts with;
* `parseAll_chain` — an input is parsed as the one chain that it is, or not at all.
-/
import ReversibleGrammar.Proofs.LeftRecursion.Levels
import ReversibleGrammar.Proofs.Recognizer.Answer

namespace ReversibleGrammar

namespace Sums

variable {τ ν : Type} [Token τ ν] (plus operand : String)

/-- The tokens of a chain: an operand, and pairs of a sign and an operand. -/
def chainTokens (first : τ) (rest : List (τ × τ)) : List τ :=
  first :: rest.flatMap fun x => [x.1, x.2]

/-- The first token is an operand, and so is the second of each pair; the first of each pair is a
sign. -/
structure IsChain (first : τ) (rest : List (τ × τ)) : Prop where
  first : Token.is first operand = true
  rest : ∀ x ∈ rest, Token.is x.1 plus = true ∧ Token.is x.2 operand = true

/-- A sum of a chain and one term more. -/
def chainStep (t : Tree ν) (x : τ × τ) : Tree ν :=
  .choice expression 0 (.sequence sum [.wrapped left t, .leaf (sign plus) (Token.value x.1),
    .wrapped (right 1) (.leaf (term operand) (Token.value x.2))])

/-- The tree of a chain, nested to the left. -/
def chain (first : τ) (rest : List (τ × τ)) : Tree ν :=
  rest.foldl (chainStep plus operand)
    (.choice expression 1 (.wrapped single (.leaf (term operand) (Token.value first))))

variable {plus operand} {tokens : Array τ} {first : τ} {rest : List (τ × τ)} {x : τ × τ}

theorem chain_concat (first : τ) (rest : List (τ × τ)) (x : τ × τ) :
    chain plus operand first (rest ++ [x]) =
      chainStep (ν := ν) plus operand (chain plus operand first rest) x := by
  rw [chain, List.foldl_concat, chain]

theorem chainTokens_concat (first : τ) (rest : List (τ × τ)) (x : τ × τ) :
    chainTokens first (rest ++ [x]) = chainTokens first rest ++ [x.1] ++ [x.2] := by
  simp [chainTokens]

theorem length_chainTokens (first : τ) (rest : List (τ × τ)) :
    (chainTokens first rest).length = 2 * rest.length + 1 := by
  simp [chainTokens, List.length_flatMap]
  omega

/-! ### Chains that the input starts with -/

/-- The input starts with the chain. -/
structure StartsWith (plus operand : String) (tokens : Array τ) (first : τ) (rest : List (τ × τ)) :
    Prop where
  isChain : IsChain plus operand first rest
  tokens : chainTokens first rest <+: tokens.toList

theorem prefix_concat_iff {α : Type} {xs ys : List α} {y : α} :
    xs ++ [y] <+: ys ↔ xs <+: ys ∧ ys[xs.length]? = some y := by
  constructor
  · rintro ⟨zs, rfl⟩
    exact ⟨⟨y :: zs, by simp⟩, by simp⟩
  · rintro ⟨⟨zs, rfl⟩, hy⟩
    cases zs with
    | nil => simp at hy
    | cons z zs =>
      obtain rfl : z = y := by simpa using hy
      exact ⟨zs, by simp⟩

theorem startsWith_nil : StartsWith plus operand tokens first [] ↔
    tokens[0]? = some first ∧ Token.is first operand = true := by
  have hbegins : chainTokens first [] <+: tokens.toList ↔ tokens[0]? = some first := by
    have h : [] ++ [first] <+: tokens.toList ↔ _ := prefix_concat_iff
    simpa [chainTokens] using h
  exact ⟨fun h => ⟨hbegins.1 h.tokens, h.isChain.first⟩,
    fun h => ⟨⟨h.2, nofun⟩, hbegins.2 h.1⟩⟩

theorem isChain_concat : IsChain plus operand first (rest ++ [x]) ↔
    IsChain plus operand first rest ∧ Token.is x.1 plus = true ∧ Token.is x.2 operand = true := by
  constructor
  · intro h
    exact ⟨⟨h.first, fun y hy => h.rest y (List.mem_append_left _ hy)⟩,
      h.rest x (List.mem_append_right _ (List.mem_singleton_self x))⟩
  · rintro ⟨h, hx⟩
    refine ⟨h.first, fun y hy => ?_⟩
    rcases List.mem_append.1 hy with hy | hy
    · exact h.rest y hy
    · rw [List.mem_singleton.1 hy]
      exact hx

theorem startsWith_concat : StartsWith plus operand tokens first (rest ++ [x]) ↔
    StartsWith plus operand tokens first rest ∧
      (tokens[2 * rest.length + 1]? = some x.1 ∧ Token.is x.1 plus = true) ∧
        tokens[2 * rest.length + 1 + 1]? = some x.2 ∧ Token.is x.2 operand = true := by
  have hbegins : chainTokens first (rest ++ [x]) <+: tokens.toList ↔
      (chainTokens first rest <+: tokens.toList ∧ tokens[2 * rest.length + 1]? = some x.1) ∧
        tokens[2 * rest.length + 1 + 1]? = some x.2 := by
    rw [chainTokens_concat, prefix_concat_iff, prefix_concat_iff, List.length_append,
      length_chainTokens, Array.getElem?_toList, Array.getElem?_toList]
    rfl
  constructor
  · rintro ⟨hchain, htokens⟩
    obtain ⟨hchain, hsign, hoperand⟩ := isChain_concat.1 hchain
    obtain ⟨⟨htokens, hfst⟩, hsnd⟩ := hbegins.1 htokens
    exact ⟨⟨hchain, htokens⟩, ⟨hfst, hsign⟩, hsnd, hoperand⟩
  · rintro ⟨⟨hchain, htokens⟩, ⟨hfst, hsign⟩, hsnd, hoperand⟩
    exact ⟨isChain_concat.2 ⟨hchain, hsign, hoperand⟩, hbegins.2 ⟨⟨htokens, hfst⟩, hsnd⟩⟩

/-- The levels at the first token are the chains that the input starts with. -/
theorem mem_level_chain (plus operand : String) (tokens : Array τ) (k : Nat) {y : Tree ν × Nat} :
    y ∈ level 1 plus operand tokens ((Grammar.sums 1 plus operand).readings tokens 2) k 0 ↔
      ∃ first rest, StartsWith plus operand tokens first rest ∧ rest.length < k ∧
        y = (chain plus operand first rest, 2 * rest.length + 1) := by
  induction k generalizing y with
  | zero => simp [level]
  | succ k ih =>
    rw [mem_level_succ]
    constructor
    · rintro (⟨w, hw, z, hz, v, hv, rfl⟩ | ⟨v, hv, rfl⟩)
      · -- a chain with one term more
        obtain ⟨first, rest, hstarts, hlength, rfl⟩ := ih.1 hw
        obtain ⟨s, hs, hsign, rfl⟩ := mem_readings_sign.1 hz
        obtain ⟨a, ha, hterm, rfl⟩ := (mem_readings_term (p := right 1) rfl rfl).1 hv
        refine ⟨first, rest ++ [(s, a)],
          startsWith_concat.2 ⟨hstarts, ⟨hs, hsign⟩, ha, hterm⟩, ?_, ?_⟩
        · rw [List.length_append]
          exact Nat.succ_lt_succ hlength
        · rw [chain_concat, List.length_append]
          rfl
      · -- a single term
        obtain ⟨a, ha, hterm, rfl⟩ := (mem_readings_term (p := single) rfl rfl).1 hv
        exact ⟨a, [], startsWith_nil.2 ⟨ha, hterm⟩, Nat.succ_pos k, rfl⟩
    · rintro ⟨first, rest, hstarts, hlength, rfl⟩
      rcases List.eq_nil_or_concat rest with rfl | ⟨rest, x, rfl⟩
      · obtain ⟨htoken, hterm⟩ := startsWith_nil.1 hstarts
        exact .inr ⟨_, (mem_readings_term rfl rfl).2 ⟨first, htoken, hterm, rfl⟩, rfl⟩
      · rw [List.concat_eq_append] at hstarts hlength ⊢
        obtain ⟨hstarts, ⟨hfst, hsign⟩, hsnd, hoperand⟩ := startsWith_concat.1 hstarts
        rw [List.length_append] at hlength
        have hw := ih.2 ⟨first, rest, hstarts, Nat.lt_of_succ_lt_succ hlength, rfl⟩
        refine .inl ⟨_, hw, _, mem_readings_sign.2 ⟨x.1, hfst, hsign, rfl⟩, _,
          (mem_readings_term (p := right 1) rfl rfl).2 ⟨x.2, hsnd, hoperand, rfl⟩, ?_⟩
        rw [chain_concat, List.length_append]
        rfl

theorem chainTokens_inj {first first' : τ} {rest rest' : List (τ × τ)}
    (h : chainTokens first rest = chainTokens first' rest') : first = first' ∧ rest = rest' := by
  have hlength := congrArg List.length h
  rw [length_chainTokens, length_chainTokens] at hlength
  obtain ⟨hfirst, hpairs⟩ := List.cons.inj h
  refine ⟨hfirst, ?_⟩
  clear h hfirst
  induction rest generalizing rest' with
  | nil => exact (List.length_eq_zero_iff.1 (by simpa using hlength)).symm
  | cons x rest ih =>
    obtain ⟨x', rest', rfl⟩ := List.exists_cons_of_ne_nil (l := rest') fun hnil => by
      simp [hnil] at hlength
    simp only [List.flatMap_cons, List.cons_append, List.nil_append, List.cons.injEq] at hpairs
    obtain ⟨hfst, hsnd, hpairs⟩ := hpairs
    rw [Prod.ext hfst hsnd, ih (by simpa using hlength) hpairs]

/-- A chain that takes the whole input is the only one. -/
theorem mem_wholeTrees_chain (plus operand : String) (tokens : Array τ) {t : Tree ν} :
    t ∈ wholeTrees tokens.size (level 1 plus operand tokens
        ((Grammar.sums 1 plus operand).readings tokens 2) (tokens.size + 2) 0) ↔
      ∃ first rest, IsChain plus operand first rest ∧ tokens.toList = chainTokens first rest ∧
        t = chain plus operand first rest := by
  rw [mem_wholeTrees, mem_level_chain]
  constructor
  · rintro ⟨first, rest, ⟨hchain, hbegins⟩, -, heq⟩
    obtain ⟨rfl, hsize⟩ := Prod.ext_iff.1 heq
    refine ⟨first, rest, hchain, (hbegins.eq_of_length ?_).symm, rfl⟩
    rw [length_chainTokens, Array.length_toList]
    exact hsize.symm
  · rintro ⟨first, rest, hchain, htokens, rfl⟩
    have hsize : tokens.size = 2 * rest.length + 1 := by
      rw [← Array.length_toList, htokens, length_chainTokens]
    refine ⟨first, rest, ⟨hchain, htokens ▸ List.prefix_rfl⟩, by omega, ?_⟩
    rw [hsize]

/-! ### Parsing -/

/-- What is remembered of tokens, and of references to them, are their matches. -/
def Calm (ν : Type) [Token τ ν] (plus operand : String) (tokens : Array τ) : Tables → Prop :=
  Tables.Plain (ν := ν) (.sums 1 plus operand) tokens [1, 2, 4, 6] fun t => t.store.Sound

theorem calm_ignores (plus operand : String) (tokens : Array τ) (i : Nat) :
    Tables.Ignores (Recurring i) (Calm ν plus operand tokens) := by
  refine Tables.Plain.ignores (Tables.ignores_sound _) fun id hid j hrecurring => ?_
  rcases hrecurring with h | h | h <;> cases h <;> simp at hid

/-- An expression that is called at the first token lists the chains that the input starts with. -/
theorem chain_answers (plus operand : String) (tokens : Array τ) :
    (Task.call 5 0 []).Ensures (.sums 1 plus operand) (.ofTokens tokens) (fun _ => False) .empty
      (Tables.empty.Answered (.sums 1 plus operand) tokens (Calm ν plus operand tokens) 5
        (level 1 plus operand tokens ((Grammar.sums 1 plus operand).readings tokens 2)
          (tokens.size + 2) 0)) := by
  have hRest : Tables.Ignores (fun site => ∃ id ∈ [1, 2, 4, 6], site.recognizer = .pattern id)
      fun t => t.store.Sound := Tables.ignores_sound _
  have hempty : Calm ν plus operand tokens .empty := Tables.plain_empty Store.sound_empty
  -- the first call has nothing behind it, and may call itself as often as any expression may
  exact level_answers (calm_ignores plus operand tokens 0) (Grammar.readings_distinct _ tokens 2)
    (fun inner _ => term_answers hRest (by decide) (by decide) rfl rfl rfl inner 0)
    (fun k inner _ x _ => Tables.Plain.consume_answers hRest (by decide) rfl rfl rfl inner x.2)
    (fun k inner _ x _ z _ => term_answers hRest (by decide) (by decide) rfl rfl rfl inner z.2)
    (Nat.zero_add _) (fun _ _ => rfl) nofun .empty (descending_empty hempty 0)

end Sums

open Sums

/-- A left-recursive chain is parsed as its one tree, which nests to the left, and any other input
is not matched. -/
theorem parseAll_chain {τ ν : Type} [Token τ ν] (plus operand : String) (tokens : Array τ) :
    ∃ fuel, ∀ config : ParserConfig, fuel ≤ config.fuel →
      (∀ first rest, IsChain plus operand first rest → tokens.toList = chainTokens first rest →
        parseAll (.sums 1 plus operand) config 5 tokens =
          .ok [chain (ν := ν) plus operand first rest]) ∧
      ((∀ first rest, IsChain plus operand first rest → tokens.toList ≠ chainTokens first rest) →
        ∃ failures, parseAll (ν := ν) (.sums 1 plus operand) config 5 tokens =
          .error (.noMatch failures)) := by
  let ys : List (Tree ν × Nat) := level 1 plus operand tokens
    ((Grammar.sums 1 plus operand).readings tokens 2) (tokens.size + 2) 0
  have hnodup : (ys.map Prod.fst).Nodup :=
    level_nodup (Grammar.readings_distinct _ tokens 2) (tokens.size + 2) 0
  have hmem (t : Tree ν) : t ∈ wholeTrees tokens.size ys ↔ ∃ first rest,
      IsChain plus operand first rest ∧ tokens.toList = chainTokens first rest ∧
        t = chain plus operand first rest := mem_wholeTrees_chain plus operand tokens
  obtain ⟨fuel, hfuel⟩ := exists_parsesTo (Grammar.built_sums_term plus operand).closed
    (Grammar.noThunkCycle_sums 1 plus operand) (by simp [Grammar.sums])
    (calm_ignores plus operand tokens 0).stable hnodup (chain_answers plus operand tokens)
  refine ⟨fuel, fun config hle => ⟨fun first rest hchain htokens => ?_, fun hnone => ?_⟩⟩
  · -- the tokens determine the chain, and no tree is listed twice
    have hwhole : wholeTrees tokens.size ys = [chain plus operand first rest] := by
      rw [← List.perm_singleton,
        List.perm_ext_iff_of_nodup (wholeTrees_nodup hnodup tokens.size) (List.nodup_singleton _)]
      intro t
      rw [hmem, List.mem_singleton]
      constructor
      · rintro ⟨first', rest', -, htokens', rfl⟩
        obtain ⟨rfl, rfl⟩ := chainTokens_inj (htokens.symm.trans htokens')
        rfl
      · rintro rfl
        exact ⟨first, rest, hchain, htokens, rfl⟩
    exact ((hfuel config hle).trees _ _ hwhole).1
  · have hwhole : wholeTrees tokens.size ys = [] := by
      rw [List.eq_nil_iff_forall_not_mem]
      intro t ht
      obtain ⟨first, rest, hchain, htokens, -⟩ := (hmem t).1 ht
      exact hnone first rest hchain htokens
    exact ((hfuel config hle).noMatch hwhole).1

/-- A chain of two terms is parsed as its one tree, and a sign without a term after it is not
matched. -/
theorem parseAll_chain_pair :
    (∃ fuel, ∀ config : ParserConfig, fuel ≤ config.fuel →
      parseAll (.sums 1 "+" "a") config 5 #["a", "+", "a"] =
        .ok [chain (ν := String) "+" "a" "a" [("+", "a")]]) ∧
    ∃ fuel, ∀ config : ParserConfig, fuel ≤ config.fuel →
      ∃ failures, parseAll (ν := String) (.sums 1 "+" "a") config 5 #["a", "+"] =
        .error (.noMatch failures) := by
  obtain ⟨fuel, hfuel⟩ := parseAll_chain "+" "a" #["a", "+", "a"]
  obtain ⟨fuel', hfuel'⟩ := parseAll_chain "+" "a" #["a", "+"]
  refine ⟨⟨fuel, fun config hle => ?_⟩, fuel', fun config hle => ?_⟩
  · exact (hfuel config hle).1 "a" [("+", "a")] ⟨rfl, by simp [Token.is]⟩ rfl
  · refine (hfuel' config hle).2 fun first rest _ htokens => ?_
    have hlength := congrArg List.length htokens
    rw [length_chainTokens] at hlength
    have htwo : (#["a", "+"] : Array String).toList.length = 2 := rfl
    omega

end ReversibleGrammar
