/-
Ambiguous sums are parsed in all ways.

While an expression at one operand is matched, the right operands of its sums start at later
operands.  Each of these is matched when it is first called, and from then on what is
remembered of it is given again: no context has reached its position, so that nothing is held
back.

* `Sums.Fresh`, `Sums.Filled` — nothing, or everything, is remembered of a position;
* `Sums.Within` — while an expression is matched, all later operands are in one of these states;
* `Sums.right_answers` — a call of a right operand keeps it that way;
* `parseAll_sum` — sums are parsed as the trees of all shapes.
-/
import ReversibleGrammar.Proofs.LeftRecursion.Shapes
import ReversibleGrammar.Proofs.Recognizer.Answer

namespace ReversibleGrammar

namespace Sums

variable {τ ν : Type} [Token τ ν]

/-! ### Positions before and after the first call -/

/-- Nothing has been called at the position, apart from tokens and terms. -/
structure Fresh (t : Tables) (i : Nat) : Prop where
  expression : t.counts.getD ⟨i, .pattern 5⟩ 0 = 0
  sum : t.counts.getD ⟨i, .pattern 3⟩ 0 = 0
  memo : ∀ id ∈ [0, 2, 3, 5], t.memo[(⟨i, .pattern id⟩ : Site)]? = none

/-- The matches of right operands at the position are remembered. -/
def Filled (ν : Type) [Token τ ν] (plus operand : String) (tokens : Array τ) (t : Tables)
    (i : Nat) : Prop :=
  ∃ set, t.memo[(⟨i, .pattern 2⟩ : Site)]? = some set ∧
    t.store.Lists (t.store.Reads (ν := ν) (.sums 0 plus operand) tokens 2) set.toList
      (rightReadings plus operand tokens i)

/-- The site is one of a token or a term. -/
def IsPlain (site : Site) : Prop := ∃ id ∈ [1, 4, 6], site.recognizer = .pattern id

section

variable {plus operand : String} {tokens : Array τ} {P : Site → Prop} {t u : Tables} {i : Nat}

theorem Fresh.of_apart (h : Fresh t i) (happart : t.Apart P u)
    (hP : ∀ id ∈ [0, 2, 3, 5], ¬ P ⟨i, .pattern id⟩) : Fresh u i where
  expression := (happart.counts (hP 5 (by decide))).trans h.expression
  sum := (happart.counts (hP 3 (by decide))).trans h.sum
  memo id hid := (happart.memo (hP id hid)).trans (h.memo id hid)

theorem Filled.of_apart (hs : t.store.Sound) (h : Filled ν plus operand tokens t i)
    (happart : t.Apart P u) (hP : ¬ P ⟨i, .pattern 2⟩) : Filled ν plus operand tokens u i := by
  obtain ⟨set, hset, hlists⟩ := h
  exact ⟨set, (happart.memo hP).trans hset, hlists.reads_mono hs happart.grows⟩

theorem known_of_apart (hs : t.store.Sound)
    (h : Fresh t i ∨ Filled ν plus operand tokens t i) (happart : t.Apart P u)
    (hP : ∀ id ∈ [0, 2, 3, 5], ¬ P ⟨i, .pattern id⟩) :
    Fresh u i ∨ Filled ν plus operand tokens u i :=
  h.imp (fun h => h.of_apart happart hP) fun h => h.of_apart hs happart (hP 2 (by decide))

/-- Matches of right operands that come of a first call are remembered. -/
theorem filled_record {results : List ResultId}
    (hnone : t.memo[(⟨i, .pattern 2⟩ : Site)]? = none)
    (hlists : t.store.Lists (t.store.Reads (.sums 0 plus operand) tokens 2) results
      (rightReadings (ν := ν) plus operand tokens i)) :
    Filled ν plus operand tokens (t.record ⟨i, .pattern 2⟩ results) i := by
  have hknown : t.memo.getD ⟨i, .pattern 2⟩ .empty = .empty := by
    rw [Std.TreeMap.getD_eq_getD_getElem?, hnone]
    rfl
  have hnodup : ((rightReadings (ν := ν) plus operand tokens i).map Prod.fst).Nodup :=
    nodup_wrapped (right 0) (readingsAt_nodup plus operand tokens i)
  refine ⟨_, memo_record_self t ⟨i, .pattern 2⟩ results, ?_⟩
  rw [hknown]
  exact hlists.of_successes.ofList (fun _ _ _ => Store.Reads.unique) hnodup

/-- What is remembered of right operands is given again to a context that has not come so far. -/
theorem Filled.replay_eq (h : Filled ν plus operand tokens t i) (hs : t.store.Sound)
    (hne : readingsAt (ν := ν) plus operand tokens i ≠ []) {context : Context}
    (hcontext : context.at? i = none) :
    ∃ results, t.replay? ⟨i, .pattern 2⟩ context = some results ∧
      t.store.Lists (t.store.Reads (ν := ν) (.sums 0 plus operand) tokens 2) results
        (rightReadings plus operand tokens i) := by
  obtain ⟨set, hset, hlists⟩ := h
  refine ⟨set.toList, ?_, hlists⟩
  have hempty : set.isEmpty = false := by
    by_contra htrue
    have hnil : set.toList = [] := by simpa [ResultSet.isEmpty, ResultSet.toList] using htrue
    have hreads := hlists.reads
    rw [hnil] at hreads
    exact hne (List.map_eq_nil_iff.1 (List.forall₂_nil_left_iff.1 hreads))
  -- the context has no depths for the position, so that it allows every map
  have hmap : t.store.map emptyMap = [] := Interner.get_eq_of_get? hs.map_empty
  have hallows : ∀ recorded, RecursionMap.allows [] recorded = true := by
    intro recorded
    simp [RecursionMap.allows, RecursionMap.get?]
  simp [Tables.replay?, hset, hcontext, hempty, hmap, hallows]

end

/-! ### While an expression is matched -/

theorem not_isPlain {id : PatternId} (hid : id ∈ [0, 2, 3, 5]) (i : Nat) :
    ¬ IsPlain ⟨i, .pattern id⟩ := by
  have hdisjoint : ∀ id ∈ [0, 2, 3, 5], id ∉ [1, 4, 6] := by decide
  rintro ⟨id', hid', heq⟩
  injection heq with heq
  subst heq
  exact hdisjoint id hid hid'

variable (ν) in
/-- While the expression at an operand is matched, nothing has changed before the operand since the
tables `base`, and the operands after it have been matched or not been called. -/
structure Within (plus operand : String) (token : Nat → τ) (n m : Nat) (base t : Tables) :
    Prop where
  apart : base.Apart (fun site => 2 * m ≤ site.index ∨ IsPlain site) t
  later : ∀ m', m < m' → m' ≤ n →
    Fresh t (2 * m') ∨ Filled ν plus operand (alternation token n) t (2 * m')
  right : t.memo[(⟨2 * m, .pattern 2⟩ : Site)]? = none

variable (ν) in
/-- What is remembered while the expression at an operand is matched. -/
def Memory (plus operand : String) (token : Nat → τ) (n m : Nat) (base : Tables) :
    Tables → Prop :=
  Tables.Plain (ν := ν) (.sums 0 plus operand) (alternation token n) [1, 4, 6]
    (Within ν plus operand token n m base)

variable {plus operand : String} {token : Nat → τ} {n m : Nat} {base : Tables}

theorem within_ignores : Tables.Ignores (fun site => Recurring (2 * m) site ∨ IsPlain site)
    (Within ν plus operand token n m base) where
  sound h := h.apart.sound
  apart {t u} h happart := by
    have hs := h.apart.sound
    refine ⟨h.apart.trans (happart.mono fun site hsite => ?_), fun m' hlt hle => ?_, ?_⟩
    · exact hsite.imp_left fun hrecurring => hrecurring.index_eq.ge
    · have hP : ∀ id ∈ [0, 2, 3, 5], ¬ (Recurring (2 * m) ⟨2 * m', .pattern id⟩ ∨
          IsPlain ⟨2 * m', .pattern id⟩) := by
        rintro id hid (hrecurring | hplain)
        · have hindex : 2 * m' = 2 * m := hrecurring.index_eq
          omega
        · exact not_isPlain hid _ hplain
      exact known_of_apart hs (h.later m' hlt hle) happart hP
    · refine (happart.memo ?_).trans h.right
      rintro (hrecurring | hplain)
      · rcases hrecurring with h | h | h <;> cases h
      · exact not_isPlain (by decide) _ hplain

theorem memory_ignores : Tables.Ignores (Recurring (2 * m))
    (Memory ν plus operand token n m base) := by
  refine Tables.Plain.ignores (within_ignores.mono fun _ => .inl) fun id hid i hrecurring => ?_
  rcases hrecurring with h | h | h <;> cases h <;> simp at hid

theorem ne_right_site {id : PatternId} (hid : id ∈ [1, 4, 6]) (i j : Nat) :
    ¬ (⟨i, .pattern id⟩ : Site) = ⟨j, .pattern 2⟩ := by
  intro heq
  injection heq with _ heq
  injection heq with heq
  rw [heq] at hid
  exact absurd hid (by decide)

/-- A first call of a right operand starts with nothing at its position. -/
theorem descending_entered {m' : Nat} {t : Tables} (ht : Memory ν plus operand token n m base t)
    (hlt : m < m') (hfresh : Fresh t (2 * m')) {store : Store}
    (happart : t.Apart (fun other => other = ⟨2 * m', .pattern 2⟩)
      (t.entered ⟨2 * m', .pattern 2⟩ store)) :
    Descending (Memory ν plus operand token n m' (t.entered ⟨2 * m', .pattern 2⟩ store)) (2 * m')
      0 0 (t.entered ⟨2 * m', .pattern 2⟩ store) := by
  have hs := memory_ignores.sound ht
  have hlater : ∀ m'', m' < m'' → m'' ≤ n →
      Fresh (t.entered ⟨2 * m', .pattern 2⟩ store) (2 * m'') ∨
        Filled ν plus operand (alternation token n) (t.entered ⟨2 * m', .pattern 2⟩ store)
          (2 * m'') := by
    refine fun m'' hm hn => known_of_apart hs (ht.rest.later m'' (by omega) hn) happart ?_
    intro id _ heq
    have hindex : 2 * m'' = 2 * m' := congrArg Site.index heq
    omega
  refine ⟨ht.of_apart hs happart (fun id hid i => ne_right_site hid i _)
    ⟨.refl _ happart.sound, hlater, hfresh.memo 2 (by decide)⟩, ?_, ?_, fun hsite => ?_⟩
  · exact (counts_entered_ne (by simp) store).trans hfresh.expression
  · exact (counts_entered_ne (by simp) store).trans hfresh.sum
  · rcases hsite with rfl | rfl | rfl <;> exact hfresh.memo _ (by decide)

/-- What comes of a first call of a right operand is remembered, and the operands around it are as
they were. -/
theorem memory_record {m' : Nat} (hlt : m < m') {t t' u : Tables}
    (ht : Memory ν plus operand token n m base t)
    (happart : t.Apart (fun other => other = ⟨2 * m', .pattern 2⟩) t')
    (hu : Memory ν plus operand token n m' t' u) {results : List ResultId}
    (hlists : u.store.Lists (u.store.Reads (ν := ν) (.sums 0 plus operand) (alternation token n) 2)
      results (rightReadings plus operand (alternation token n) (2 * m'))) :
    Memory ν plus operand token n m base (u.record ⟨2 * m', .pattern 2⟩ results) := by
  have hs := memory_ignores.sound ht
  have hus := memory_ignores.sound hu
  have hrecord : u.Apart (fun other => other = ⟨2 * m', .pattern 2⟩)
      (u.record ⟨2 * m', .pattern 2⟩ results) := apart_record hus results
  -- all that has changed since the call is at the position of the operand or after it
  have hsince : t.Apart (fun site => 2 * m' ≤ site.index ∨ IsPlain site)
      (u.record ⟨2 * m', .pattern 2⟩ results) := by
    have hself : ∀ site : Site, site = ⟨2 * m', .pattern 2⟩ →
        2 * m' ≤ site.index ∨ IsPlain site := by
      rintro site rfl
      exact .inl le_rfl
    exact ((happart.mono hself).trans hu.rest.apart).trans (hrecord.mono hself)
  have hbefore {i : Nat} (hi : i < 2 * m') : ∀ id ∈ [0, 2, 3, 5],
      ¬ (2 * m' ≤ (⟨i, .pattern id⟩ : Site).index ∨ IsPlain ⟨i, .pattern id⟩) := by
    rintro id hid (hle | hplain)
    · exact absurd hi (not_lt.2 hle)
    · exact not_isPlain hid i hplain
  refine hu.of_apart hus hrecord (fun id hid i => ne_right_site hid i _)
    ⟨?_, fun m'' hm hn => ?_, ?_⟩
  · exact ht.rest.apart.trans (hsince.mono fun site hsite => hsite.imp_left fun hle => by omega)
  · -- operands before this one, this one, and operands after it
    rcases lt_trichotomy m'' m' with hm' | rfl | hm'
    · exact known_of_apart hs (ht.rest.later m'' hm hn) hsince (hbefore (by omega))
    · exact .inr (filled_record hu.rest.right hlists)
    · refine known_of_apart hus (hu.rest.later m'' hm' hn) hrecord fun id _ heq => ?_
      have hindex : 2 * m'' = 2 * m' := congrArg Site.index heq
      omega
  · exact (hsince.memo (hbefore (by omega) 2 (by decide))).trans ht.rest.right

/-- While the expression at an operand is matched, calls of right operands at a later operand list
their matches. -/
def RightAnswers (ν : Type) [Token τ ν] (plus operand : String) (token : Nat → τ) (n m m' : Nat) :
    Prop :=
  ∀ base context, Before (2 * m) context → Answers (ν := ν) (.sums 0 plus operand)
    (alternation token n) (fun _ => False) (Memory ν plus operand token n m base)
    (Memory ν plus operand token n m base) context 2 (2 * m')
    (rightReadings plus operand (alternation token n) (2 * m'))

/-- An expression that is called first at an operand lists its matches, if right operands at the
operands after it list theirs. -/
theorem expression_answers (h : Alternates plus operand token n) (hm : m ≤ n)
    (hright : ∀ m', m < m' → m' ≤ n → RightAnswers ν plus operand token n m m')
    {context : Context} (hcontext : Before (2 * m) context) :
    Answers (ν := ν) (.sums 0 plus operand) (alternation token n) (fun _ => False)
      (Descending (Memory ν plus operand token n m base) (2 * m) 0 0)
      (Memory ν plus operand token n m base) context 5 (2 * m)
      (readingsAt plus operand (alternation token n) (2 * m)) := by
  have hRest : Tables.Ignores (fun site => ∃ id ∈ [1, 4, 6], site.recognizer = .pattern id)
      (Within ν plus operand token n m base) := within_ignores.mono fun _ => .inr
  rw [readingsAt_eq]
  refine level_answers memory_ignores
    (readingsFrom_distinct plus operand _ (2 * m) fun j _ _ => readingsAt_nodup plus operand _ j)
    (fun inner _ => ?_) (fun k inner _ x _ => ?_) (fun k inner hinner x hx z hz => ?_)
    (Nat.zero_add _) hcontext nofun
  · rw [readingsFrom_of_ne (by decide)]
    exact term_answers hRest (by decide) (by decide) rfl rfl rfl inner (2 * m)
  · rw [readingsFrom_of_ne (by decide)]
    exact Tables.Plain.consume_answers hRest (by decide) rfl rfl rfl inner x.2
  · -- the left operand ends before a sign, and the right operand starts after it
    obtain ⟨s, -, hs, rfl⟩ := (mem_level h (fun _ _ hle _ => mem_readingsAt h hle) hm k).1 hx
    rw [readingsFrom_of_ne (by decide)] at hz
    obtain ⟨_, htoken, -, rfl⟩ := mem_readings_sign.1 hz
    obtain ⟨hlt, -⟩ := alternation_getElem?.1 htoken
    have hstop : 2 * (m + s.numNodes) + 1 + 1 = 2 * (m + s.numNodes + 1) := by omega
    dsimp only at hlt ⊢
    rw [hstop, readingsFrom_right (by omega) (by omega)]
    exact hright (m + s.numNodes + 1) (by omega) (by omega) base inner hinner

/-- A right operand lists its matches: those that are remembered, or those of the expression that it
refers to, which are remembered from then on. -/
theorem right_answers (h : Alternates plus operand token n) {m' : Nat} (hlt : m < m')
    (hle : m' ≤ n) : RightAnswers ν plus operand token n m m' := by
  -- right operands inside of it start after it
  induction hsize : n - m' using Nat.strong_induction_on generalizing m m' with
  | _ _ ih =>
    intro base context hcontext t ht
    have hs := memory_ignores.sound ht
    have hp : (Grammar.sums 0 plus operand).pattern? 2 = some (right 0) := rfl
    rcases ht.rest.later m' hlt hle with hfresh | hfilled
    · -- the first call of the operand evaluates it, and remembers what comes of it
      have hnone : t.replay? ⟨2 * m', (right 0).recognizer⟩ context = none :=
        replay?_of_memo_none (hfresh.memo 2 (by decide)) context
      refine ensures_call hp (fun results hreplay => ?_) nofun fun _ _ inner store henter => ?_
      · rw [hnone] at hreplay
        cases hreplay
      · have hbefore : Before (2 * m') context := fun j hj => hcontext j (by omega)
        have happart := apart_entered hs henter
        have hinside (m'' : Nat) (hm : m' < m'') (hn : m'' ≤ n) :=
          ih (n - m'') (by omega) hm hn rfl
        refine (wrapped_ensures memory_ignores.stable hp rfl
          (expression_answers h hle hinside (hbefore.enter henter).1)
          (descending_entered ht hlt hfresh happart)).mono fun results u hu => ?_
        exact ⟨memory_record hlt ht happart hu.inv hu.lists, happart.grows.trans hu.grows, hu.lists⟩
    · -- any later call gives what is remembered, which is not nothing
      have hne : readingsAt (ν := ν) plus operand (alternation token n) (2 * m') ≠ [] :=
        List.ne_nil_of_mem ((mem_readingsAt h hle).2 ⟨.nil, hle, rfl⟩)
      obtain ⟨results, hreplay, hlists⟩ :=
        hfilled.replay_eq hs hne (hcontext (2 * m') (by omega))
      refine ensures_call hp (fun results' hreplay' => ?_) nofun fun hnone => ?_
      · obtain rfl := Option.some.inj (hreplay.symm.trans hreplay')
        exact ⟨ht, .refl _, hlists⟩
      · cases hreplay.symm.trans hnone

/-- Nothing has been called at the start. -/
theorem memory_empty (plus operand : String) (token : Nat → τ) (n : Nat) :
    Memory ν plus operand token n 0 .empty .empty := by
  refine Tables.plain_empty ⟨.refl _ Store.sound_empty, fun m' _ _ => .inl ?_, ?_⟩
  · exact ⟨Std.TreeMap.getD_emptyc, Std.TreeMap.getD_emptyc,
      fun _ _ => Std.TreeMap.getElem?_emptyc⟩
  · exact Std.TreeMap.getElem?_emptyc

end Sums

open Sums

/-- Operands with signs between them are parsed as the trees of all shapes with these leaves, each
of them once. -/
theorem parseAll_sum {τ ν : Type} [Token τ ν] {plus operand : String} {token : Nat → τ} {n : Nat}
    (h : Alternates plus operand token n) :
    ∃ fuel, ∀ config : ParserConfig, fuel ≤ config.fuel → ∃ trees : List (Tree ν),
      parseAll (.sums 0 plus operand) config 5 (alternation token n) = .ok trees ∧ trees.Nodup ∧
        (∀ t, t ∈ trees ↔ ∃ s : BinaryTree Unit, s.numLeaves = n + 1 ∧
          t = ofShape plus operand token 0 s) ∧ trees.length = catalan n := by
  have hsize : (alternation token n).size = 2 * n + 1 := Array.size_ofFn
  let ys : List (Tree ν × Nat) := readingsAt plus operand (alternation token n) (2 * 0)
  have hnodup : (ys.map Prod.fst).Nodup := readingsAt_nodup plus operand _ (2 * 0)
  have hwhole : (wholeTrees (2 * n + 1) ys).Nodup := wholeTrees_nodup hnodup (2 * n + 1)
  have hmem (t : Tree ν) : t ∈ wholeTrees (2 * n + 1) ys ↔ ∃ s : BinaryTree Unit,
      s.numNodes = n ∧ t = ofShape plus operand token 0 s := by
    rw [mem_wholeTrees, mem_readingsAt h (Nat.zero_le n)]
    constructor
    · rintro ⟨s, hs, heq⟩
      obtain ⟨rfl, hstop⟩ := Prod.ext_iff.1 heq
      dsimp only at hstop
      exact ⟨s, by omega, rfl⟩
    · rintro ⟨s, rfl, rfl⟩
      exact ⟨s, by omega, by rw [Nat.zero_add]⟩
  -- the first call is that of an expression at the first operand
  have hbefore : Before (2 * 0) [] := fun _ _ => rfl
  have hanswers := expression_answers (ν := ν) h (Nat.zero_le n)
    (fun m' hm hn => right_answers h hm hn) hbefore .empty
    (descending_empty (memory_empty plus operand token n) (2 * 0))
  obtain ⟨fuel, hfuel⟩ := exists_parsesTo (Grammar.built_sums_expression plus operand).closed
    (Grammar.noThunkCycle_sums 0 plus operand) (by simp [Grammar.sums]) memory_ignores.stable
    hnodup hanswers
  refine ⟨fuel, fun config hle => ⟨wholeTrees (2 * n + 1) ys, ?_, hwhole, fun t => ?_, ?_⟩⟩
  · obtain ⟨s, hs⟩ := exists_shape n
    obtain ⟨tree, trees, htrees⟩ := List.exists_cons_of_ne_nil
      (List.ne_nil_of_mem ((hmem _).2 ⟨s, hs, rfl⟩))
    rw [htrees]
    rw [← hsize] at htrees
    exact ((hfuel config hle).trees tree trees htrees).1
  · simp only [hmem, BinaryTree.numLeaves_eq_numNodes_succ, Nat.add_right_cancel_iff]
  · exact length_of_mem_iff hwhole hmem

/-- A sum of three terms is parsed in two ways. -/
theorem parseAll_sum_three :
    ∃ fuel, ∀ config : ParserConfig, fuel ≤ config.fuel → ∃ trees : List (Tree String),
      parseAll (.sums 0 "+" "a") config 5 #["a", "+", "a", "+", "a"] = .ok trees ∧ trees.Nodup ∧
        trees.length = 2 := by
  let token (i : Nat) : String := if i % 2 = 0 then "a" else "+"
  have hoperand (m : Nat) : token (2 * m) = "a" := if_pos (Nat.mul_mod_right 2 m)
  have hsign (m : Nat) : token (2 * m + 1) = "+" := if_neg (by omega)
  have halternates : Alternates "+" "a" token 2 :=
    ⟨fun m _ => by simp [hoperand, Token.is], fun m _ => by simp [hsign, Token.is]⟩
  obtain ⟨fuel, hfuel⟩ := parseAll_sum (ν := String) halternates
  refine ⟨fuel, fun config hle => ?_⟩
  obtain ⟨trees, htrees, hnodup, -, hlength⟩ := hfuel config hle
  exact ⟨trees, htrees, hnodup, hlength.trans catalan_two⟩

end ReversibleGrammar
