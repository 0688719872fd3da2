/-
The shapes of ambiguous sums.

If both operands of a sum are expressions, operands with signs between them are a sum in as
many ways as there are binary trees with these leaves.

* `Sums.alternation` — operands with signs between them;
* `Sums.ofShape` — the tree of a sum, from the binary tree that is its shape;
* `Sums.length_of_mem_iff` — there are as many as the Catalan number says;
* `Sums.readingsAt` — the matches of an expression at a position;
* `Sums.mem_readingsAt` — they are the trees of all shapes that fit into the input.
-/
import Mathlib.Combinatorics.Enumerative.Catalan.Tree
import ReversibleGrammar.Proofs.LeftRecursion.Levels

namespace ReversibleGrammar

namespace Sums

variable {τ ν : Type} [Token τ ν]

/-! ### Shapes -/

/-- An operand, and `n` times a sign and an operand: the first tokens of a sequence. -/
def alternation (token : Nat → τ) (n : Nat) : Array τ :=
  Array.ofFn fun i : Fin (2 * n + 1) => token i

/-- Every other token is an operand, and those in between are signs. -/
structure Alternates (plus operand : String) (token : Nat → τ) (n : Nat) : Prop where
  operand : ∀ m ≤ n, Token.is (token (2 * m)) operand = true
  sign : ∀ m < n, Token.is (token (2 * m + 1)) plus = true

/-- The tree of a sum with the shape, from the operand with this number on. -/
def ofShape (plus operand : String) (token : Nat → τ) : Nat → BinaryTree Unit → Tree ν
  | m, .nil => .choice expression 1
    (.wrapped single (.leaf (term operand) (Token.value (token (2 * m)))))
  | m, .node _ l r => .choice expression 0 (.sequence sum
    [.wrapped left (ofShape plus operand token m l),
      .leaf (sign plus) (Token.value (token (2 * (m + l.numNodes) + 1))),
      .wrapped (right 0) (ofShape plus operand token (m + l.numNodes + 1) r)])

/-- Different shapes have different trees. -/
theorem ofShape_injective (plus operand : String) (token : Nat → τ) (m : Nat) :
    Function.Injective (ofShape (ν := ν) plus operand token m) := by
  intro s
  induction s generalizing m with
  | nil =>
    intro s' h
    cases s' with
    | nil => rfl
    | node => cases h
  | node _ l r ihl ihr =>
    intro s' h
    cases s' with
    | nil => cases h
    | node _ l' r' =>
      simp only [ofShape, Tree.choice.injEq, Tree.sequence.injEq, List.cons.injEq,
        Tree.wrapped.injEq, true_and, and_true] at h
      obtain ⟨hl, -, hr⟩ := h
      -- the left operand tells where the right operand starts
      obtain rfl := ihl m hl
      rw [ihr _ hr]

theorem exists_shape (n : Nat) : ∃ s : BinaryTree Unit, s.numNodes = n := by
  induction n with
  | zero => exact ⟨.nil, rfl⟩
  | succ n ih =>
    obtain ⟨s, rfl⟩ := ih
    exact ⟨.node () s .nil, rfl⟩

/-- The trees of the shapes with `n` nodes are as many as there are such shapes. -/
theorem length_of_mem_iff {plus operand : String} {token : Nat → τ} {n : Nat}
    {trees : List (Tree ν)} (hnodup : trees.Nodup)
    (hmem : ∀ t, t ∈ trees ↔ ∃ s : BinaryTree Unit, s.numNodes = n ∧
      t = ofShape plus operand token 0 s) : trees.length = catalan n := by
  have hinjective := ofShape_injective (ν := ν) plus operand token 0
  have hperm : trees.Perm
      ((BinaryTree.treesOfNumNodesEq n).toList.map (ofShape plus operand token 0)) := by
    refine (List.perm_ext_iff_of_nodup hnodup ((Finset.nodup_toList _).map hinjective)).2
      fun t => ?_
    simp only [hmem, List.mem_map, Finset.mem_toList, BinaryTree.mem_treesOfNumNodesEq, eq_comm]
  rw [hperm.length_eq, List.length_map, Finset.length_toList,
    BinaryTree.treesOfNumNodesEq_card_eq_catalan]

/-- How often the shape nests to the left. -/
def leftDepth : BinaryTree Unit → Nat
  | .nil => 0
  | .node _ l _ => leftDepth l + 1

theorem leftDepth_le_numNodes (s : BinaryTree Unit) : leftDepth s ≤ s.numNodes := by
  induction s with
  | nil => exact le_rfl
  | node _ l r ihl ihr =>
    rw [leftDepth, BinaryTree.numNodes]
    omega

/-! ### What is matched -/

variable (plus operand : String) (tokens : Array τ)

/-- The matches of tokens and terms, and those of right operands, given those of expressions. -/
def withRight (xs : Nat → List (Tree ν × Nat)) : Readings ν :=
  withReference 2 (right 0) ((Grammar.sums 0 plus operand).readings tokens 2) xs

/-- The matches of an expression at a position. -/
def readingsAt (i : Nat) : List (Tree ν × Nat) :=
  level 0 plus operand tokens
    (withRight plus operand tokens fun j =>
      if _h : i < j ∧ j < tokens.size then readingsAt j else [])
    (tokens.size - i + 2) i
termination_by tokens.size - i
decreasing_by omega

/-- The matches of right operands at a position. -/
def rightReadings (i : Nat) : List (Tree ν × Nat) :=
  (readingsAt plus operand tokens i).map fun y => (.wrapped (right 0) y.1, y.2)

/-- The matches of what an expression at the position calls, apart from itself. -/
def readingsFrom (i : Nat) : Readings ν :=
  withRight plus operand tokens fun j =>
    if i < j ∧ j < tokens.size then readingsAt plus operand tokens j else []

variable {plus operand tokens} {token : Nat → τ} {n : Nat}

theorem readingsAt_eq (plus operand : String) (tokens : Array τ) (i : Nat) :
    readingsAt (ν := ν) plus operand tokens i = level 0 plus operand tokens
      (readingsFrom plus operand tokens i) (tokens.size - i + 2) i := by
  rw [readingsAt]
  rfl

theorem readingsFrom_of_ne {id : PatternId} (hid : id ≠ 2) (i : Nat) :
    readingsFrom (ν := ν) plus operand tokens i id =
      (Grammar.sums 0 plus operand).readings tokens 2 id := by
  rw [readingsFrom, withRight, withReference, Function.update_of_ne hid]

theorem readingsFrom_distinct (plus operand : String) (tokens : Array τ) (i : Nat)
    (hnodup : ∀ j, i < j → j < tokens.size →
      ((readingsAt (ν := ν) plus operand tokens j).map Prod.fst).Nodup) :
    (readingsFrom (ν := ν) plus operand tokens i).Distinct := by
  refine distinct_withReference 2 (right 0) (Grammar.readings_distinct _ tokens 2) fun j => ?_
  split
  · rename_i hj
    exact hnodup j hj.1 hj.2
  · exact List.nodup_nil

theorem readingsAt_nodup (plus operand : String) (tokens : Array τ) (i : Nat) :
    ((readingsAt (ν := ν) plus operand tokens i).map Prod.fst).Nodup := by
  induction hsize : tokens.size - i using Nat.strong_induction_on generalizing i with
  | _ _ ih =>
    rw [readingsAt_eq]
    refine level_nodup (readingsFrom_distinct plus operand tokens i fun j hij hj => ?_) _ i
    exact ih (tokens.size - j) (by omega) j rfl

theorem alternation_getElem? {i : Nat} {t : τ} :
    (alternation token n)[i]? = some t ↔ i < 2 * n + 1 ∧ token i = t := by
  rw [alternation, Array.getElem?_ofFn]
  simp

theorem readingsFrom_right {i m : Nat} (him : i < 2 * m) (hm : m ≤ n) :
    readingsFrom (ν := ν) plus operand (alternation token n) i 2 (2 * m) =
      rightReadings plus operand (alternation token n) (2 * m) := by
  have hsize : (alternation token n).size = 2 * n + 1 := Array.size_ofFn
  rw [readingsFrom, withRight, withReference, Function.update_self, if_pos ⟨him, by omega⟩,
    rightReadings]

/-- The levels of an expression at an operand are the trees of the shapes that fit, by how often
they nest to the left, if that holds of the operands after it. -/
theorem mem_level (h : Alternates plus operand token n) {m : Nat}
    (hright : ∀ m', m < m' → m' ≤ n → ∀ y : Tree ν × Nat,
      y ∈ readingsAt plus operand (alternation token n) (2 * m') ↔ ∃ s : BinaryTree Unit,
        m' + s.numNodes ≤ n ∧ y = (ofShape plus operand token m' s, 2 * (m' + s.numNodes) + 1))
    (hm : m ≤ n) (k : Nat) {y : Tree ν × Nat} :
    y ∈ level 0 plus operand (alternation token n)
        (readingsFrom plus operand (alternation token n) (2 * m)) k (2 * m) ↔
      ∃ s : BinaryTree Unit, leftDepth s < k ∧ m + s.numNodes ≤ n ∧
        y = (ofShape plus operand token m s, 2 * (m + s.numNodes) + 1) := by
  have hsign : (1 : PatternId) ≠ 2 := by decide
  have hsingle : (4 : PatternId) ≠ 2 := by decide
  have hnodes (l r : BinaryTree Unit) :
      (BinaryTree.node () l r).numNodes = l.numNodes + r.numNodes + 1 := rfl
  have hstop (l : BinaryTree Unit) :
      2 * (m + l.numNodes) + 1 + 1 = 2 * (m + l.numNodes + 1) := by omega
  have hend (l r : BinaryTree Unit) : 2 * (m + l.numNodes + 1 + r.numNodes) + 1 =
      2 * (m + (BinaryTree.node () l r).numNodes) + 1 := by
    rw [hnodes]
    omega
  induction k generalizing y with
  | zero => simp [level]
  | succ k ih =>
    rw [mem_level_succ, readingsFrom_of_ne hsign, readingsFrom_of_ne hsingle]
    constructor
    · rintro (⟨x, hx, z, hz, v, hv, rfl⟩ | ⟨x, hx, rfl⟩)
      · -- a sum, whose left operand is of the level before
        obtain ⟨l, hdepth, hl, rfl⟩ := ih.1 hx
        obtain ⟨_, htoken, -, rfl⟩ := mem_readings_sign.1 hz
        obtain ⟨hlt, rfl⟩ := alternation_getElem?.1 htoken
        dsimp only at hlt hv
        rw [hstop, readingsFrom_right (by omega) (by omega)] at hv
        obtain ⟨w, hw, rfl⟩ := List.mem_map.1 hv
        obtain ⟨r, hr, rfl⟩ := (hright _ (by omega) (by omega) w).1 hw
        refine ⟨.node () l r, Nat.succ_lt_succ hdepth, ?_, ?_⟩
        · rw [hnodes]
          omega
        · rw [hend]
          rfl
      · -- a single term
        obtain ⟨_, htoken, -, rfl⟩ := (mem_readings_term (p := single) rfl rfl).1 hx
        obtain ⟨-, rfl⟩ := alternation_getElem?.1 htoken
        exact ⟨.nil, Nat.succ_pos k, hm, rfl⟩
    · rintro ⟨s, hdepth, hs, rfl⟩
      cases s with
      | nil =>
        have htoken : (alternation token n)[2 * m]? = some (token (2 * m)) :=
          alternation_getElem?.2 ⟨by omega, rfl⟩
        exact .inr ⟨_, (mem_readings_term (p := single) rfl rfl).2
          ⟨token (2 * m), htoken, h.operand m hm, rfl⟩, rfl⟩
      | node _ l r =>
        rw [hnodes] at hs
        have hl := ih.2 ⟨l, Nat.lt_of_succ_lt_succ hdepth, by omega, rfl⟩
        have htoken : (alternation token n)[2 * (m + l.numNodes) + 1]? =
            some (token (2 * (m + l.numNodes) + 1)) := alternation_getElem?.2 ⟨by omega, rfl⟩
        have hr := (hright (m + l.numNodes + 1) (by omega) (by omega) _).2 ⟨r, by omega, rfl⟩
        refine .inl ⟨_, hl, _, mem_readings_sign.2
          ⟨_, htoken, h.sign (m + l.numNodes) (by omega), rfl⟩, ?_⟩
        dsimp only
        rw [hstop, readingsFrom_right (by omega) (by omega), ← hend]
        exact ⟨_, List.mem_map.2 ⟨_, hr, rfl⟩, rfl⟩

/-- The matches of an expression at an operand are the trees of the shapes that fit. -/
theorem mem_readingsAt (h : Alternates plus operand token n) {m : Nat} (hm : m ≤ n)
    {y : Tree ν × Nat} : y ∈ readingsAt plus operand (alternation token n) (2 * m) ↔
      ∃ s : BinaryTree Unit, m + s.numNodes ≤ n ∧
        y = (ofShape plus operand token m s, 2 * (m + s.numNodes) + 1) := by
  induction hsize : n - m using Nat.strong_induction_on generalizing m y with
  | _ _ ih =>
    have hlevels : (alternation token n).size = 2 * n + 1 := Array.size_ofFn
    rw [readingsAt_eq, mem_level h (fun m' hlt hle y => ih (n - m') (by omega) hle rfl) hm]
    constructor
    · rintro ⟨s, -, hs, rfl⟩
      exact ⟨s, hs, rfl⟩
    · rintro ⟨s, hs, rfl⟩
      have hdepth := leftDepth_le_numNodes s
      exact ⟨s, by omega, hs, rfl⟩

end Sums

end ReversibleGrammar
