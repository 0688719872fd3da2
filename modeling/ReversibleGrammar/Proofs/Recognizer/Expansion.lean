/-
Fragments written out in full.

A fragment refers to others by number, and a long match grows by one part at a time, so that the
tree that a fragment stands for is nowhere in a store as a whole.  But a fragment refers to smaller
numbers only, and so there is one such tree.  It tells the fragment, since the parts of a repetition
come in turn and equal values have one number.

* `MatchNode`, `Store.node?` — a step of a match with all its parts, which tells its fragment;
* `Expansion`, `Store.Expands` — the tree that a fragment stands for, down to the values of tokens;
* `exists_expands` — every fragment stands for a tree;
* `Store.Expands.unique`, `Store.Expands.inj` — for one only, and no other fragment stands for it.
-/
import ReversibleGrammar.Proofs.Recognizer.Distinct
import ReversibleGrammar.Proofs.Recognizer.Forms

namespace ReversibleGrammar

/-- One step of a match with all its parts, whatever stands for values and for parts. -/
inductive MatchNode (ν α : Type) where
  | leaf (value : ν)
  | sequence (children : List α)
  | choice (index : Nat) (chosen : α)
  | many (items separators : List α)
  | absent
  | present (item : α)
  | wrapped (wrapper : Wrapper) (child : α)
  | mark (marker : Marker)
  deriving DecidableEq

/-- A match with all its parts written out, down to the values of tokens. -/
inductive Expansion (ν : Type) where
  | node (step : MatchNode ν (Expansion ν))

/-- A list whose elements determine those beside them determines the list beside it. -/
theorem eq_of_forall₂ {α β : Type} {R : α → β → Prop} {xs : List α} {ys ys' : List β}
    (hR : ∀ x ∈ xs, ∀ y y', R x y → R x y' → y = y') (h : List.Forall₂ R xs ys)
    (h' : List.Forall₂ R xs ys') : ys = ys' := by
  have hunique : Relator.RightUnique fun x y => x ∈ xs ∧ R x y :=
    fun x y y' hy hy' => hR x hy.1 y y' hy.2 hy'.2
  exact List.right_unique_forall₂' hunique
    (forall₂_imp_of_mem (fun x hx y hxy => ⟨hx, hxy⟩) h)
    (forall₂_imp_of_mem (fun x hx y hxy => ⟨hx, hxy⟩) h')

namespace MatchNode

variable {ν ν' α β : Type}

/-- The parts of a step. -/
def parts : MatchNode ν α → List α
  | sequence children => children
  | choice _ chosen => [chosen]
  | many items separators => items ++ separators
  | present item => [item]
  | wrapped _ child => [child]
  | leaf _ | absent | mark _ => []

/-- The steps are the same but for values and parts, which are related one by one. -/
inductive Related (L : ν → ν' → Prop) (R : α → β → Prop) : MatchNode ν α → MatchNode ν' β → Prop
  | leaf {v : ν} {v' : ν'} (h : L v v') : Related L R (.leaf v) (.leaf v')
  | sequence {children : List α} {children' : List β} (h : List.Forall₂ R children children') :
      Related L R (.sequence children) (.sequence children')
  | choice (index : Nat) {chosen : α} {chosen' : β} (h : R chosen chosen') :
      Related L R (.choice index chosen) (.choice index chosen')
  | many {items separators : List α} {items' separators' : List β}
      (hitems : List.Forall₂ R items items') (hseparators : List.Forall₂ R separators separators') :
      Related L R (.many items separators) (.many items' separators')
  | absent : Related L R .absent .absent
  | present {item : α} {item' : β} (h : R item item') : Related L R (.present item) (.present item')
  | wrapped (wrapper : Wrapper) {child : α} {child' : β} (h : R child child') :
      Related L R (.wrapped wrapper child) (.wrapped wrapper child')
  | mark (marker : Marker) : Related L R (.mark marker) (.mark marker)

variable {L : ν → ν' → Prop} {R : α → β → Prop} {n n' : MatchNode ν α} {m m' : MatchNode ν' β}

theorem exists_related (hvalue : ∀ v, n = .leaf v → ∃ v', L v v')
    (hparts : ∀ x ∈ n.parts, ∃ y, R x y) : ∃ m, n.Related L R m := by
  cases n with
  | leaf v =>
    obtain ⟨v', h⟩ := hvalue v rfl
    exact ⟨_, .leaf h⟩
  | sequence children =>
    obtain ⟨children', h⟩ := exists_forall₂ hparts
    exact ⟨_, .sequence h⟩
  | choice index chosen =>
    obtain ⟨chosen', h⟩ := hparts chosen List.mem_cons_self
    exact ⟨_, .choice index h⟩
  | many items separators =>
    obtain ⟨items', hitems⟩ := exists_forall₂ fun x hx => hparts x (List.mem_append_left _ hx)
    obtain ⟨separators', hseparators⟩ :=
      exists_forall₂ fun x hx => hparts x (List.mem_append_right _ hx)
    exact ⟨_, .many hitems hseparators⟩
  | absent => exact ⟨_, .absent⟩
  | present item =>
    obtain ⟨item', h⟩ := hparts item List.mem_cons_self
    exact ⟨_, .present h⟩
  | wrapped wrapper child =>
    obtain ⟨child', h⟩ := hparts child List.mem_cons_self
    exact ⟨_, .wrapped wrapper h⟩
  | mark marker => exact ⟨_, .mark marker⟩

theorem Related.flip (h : n.Related L R m) : m.Related (fun v' v => L v v') (fun y x => R x y) n := by
  cases h with
  | leaf h => exact .leaf h
  | sequence h => exact .sequence h.flip
  | choice index h => exact .choice index h
  | many hitems hseparators => exact .many hitems.flip hseparators.flip
  | absent => exact .absent
  | present h => exact .present h
  | wrapped wrapper h => exact .wrapped wrapper h
  | mark marker => exact .mark marker

/-- Every part stands for a part. -/
theorem Related.exists_part (h : n.Related L R m) {y : β} (hy : y ∈ m.parts) :
    ∃ x ∈ n.parts, R x y := by
  cases h with
  | sequence h => exact exists_of_forall₂_of_mem h hy
  | many hitems hseparators =>
    rcases List.mem_append.1 hy with hy | hy
    · obtain ⟨x, hx, hxy⟩ := exists_of_forall₂_of_mem hitems hy
      exact ⟨x, List.mem_append_left _ hx, hxy⟩
    · obtain ⟨x, hx, hxy⟩ := exists_of_forall₂_of_mem hseparators hy
      exact ⟨x, List.mem_append_right _ hx, hxy⟩
  | choice _ h | present h | wrapped _ h =>
    rw [List.mem_singleton.1 hy]
    exact ⟨_, List.mem_cons_self, h⟩
  | leaf | absent | mark => cases hy

/-- A step determines the other one if its values and its parts do. -/
theorem Related.right_unique (hL : Relator.RightUnique L)
    (hR : ∀ x ∈ n.parts, ∀ y y', R x y → R x y' → y = y') (h : n.Related L R m)
    (h' : n.Related L R m') : m = m' := by
  cases h with
  | leaf h =>
    cases h' with
    | leaf h' => rw [hL h h']
  | sequence h =>
    cases h' with
    | sequence h' => rw [eq_of_forall₂ hR h h']
  | choice index h =>
    cases h' with
    | choice _ h' => rw [hR _ List.mem_cons_self _ _ h h']
  | many hitems hseparators =>
    cases h' with
    | many hitems' hseparators' =>
      rw [eq_of_forall₂ (fun x hx => hR x (List.mem_append_left _ hx)) hitems hitems',
        eq_of_forall₂ (fun x hx => hR x (List.mem_append_right _ hx)) hseparators
          hseparators']
  | absent =>
    cases h' with
    | absent => rfl
  | present h =>
    cases h' with
    | present h' => rw [hR _ List.mem_cons_self _ _ h h']
  | wrapped wrapper h =>
    cases h' with
    | wrapped _ h' => rw [hR _ List.mem_cons_self _ _ h h']
  | mark marker =>
    cases h' with
    | mark => rfl

end MatchNode

/-! ### Steps of fragments -/

/-- The step of the match that a fragment is, with all its parts. -/
def Store.node? (s : Store) (f : FragmentId) : Option (MatchNode Nat FragmentId) :=
  match s.fragments.get? f with
  | some (.leaf value) => some (.leaf value)
  | some .sequenceStart | some (.sequenceStep _ _) =>
    (sequenceParts? s.fragments (f + 1) f).map .sequence
  | some (.choice index chosen) => some (.choice index chosen)
  | some .manyStart | some (.manyItem _ _) | some (.manySeparator _ _) =>
    (manyParts? s.fragments (f + 1) f).map fun parts => .many parts.1 parts.2
  | some .absent => some .absent
  | some (.present item) => some (.present item)
  | some (.wrapped wrapper child) => some (.wrapped wrapper child)
  | some (.mark marker) => some (.mark marker)
  | none => none

/-- Where a step comes from. -/
inductive Store.IsNode (s : Store) (f : FragmentId) : MatchNode Nat FragmentId → Prop
  | leaf {value : Nat} (hf : s.fragments.get? f = some (.leaf value)) : IsNode s f (.leaf value)
  | sequence {parts : List FragmentId}
      (hparts : sequenceParts? s.fragments (f + 1) f = some parts) : IsNode s f (.sequence parts)
  | choice {index : Nat} {chosen : FragmentId}
      (hf : s.fragments.get? f = some (.choice index chosen)) : IsNode s f (.choice index chosen)
  | many {items separators : List FragmentId}
      (hparts : manyParts? s.fragments (f + 1) f = some (items, separators)) :
      IsNode s f (.many items separators)
  | absent (hf : s.fragments.get? f = some .absent) : IsNode s f .absent
  | present {item : FragmentId} (hf : s.fragments.get? f = some (.present item)) :
      IsNode s f (.present item)
  | wrapped {wrapper : Wrapper} {child : FragmentId}
      (hf : s.fragments.get? f = some (.wrapped wrapper child)) : IsNode s f (.wrapped wrapper child)
  | mark {marker : Marker} (hf : s.fragments.get? f = some (.mark marker)) : IsNode s f (.mark marker)

section

variable {s : Store} {input : Input} {f f' : FragmentId} {n : MatchNode Nat FragmentId}

theorem Store.isNode_of_node? (h : s.node? f = some n) : s.IsNode f n := by
  unfold Store.node? at h
  cases hf : s.fragments.get? f with
  | none =>
    rw [hf] at h
    cases h
  | some fragment =>
    rw [hf] at h
    cases fragment with
    | leaf value =>
      cases h
      exact .leaf hf
    | sequenceStart | sequenceStep =>
      obtain ⟨parts, hparts, rfl⟩ := Option.map_eq_some_iff.1 h
      exact .sequence hparts
    | choice index chosen =>
      cases h
      exact .choice hf
    | manyStart | manyItem | manySeparator =>
      obtain ⟨parts, hparts, rfl⟩ := Option.map_eq_some_iff.1 h
      exact .many hparts
    | absent =>
      cases h
      exact .absent hf
    | present item =>
      cases h
      exact .present hf
    | wrapped wrapper child =>
      cases h
      exact .wrapped hf
    | mark marker =>
      cases h
      exact .mark hf

theorem Store.hasFragment_of_node? (h : s.node? f = some n) : s.HasFragment f := by
  unfold Store.node? at h
  cases hf : s.fragments.get? f with
  | none =>
    rw [hf] at h
    cases h
  | some fragment => exact ⟨fragment, hf⟩

/-- The parts of a step are stored before it. -/
theorem Store.Sound.lt_of_node? (hs : s.Sound) (h : s.node? f = some n) :
    ∀ q ∈ n.parts, s.HasFragment q ∧ q < f := by
  -- a fragment with one part refers to it itself
  have hone {fragment : Fragment} {part : FragmentId} (hf : s.fragments.get? f = some fragment)
      (hparts : fragment.parts = [part]) : ∀ q ∈ [part], s.HasFragment q ∧ q < f := by
    intro q hq
    rw [← hparts] at hq
    exact ⟨hs.exists_part hf hq, hs.parts_lt hf q hq⟩
  cases Store.isNode_of_node? h with
  | sequence hparts => exact hasFragment_of_sequenceParts? hs hparts
  | many hparts =>
    obtain ⟨hitems, hseparators⟩ := hasFragment_of_manyParts? hs hparts
    intro q hq
    rcases List.mem_append.1 hq with hq | hq
    · exact hitems q hq
    · exact hseparators q hq
  | choice hf | present hf | wrapped hf => exact hone hf rfl
  | leaf | absent | mark => nofun

/-- A fragment of a form that is made as repetitions are is a repetition as far as it has come. -/
theorem Store.Spans.exists_chain {form : Form} {i j d : Nat}
    {parts : List FragmentId × List FragmentId} (h : s.Spans input form f i j)
    (hparts : manyParts? s.fragments d f = some parts) :
    ∃ separated after, s.Spans input (.chain separated after) f i j := by
  cases form with
  | chain separated after => exact ⟨separated, after, h⟩
  | whole =>
    obtain ⟨separated, hchain⟩ := h.chain_of_whole hparts
    exact ⟨separated, separated, hchain⟩
  | first =>
    obtain ⟨separated, hchain⟩ := (Store.Spans.sequence h).chain_of_whole hparts
    exact ⟨separated, separated, hchain⟩

/-- A step with all its parts tells the fragment. -/
theorem Store.node?_inj (hs : s.Sound) (hspanned : s.Spanned input) (h : s.node? f = some n)
    (h' : s.node? f' = some n) : f = f' := by
  obtain ⟨fragment, hstored⟩ := Store.hasFragment_of_node? h
  obtain ⟨fragment', hstored'⟩ := Store.hasFragment_of_node? h'
  obtain ⟨form, i, j, hspans⟩ := hspanned f fragment hstored
  obtain ⟨form', i', j', hspans'⟩ := hspanned f' fragment' hstored'
  have hnode := Store.isNode_of_node? h'
  -- only a repetition needs the form: its two lists do not say in which order it was made
  cases Store.isNode_of_node? h with
  | leaf hf =>
    cases hnode with
    | leaf hf' => exact hs.eq_of_get? hf hf'
  | sequence hparts =>
    cases hnode with
    | sequence hparts' => exact sequenceParts?_inj hs hparts hparts'
  | choice hf =>
    cases hnode with
    | choice hf' => exact hs.eq_of_get? hf hf'
  | many hparts =>
    cases hnode with
    | many hparts' =>
      obtain ⟨separated, after, hchain⟩ := hspans.exists_chain hparts
      obtain ⟨separated', after', hchain'⟩ := hspans'.exists_chain hparts'
      exact manyParts?_inj hs hchain hchain' hparts hparts'
  | absent hf =>
    cases hnode with
    | absent hf' => exact hs.eq_of_get? hf hf'
  | present hf =>
    cases hnode with
    | present hf' => exact hs.eq_of_get? hf hf'
  | wrapped hf =>
    cases hnode with
    | wrapped hf' => exact hs.eq_of_get? hf hf'
  | mark hf =>
    cases hnode with
    | mark hf' => exact hs.eq_of_get? hf hf'

/-! ### Every fragment is a step -/

theorem Store.Spans.isSome_sequenceParts? (hs : s.Sound) {i j : Nat}
    (h : s.Spans input .first f i j) : (sequenceParts? s.fragments (f + 1) f).isSome = true := by
  -- a prefix refers to the prefix before it
  induction f using Nat.strongRecOn generalizing j with
  | ind f ih =>
    cases h with
    | sequenceStart _ hf => simp only [sequenceParts?, hf, Option.isSome_some]
    | sequenceStep hf hbefore hlast =>
      have hlt := hs.parts_lt hf _ List.mem_cons_self
      obtain ⟨parts, hparts⟩ := Option.isSome_iff_exists.1 (ih _ hlt hbefore)
      have hparts := sequenceParts?_mono (.refl s) hlt hparts
      simp only [sequenceParts?, hf, hparts, Option.map_some, Option.isSome_some]

theorem Store.Spans.isSome_manyParts? (hs : s.Sound) {separated after : Bool} {i j : Nat}
    (h : s.Spans input (.chain separated after) f i j) :
    (manyParts? s.fragments (f + 1) f).isSome = true := by
  induction f using Nat.strongRecOn generalizing after j with
  | ind f ih =>
    cases h with
    | manyStart _ _ hf => simp only [manyParts?, hf, Option.isSome_some]
    | manyItem hf hbefore hlast | manySeparator hf hbefore hlast =>
      have hlt := hs.parts_lt hf _ List.mem_cons_self
      obtain ⟨parts, hparts⟩ := Option.isSome_iff_exists.1 (ih _ hlt hbefore)
      have hparts := manyParts?_mono (.refl s) hlt hparts
      simp only [manyParts?, hf, hparts, Option.map_some, Option.isSome_some]

/-- A fragment of a form is a step of a match. -/
theorem Store.Spans.isSome_node? (hs : s.Sound) {form : Form} {i j : Nat}
    (h : s.Spans input form f i j) : (s.node? f).isSome = true := by
  induction h with
  | sequence _ ih | many _ ih => exact ih
  | leaf hf => simp only [node?, hf, Option.isSome_some]
  | @blank _ fragment _ hf hblank =>
    cases fragment with
    | absent | mark => simp only [node?, hf, Option.isSome_some]
    | _ => cases hblank
  | @inner _ _ fragment _ _ hf hpart =>
    cases fragment with
    | choice | present | wrapped => simp only [node?, hf, Option.isSome_some]
    | _ => cases hpart
  | @sequenceStart f i hf =>
    have hstart : s.Spans input .first f i i := .sequenceStart i hf
    have hparts := hstart.isSome_sequenceParts? hs
    simp only [node?, hf, Option.isSome_map, hparts]
  | sequenceStep hf hbefore hlast =>
    have hparts := (Store.Spans.sequenceStep hf hbefore hlast).isSome_sequenceParts? hs
    simp only [node?, hf, Option.isSome_map, hparts]
  | @manyStart f separated i hf =>
    have hstart : s.Spans input (.chain separated false) f i i := .manyStart separated i hf
    have hparts := hstart.isSome_manyParts? hs
    simp only [node?, hf, Option.isSome_map, hparts]
  | manyItem hf hbefore hlast =>
    have hparts := (Store.Spans.manyItem hf hbefore hlast).isSome_manyParts? hs
    simp only [node?, hf, Option.isSome_map, hparts]
  | manySeparator hf hbefore hlast =>
    have hparts := (Store.Spans.manySeparator hf hbefore hlast).isSome_manyParts? hs
    simp only [node?, hf, Option.isSome_map, hparts]

/-- The number of a leaf is that of a token's value. -/
theorem Store.Spans.leaf_eq {form : Form} {i j value : Nat} (h : s.Spans input form f i j)
    (hf : s.fragments.get? f = some (.leaf value)) : i < input.size ∧ value = input.value i := by
  induction h with
  | sequence _ ih | many _ ih => exact ih hf
  | leaf hf' hi =>
    cases hf'.symm.trans hf
    exact ⟨hi, rfl⟩
  | blank _ hf' hblank =>
    cases hf'.symm.trans hf
    cases hblank
  | inner hf' hpart =>
    cases hf'.symm.trans hf
    cases hpart
  | sequenceStart _ hf' | manyStart _ _ hf' | sequenceStep hf' | manyItem hf' | manySeparator hf' =>
    cases hf'.symm.trans hf

end

/-! ### Trees -/

section

variable {τ ν : Type} [Token τ ν]

/-- The number is that of a token with the value. -/
def NumberOf (tokens : Array τ) (number : Nat) (value : ν) : Prop :=
  ∃ i token, tokens[i]? = some token ∧ (Input.ofTokens tokens).value i = number ∧
    Token.value token = value

/-- The fragment stands for the tree. -/
inductive Store.Expands (s : Store) (tokens : Array τ) : FragmentId → Expansion ν → Prop
  | node {f : FragmentId} {n : MatchNode Nat FragmentId} {step : MatchNode ν (Expansion ν)}
      (hnode : s.node? f = some n) (h : n.Related (NumberOf tokens) (Expands s tokens) step) :
      Expands s tokens f (.node step)

variable {tokens : Array τ} {s : Store} {f f' : FragmentId}

/-- A number belongs to one value only. -/
theorem NumberOf.right_unique : Relator.RightUnique (NumberOf (ν := ν) tokens) := by
  rintro number v v' ⟨i, token, htoken, hnumber, rfl⟩ ⟨i', token', htoken', rfl, rfl⟩
  obtain ⟨first, hfirst, hvalue⟩ := exists_value htoken
  obtain ⟨first', hfirst', hvalue'⟩ := exists_value htoken'
  rw [hnumber] at hfirst
  obtain rfl := Option.some.inj (hfirst.symm.trans hfirst')
  exact hvalue.symm.trans hvalue'

/-- A value has one number only. -/
theorem NumberOf.left_unique : Relator.LeftUnique (NumberOf (ν := ν) tokens) := by
  rintro number number' v ⟨i, token, htoken, rfl, rfl⟩ ⟨i', token', htoken', rfl, hvalue⟩
  exact value_eq_of_value_eq htoken htoken' hvalue.symm

/-- Every fragment stands for a tree. -/
theorem exists_expands (hs : s.Sound) (hspanned : s.Spanned (.ofTokens tokens))
    (hf : s.HasFragment f) : ∃ tree : Expansion ν, s.Expands tokens f tree := by
  -- on the number, since the parts of a step are stored before it
  induction f using Nat.strongRecOn with
  | ind f ih =>
    obtain ⟨fragment, hstored⟩ := hf
    obtain ⟨form, i, j, hspans⟩ := hspanned f fragment hstored
    obtain ⟨n, hnode⟩ := Option.isSome_iff_exists.1 (hspans.isSome_node? hs)
    have hvalue : ∀ value, n = .leaf value → ∃ v : ν, NumberOf tokens value v := by
      rintro value rfl
      cases Store.isNode_of_node? hnode with
      | leaf hleaf =>
        obtain ⟨hi, rfl⟩ := hspans.leaf_eq hleaf
        exact ⟨_, i, tokens[i], Array.getElem?_eq_getElem hi, rfl, rfl⟩
    have hparts : ∀ q ∈ n.parts, ∃ tree : Expansion ν, s.Expands tokens q tree := by
      intro q hq
      obtain ⟨hstored, hlt⟩ := hs.lt_of_node? hnode q hq
      exact ih q hlt hstored
    obtain ⟨step, hrelated⟩ := MatchNode.exists_related hvalue hparts
    exact ⟨_, .node hnode hrelated⟩

/-- A fragment stands for one tree only. -/
theorem Store.Expands.unique (hs : s.Sound) {tree tree' : Expansion ν}
    (h : s.Expands tokens f tree) (h' : s.Expands tokens f tree') : tree = tree' := by
  induction f using Nat.strongRecOn generalizing tree tree' with
  | ind f ih =>
    cases h with
    | @node _ n step hnode h =>
      cases h' with
      | @node _ n' step' hnode' h' =>
        obtain rfl := Option.some.inj (hnode.symm.trans hnode')
        rw [h.right_unique NumberOf.right_unique (fun q hq tree tree' ht ht' =>
          ih q (hs.lt_of_node? hnode q hq).2 ht ht') h']

/-- No other fragment stands for the tree. -/
theorem Store.Expands.inj (hs : s.Sound) (hspanned : s.Spanned (.ofTokens tokens))
    {tree : Expansion ν} (h : s.Expands tokens f tree) (h' : s.Expands tokens f' tree) :
    f = f' := by
  induction f using Nat.strongRecOn generalizing f' tree with
  | ind f ih =>
    cases h with
    | @node _ n step hnode h =>
      cases h' with
      | @node _ n' _ hnode' h' =>
        -- a part of the tree is that of a part of either fragment, which are the same
        have hpart : ∀ tree ∈ step.parts, ∀ q q', s.Expands tokens q tree →
            s.Expands tokens q' tree → q = q' := by
          intro tree htree q q' hq hq'
          obtain ⟨part, hmem, hexpands⟩ := h.exists_part htree
          have hlt := (hs.lt_of_node? hnode part hmem).2
          exact (ih part hlt hexpands hq).symm.trans (ih part hlt hexpands hq')
        have hnumber : Relator.RightUnique fun (v : ν) number => NumberOf tokens number v :=
          fun v number number' hv hv' => NumberOf.left_unique hv hv'
        obtain rfl := h.flip.right_unique hnumber hpart h'.flip
        exact Store.node?_inj hs hspanned hnode hnode'

end

end ReversibleGrammar
