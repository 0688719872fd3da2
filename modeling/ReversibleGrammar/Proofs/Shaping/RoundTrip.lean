/-
The shape of a tree gives the tree back.

For trees of texts over the grammars of `Grammar.Reversible`.

* `alternativeIndex?_alternativeName` — the name of an alternative stands for its index;
* `shape_round_trip` — a tree has a shape, and its shape gives it back.
-/
import ReversibleGrammar.Proofs.Grammar.Built
import ReversibleGrammar.Proofs.Shaping.Recovery

namespace ReversibleGrammar

/-! ### The names of alternatives -/

/-- A numeral is read as the number it was written for. -/
theorem Text.natural?_toString {n : Nat} (h : n < naturalLimit) :
    natural? (toString n) = some n := by
  have htoList : (toString n).toList = Nat.toDigits 10 n := by
    rw [Nat.toString_eq_repr, Nat.toList_repr]
  have hdigits : ∀ c ∈ Nat.toDigits 10 n, c.isDigit = true := fun c hc =>
    Nat.isDigit_of_mem_toDigits (by decide) (by decide) hc
  have hread : readDigits? (Nat.toDigits 10 n) = some n := by
    have hvalue : digitsValue (Nat.toDigits 10 n) = n := by
      have hfold := @Nat.ofDigitChars_ten_toDigits n
      simpa only [Nat.ofDigitChars, digitsValue, Nat.mul_comm 10] using hfold
    have hall : (Nat.toDigits 10 n).all Char.isDigit = true := List.all_eq_true.2 hdigits
    have hempty : (Nat.toDigits 10 n).isEmpty = false := by
      rw [List.isEmpty_eq_false_iff]
      exact Nat.toDigits_ne_nil
    rw [readDigits?, hall, hempty, hvalue]
    exact if_pos h
  rw [natural?, htoList]
  split
  · -- no numeral is written with a sign
    rename_i cs heq
    exact absurd (hdigits '+' (by simp [heq])) (by decide)
  · exact hread

section

variable {g : Grammar} {p : Pattern} {alternatives : List PatternId} {mode : ChoiceMode}
  {index : Nat}

/-- The type name of an alternative stands for its index, if no other has it. -/
theorem alternativeIndex?_typeName (hclosed : g.ClosedAt p) {names : List String}
    (hkind : p.kind = .choice alternatives mode (some names)) (hnodup : names.Nodup)
    (hindex : index < alternatives.length) :
    alternativeIndex? alternatives (some names) (alternativeName p index) = some index := by
  have hlength : names.length = alternatives.length := hclosed.typeNames_length _ _ _ hkind
  have hlt : index < names.length := hlength ▸ hindex
  have hname : alternativeName p index = names[index] := by
    simp [alternativeName, hkind, hlt]
  have hfind : names.findIdx? (· == names[index]) = some index := by
    refine List.findIdx?_eq_some_iff_getElem.2 ⟨hlt, beq_self_eq_true _, fun j hj heq => ?_⟩
    -- no earlier alternative has the name
    have hsame := hnodup.getElem_inj_iff.1 (eq_of_beq heq)
    omega
  have hfilter : (some index).filter (· < alternatives.length) = some index := by simp [hindex]
  rw [alternativeIndex?, hname]
  simpa only [hfind] using hfilter

/-- The name of an alternative stands for its index. -/
theorem alternativeIndex?_alternativeName (hclosed : g.ClosedAt p) (hp : g.ReversibleAt p)
    {names : Option (List String)} (hkind : p.kind = .choice alternatives mode names)
    (hindex : index < alternatives.length) :
    alternativeIndex? alternatives names (alternativeName p index) = some index := by
  cases names with
  | none =>
    have hlimit : index < Text.naturalLimit := hindex.trans_le (hp.length_le _ _ hkind)
    have hfilter : (some index).filter (· < alternatives.length) = some index := by simp [hindex]
    rw [alternativeIndex?, alternativeName, hkind]
    simpa only [Text.natural?_toString hlimit] using hfilter
  | some names =>
    exact alternativeIndex?_typeName hclosed hkind (hp.nodup_typeNames _ _ _ hkind) hindex

end

/-! ### All trees -/

/-- Unnamed leaves hold the text of their terminal. -/
def Tree.SpellsTerminals (t : Tree String) : Prop :=
  ∀ leaf ∈ t.leaves, leaf.1.name = none → leaf.1.kind = .consume leaf.2

instance (t : Tree String) : Decidable t.SpellsTerminals :=
  inferInstanceAs (Decidable (∀ leaf ∈ t.leaves, _))

theorem exists_recovers {g : Grammar} (hclosed : g.Closed) (hg : g.Reversible) {t : Tree String}
    {id : PatternId} (hfits : t.Fits g id) (hspells : t.SpellsTerminals) :
    ∃ shape, Recovers g textCodec id t shape := by
  induction t using Tree.childrenInduction generalizing id with
  | h t ih =>
  have ih : ∀ u ∈ t.children, ∀ child, u.Fits g child →
      ∃ shape, Recovers g textCodec child u shape :=
    fun u hu child hchild => ih u hu hchild fun leaf hleaf =>
      hspells leaf (Tree.mem_leaves_of_mem_children hu hleaf)
  cases t with
  | leaf p v =>
    obtain ⟨hp, terminal, hkind⟩ := hfits
    refine recovers_leaf hp hkind ((hg id p hp).token_keeps _ hkind) (fun hname => ?_) rfl (by simp [textCodec])
    have hsame := (hspells (p, v) List.mem_cons_self hname).symm.trans hkind
    exact PatternKind.consume.inj hsame
  | sequence p ts =>
    obtain ⟨hp, children, hkind, hts⟩ := Tree.fits_sequence_iff.1 hfits
    have hrev := hg id p hp
    exact recovers_sequence hp hkind hrev.select_eq_none (hrev.pairwise_keys _ hkind)
      (forall₂_imp_of_mem ih hts)
  | choice p index t =>
    obtain ⟨hp, alternatives, mode, names, alternative, hkind, halternative, ht⟩ := hfits
    obtain ⟨shape, ht⟩ := ih t List.mem_cons_self alternative ht
    obtain ⟨name, hname, hmerge⟩ := (hg id p hp).choice_hasField _ _ _ hkind
    obtain ⟨hindex, -⟩ := List.getElem?_eq_some_iff.1 halternative
    refine ⟨_, recovers_choice hp hkind hname hmerge halternative ht.extract_eq rfl
      (by simp [Tagged.toShape]) (Tagged.ofShape_toShape _) ?_ (ht.injects shape (.refl _ _))⟩
    exact alternativeIndex?_alternativeName (hclosed.closedAt id p hp) (hg id p hp) hkind hindex
  | many p items separators =>
    obtain ⟨hp, item, separator, hkind, hitems, hlength, hseparators⟩ := Tree.fits_many_iff.1 hfits
    have hrev := hg id p hp
    refine recovers_many hp hkind (hrev.many_hasField _ _ hkind)
      (fun s hs => hrev.separator_keyless _ _ (hs ▸ hkind)) (fun t ht => ?_) hlength fun t ht => ?_
    · obtain ⟨shape, h⟩ := ih t (List.mem_append_left _ ht) item (hitems t ht)
      exact h.roundTrips
    · obtain ⟨s, hs, hfit⟩ := hseparators t ht
      exact ⟨s, hs, ih t (List.mem_append_right _ ht) s hfit⟩
  | absent p =>
    obtain ⟨hp, item, hkind⟩ := hfits
    exact recovers_absent hp (hg id p hp) hkind
  | present p t =>
    obtain ⟨hp, item, hkind, ht⟩ := hfits
    obtain ⟨shape, h⟩ := ih t List.mem_cons_self item ht
    exact recovers_present hp (hg id p hp) hkind h
  | wrapped p t =>
    obtain ⟨hp, wrapper, child, hkind, ht⟩ := hfits
    obtain ⟨shape, h⟩ := ih t List.mem_cons_self child ht
    cases hk : p.kind with
    | thunk rule =>
      rw [hk] at hkind
      obtain ⟨body, hbody, hpair⟩ := Option.map_eq_some_iff.1 hkind
      obtain rfl : body = child := (Prod.mk.inj hpair).2
      exact recovers_thunk hp (hg id p hp) hk hbody h
    | _ => exact ⟨shape, recovers_layout hp hkind (by simp [hk]) h⟩
  | mark p =>
    obtain ⟨hp, marker, hkind⟩ := hfits
    exact ⟨.null, recovers_mark hp hkind⟩

/-- Over a reversible grammar, a tree whose unnamed leaves hold the text of their terminal has a
shape, and its shape gives it back. -/
theorem shape_round_trip {g : Grammar} (hbuilt : g.Built) (hg : g.Reversible) {t : Tree String}
    {id : PatternId} (hfits : t.Fits g id) (hspells : t.SpellsTerminals) :
    ∃ shape, t.extract g textCodec = .ok shape ∧
      ∀ depth, t.height ≤ depth → injectTo g textCodec depth id shape = .ok t := by
  obtain ⟨shape, h⟩ := exists_recovers hbuilt.closed hg hfits hspells
  exact h.roundTrips

/-- Words and lists of such, between parentheses and with commas. -/
def Grammar.nested : Grammar where
  patterns := #[{ id := 0, kind := .thunk 0 }, { id := 1, kind := .consume "(" },
    { id := 2, kind := .consume "," }, { id := 3, kind := .many 0 (some 2), name := some "items" },
    { id := 4, kind := .consume ")" }, { id := 5, kind := .sequence [1, 3, 4] },
    { id := 6, kind := .consume "word", name := some "word" },
    { id := 7, kind := .choice [6, 5] .ordered (some ["word", "list"]), name := some "is" }]
  rules := #[⟨"value", 7⟩]
  labels := #[]

theorem Grammar.built_nested : nested.Built :=
  ⟨[.rule "value", .consume "(", .consume ",", .manySeparated 0 2, .named 3 "items", .consume ")",
    .sequence [1, 3, 4], .consumeNamed "word" "word", .typedChoice [("word", 6), ("list", 5)],
    .named 7 "is", .define "value" 7], by cbv⟩

theorem Grammar.reversible_nested : nested.Reversible :=
  have h : nested.checkKeys
      (fun id => [["is"], [], [], ["items"], [], ["items"], ["word"], ["is"]].getD id [])
      (fun id => [1, 2, 4].contains id) = true := by decide
  reversible_of_check h (by decide)

/-- The list `( a , ( ) )` is given back by its shape. -/
theorem shape_round_trip_nested :
    let word : Tree String := .choice (Grammar.nested.patterns[7]) 0
      (.leaf (Grammar.nested.patterns[6]) "a")
    let list (items separators : List (Tree String)) : Tree String :=
      .choice (Grammar.nested.patterns[7]) 1 (.sequence (Grammar.nested.patterns[5])
        [.leaf (Grammar.nested.patterns[1]) "(",
          .many (Grammar.nested.patterns[3]) items separators,
          .leaf (Grammar.nested.patterns[4]) ")"])
    let t := list [.wrapped (Grammar.nested.patterns[0]) word,
      .wrapped (Grammar.nested.patterns[0]) (list [] [])] [.leaf (Grammar.nested.patterns[2]) ","]
    ∃ shape, t.extract Grammar.nested textCodec = .ok shape ∧
      ∀ depth, t.height ≤ depth → injectTo Grammar.nested textCodec depth 7 shape = .ok t := by
  refine shape_round_trip Grammar.built_nested Grammar.reversible_nested ?_ (by decide)
  simp [Tree.Fits, Tree.fitsEach, Grammar.nested, Grammar.pattern?, Grammar.ruleBody?,
    PatternKind.wrapped?]

end ReversibleGrammar
