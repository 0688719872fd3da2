/-
Fragments read back, construct by construct.

* `rebuildTo_mono` — what is read from a fragment is still read from it in a later store, to
  any larger depth;
* `rebuild_sequence`, `rebuild_choice`, … — a fragment is read from its parts;
* `rebuilds_of_rebuildTo` — and in no other way;
* `exists_value` — the number of a token's value stands for a token with that value.
-/
import ReversibleGrammar.Recognizer.Parser
import ReversibleGrammar.Proofs.Grammar.Derivation
import ReversibleGrammar.Proofs.Recognizer.Store

namespace ReversibleGrammar

namespace Store

/-- The number stands for a fragment. -/
def HasFragment (s : Store) (f : FragmentId) : Prop :=
  ∃ fragment, s.fragments.get? f = some fragment

end Store

/-! ### Chains of prefixes -/

section Chains

variable {s t : Store}

theorem sequenceParts?_mono (hgrows : s.Grows t) {d d' : Nat} (hd : d ≤ d') {f : FragmentId}
    {parts : List FragmentId} (h : sequenceParts? s.fragments d f = some parts) :
    sequenceParts? t.fragments d' f = some parts := by
  induction d generalizing d' f parts with
  | zero => cases h
  | succ d ih =>
    obtain ⟨d', rfl⟩ : ∃ e, d' = e + 1 := ⟨d' - 1, by omega⟩
    unfold sequenceParts? at h ⊢
    split at h
    · rename_i hf
      rw [hgrows.fragments hf]
      exact h
    · rename_i before last hf
      rw [hgrows.fragments hf]
      obtain ⟨prior, hprior, rfl⟩ := Option.map_eq_some_iff.1 h
      exact Option.map_eq_some_iff.2 ⟨prior, ih (by omega) hprior, rfl⟩
    · cases h

theorem manyParts?_mono (hgrows : s.Grows t) {d d' : Nat} (hd : d ≤ d') {f : FragmentId}
    {parts : List FragmentId × List FragmentId} (h : manyParts? s.fragments d f = some parts) :
    manyParts? t.fragments d' f = some parts := by
  induction d generalizing d' f parts with
  | zero => cases h
  | succ d ih =>
    obtain ⟨d', rfl⟩ : ∃ e, d' = e + 1 := ⟨d' - 1, by omega⟩
    unfold manyParts? at h ⊢
    split at h
    · rename_i hf
      rw [hgrows.fragments hf]
      exact h
    · rename_i before item hf
      rw [hgrows.fragments hf]
      obtain ⟨prior, hprior, rfl⟩ := Option.map_eq_some_iff.1 h
      exact Option.map_eq_some_iff.2 ⟨prior, ih (by omega) hprior, rfl⟩
    · rename_i before separator hf
      rw [hgrows.fragments hf]
      obtain ⟨prior, hprior, rfl⟩ := Option.map_eq_some_iff.1 h
      exact Option.map_eq_some_iff.2 ⟨prior, ih (by omega) hprior, rfl⟩
    · cases h

theorem hasFragment_of_sequenceParts? (hs : s.Sound) {d : Nat} {f : FragmentId}
    {parts : List FragmentId} (h : sequenceParts? s.fragments d f = some parts) :
    ∀ q ∈ parts, s.HasFragment q ∧ q < f := by
  induction d generalizing f parts with
  | zero => cases h
  | succ d ih =>
    unfold sequenceParts? at h
    split at h
    · cases h
      simp
    · rename_i before last hf
      obtain ⟨prior, hprior, rfl⟩ := Option.map_eq_some_iff.1 h
      have hbefore := hs.parts_lt hf before (by simp [Fragment.parts])
      intro q hq
      rcases List.mem_append.1 hq with hq | hq
      · exact ⟨(ih hprior q hq).1, (ih hprior q hq).2.trans hbefore⟩
      · obtain rfl := List.mem_singleton.1 hq
        exact ⟨hs.exists_part hf (by simp [Fragment.parts]),
          hs.parts_lt hf q (by simp [Fragment.parts])⟩
    · cases h

theorem hasFragment_of_manyParts? (hs : s.Sound) {d : Nat} {f : FragmentId}
    {parts : List FragmentId × List FragmentId} (h : manyParts? s.fragments d f = some parts) :
    (∀ q ∈ parts.1, s.HasFragment q ∧ q < f) ∧ ∀ q ∈ parts.2, s.HasFragment q ∧ q < f := by
  induction d generalizing f parts with
  | zero => cases h
  | succ d ih =>
    unfold manyParts? at h
    split at h
    · cases h
      simp
    all_goals
      first
      | (rename_i before last hf
         obtain ⟨prior, hprior, rfl⟩ := Option.map_eq_some_iff.1 h
         have hbefore := hs.parts_lt hf before (by simp [Fragment.parts])
         have hlast : s.HasFragment last ∧ last < f :=
           ⟨hs.exists_part hf (by simp [Fragment.parts]),
             hs.parts_lt hf last (by simp [Fragment.parts])⟩
         have hprior := ih hprior
         constructor <;> intro q hq
         all_goals simp only [List.mem_append, List.mem_singleton] at hq
         all_goals grind)
      | cases h

end Chains

/-! ### Depth and growth -/

section Rebuild

-- a fragment is read in single steps, each from the readings of its parts
attribute [local simp] rebuildTo

variable {τ ν : Type} [Token τ ν] {g : Grammar} {s t : Store} {tokens : Array τ}

/-- What is read from a fragment stays, in a later store and to a larger depth. -/
theorem rebuildTo_mono (hs : s.Sound) (hgrows : s.Grows t) {d d' : Nat} (hd : d ≤ d')
    {id : PatternId} {f : FragmentId} (hf : s.HasFragment f) {tree : Tree ν}
    (h : rebuildTo g s.fragments tokens d id f = .ok tree) :
    rebuildTo g t.fragments tokens d' id f = .ok tree := by
  induction d generalizing d' id f tree with
  | zero => cases h
  | succ d ih =>
    obtain ⟨d', rfl⟩ : ∃ e, d' = e + 1 := ⟨d' - 1, by omega⟩
    obtain ⟨fragment, hfragment⟩ := hf
    have hpart : ∀ q ∈ fragment.parts, s.HasFragment q := fun q hq => hs.exists_part hfragment hq
    have hd : d ≤ d' := by omega
    unfold rebuildTo at h ⊢
    rw [Interner.get_eq_of_get? hfragment] at h
    rw [Interner.get_eq_of_get? (hgrows.fragments hfragment)]
    cases hp : g.pattern? id with
    | none => simp [hp] at h
    | some p =>
      simp only [hp] at h ⊢
      generalize p.kind = kind at h ⊢
      -- a child is read from a part of the fragment
      have hchild {make : Tree ν → Tree ν} {child : PatternId} {q : FragmentId}
          (hq : s.HasFragment q)
          (h : (rebuildTo g s.fragments tokens d child q).map make = .ok tree) :
          (rebuildTo g t.fragments tokens d' child q).map make = .ok tree := by
        obtain ⟨inner, hinner, hmake⟩ := map_eq_ok_iff.1 h
        exact map_eq_ok_iff.2 ⟨inner, ih hd hq hinner, hmake⟩
      split at h
      · exact h
      · rename_i children
        split at h
        · rename_i parts hparts
          rw [sequenceParts?_mono hgrows le_rfl hparts]
          split at h
          · rename_i hlength
            obtain ⟨trees, htrees, hmake⟩ := bind_eq_ok_iff.1 h
            simp only [hlength, if_true]
            refine bind_eq_ok_iff.2 ⟨trees, mapM_eq_ok_mono ?_ htrees, hmake⟩
            rintro ⟨child, part⟩ hmem tree htree
            have hpart := List.of_mem_zip hmem
            exact ih hd (hasFragment_of_sequenceParts? hs hparts part hpart.2).1 htree
          · cases h
        · cases h
      · rename_i alternatives _ _ index chosen
        split at h
        · exact hchild (hpart chosen (by simp [Fragment.parts])) h
        · cases h
      · rename_i item separator
        split at h
        · rename_i items separators hparts
          rw [manyParts?_mono hgrows le_rfl hparts]
          obtain ⟨hitems, hseparators⟩ := hasFragment_of_manyParts? hs hparts
          obtain ⟨itemTrees, hitemTrees, h⟩ := bind_eq_ok_iff.1 h
          refine bind_eq_ok_iff.2 ⟨itemTrees, mapM_eq_ok_mono ?_ hitemTrees, ?_⟩
          · exact fun q hq tree htree => ih hd (hitems q hq).1 htree
          · split at h
            · obtain ⟨separatorTrees, hseparatorTrees, h⟩ := bind_eq_ok_iff.1 h
              refine bind_eq_ok_iff.2 ⟨separatorTrees, mapM_eq_ok_mono ?_ hseparatorTrees, h⟩
              exact fun q hq tree htree => ih hd (hseparators q hq).1 htree
            · exact h
        · cases h
      · exact h
      · rename_i inner
        exact hchild (hpart inner (by simp [Fragment.parts])) h
      · rename_i inner
        split at h
        · exact hchild (hpart inner (by simp [Fragment.parts])) h
        · cases h
      · rename_i inner
        exact hchild (hpart inner (by simp [Fragment.parts])) h
      · rename_i inner
        exact hchild (hpart inner (by simp [Fragment.parts])) h
      · rename_i inner
        exact hchild (hpart inner (by simp [Fragment.parts])) h
      · exact h
      · exact h
      · cases h

/-- What is read from a fragment stays, in a later store. -/
theorem rebuild_mono (hs : s.Sound) (hgrows : s.Grows t) {id : PatternId} {f : FragmentId}
    (hf : s.HasFragment f) {tree : Tree ν} (h : rebuild g s.fragments tokens id f = .ok tree) :
    rebuild g t.fragments tokens id f = .ok tree :=
  rebuildTo_mono hs hgrows le_rfl hf h

/-! ### Construct by construct -/

/-- The number of a token's value is the first place of the value. -/
theorem value_eq_idxOf {i : Nat} {token : τ} (h : tokens[i]? = some token) :
    let _ : DecidableEq ν := Token.decEq τ
    (Input.ofTokens tokens).value i =
      (tokens.toList.map Token.value).idxOf (Token.value token) := by
  have htoken : tokens.toList[i]? = some token := by simpa using h
  simp only [Input.ofTokens, valueNumbers, Array.getD_eq_getD_getElem?, List.getElem?_toArray,
    List.getElem?_map, htoken, Option.map_some, Option.getD_some]

/-- The number of a token's value is the position of a token that has the value. -/
theorem exists_value {i : Nat} {token : τ} (h : tokens[i]? = some token) :
    ∃ first, tokens[(Input.ofTokens tokens).value i]? = some first ∧
      Token.value first = Token.value token := by
  let _ : DecidableEq ν := Token.decEq τ
  have hmem : Token.value token ∈ tokens.toList.map Token.value :=
    List.mem_map_of_mem (Array.mem_toList_iff.2 (Array.mem_of_getElem? h))
  have hfound := List.getElem?_idxOf hmem
  rw [← value_eq_idxOf h, List.getElem?_map, Option.map_eq_some_iff] at hfound
  simpa using hfound

variable {id : PatternId} {p : Pattern} {f : FragmentId}

/-- A part of a fragment is read to the depth that the fragment leaves for it. -/
theorem rebuildTo_part (hs : s.Sound) {fragment : Fragment}
    (hf : s.fragments.get? f = some fragment) {child : PatternId} {q : FragmentId}
    (hq : q ∈ fragment.parts) {tree : Tree ν}
    (h : rebuild g s.fragments tokens child q = .ok tree) :
    rebuildTo g s.fragments tokens f child q = .ok tree :=
  rebuildTo_mono hs (.refl s) (hs.parts_lt hf q hq) (hs.exists_part hf hq) h

theorem rebuild_leaf (hp : g.pattern? id = some p) {terminal : String}
    (hkind : p.kind = .consume terminal) {i : Nat}
    (hf : s.fragments.get? f = some (.leaf ((Input.ofTokens tokens).value i))) {token : τ}
    (htoken : tokens[i]? = some token) :
    rebuild g s.fragments tokens id f = .ok (.leaf p (Token.value token)) := by
  obtain ⟨first, hfirst, hvalue⟩ := exists_value htoken
  simp only [rebuild, rebuildTo, hp, hkind, Interner.get_eq_of_get? hf, hfirst, hvalue]

theorem rebuild_mark (hp : g.pattern? id = some p) {marker : Marker}
    (hkind : p.kind.mark? = some marker) (hf : s.fragments.get? f = some (.mark marker)) :
    rebuild g s.fragments tokens id f = .ok (.mark p : Tree ν) := by
  simp only [rebuild, rebuildTo, hp, Interner.get_eq_of_get? hf]
  generalize p.kind = kind at hkind ⊢
  cases kind <;> simp only [PatternKind.mark?, Option.some.injEq, reduceCtorEq] at hkind
  all_goals
    subst hkind
    rfl

theorem rebuild_absent (hp : g.pattern? id = some p) {item : PatternId}
    (hkind : p.kind = .option item) (hf : s.fragments.get? f = some .absent) :
    rebuild g s.fragments tokens id f = .ok (.absent p : Tree ν) := by
  simp only [rebuild, rebuildTo, hp, hkind, Interner.get_eq_of_get? hf]

theorem rebuild_present (hs : s.Sound) (hp : g.pattern? id = some p) {item : PatternId}
    (hkind : p.kind = .option item) {inner : FragmentId}
    (hf : s.fragments.get? f = some (.present inner)) {tree : Tree ν}
    (h : rebuild g s.fragments tokens item inner = .ok tree) :
    rebuild g s.fragments tokens id f = .ok (.present p tree) := by
  have hpart := rebuildTo_part hs hf (by simp [Fragment.parts]) h
  simp only [rebuild, rebuildTo, hp, hkind, Interner.get_eq_of_get? hf, hpart, Except.map]

theorem rebuild_choice (hs : s.Sound) (hp : g.pattern? id = some p)
    {alternatives : List PatternId} {mode : ChoiceMode} {names : Option (List String)}
    (hkind : p.kind = .choice alternatives mode names) {index : Nat} {alternative : PatternId}
    (halternative : alternatives[index]? = some alternative) {chosen : FragmentId}
    (hf : s.fragments.get? f = some (.choice index chosen)) {tree : Tree ν}
    (h : rebuild g s.fragments tokens alternative chosen = .ok tree) :
    rebuild g s.fragments tokens id f = .ok (.choice p index tree) := by
  have hpart := rebuildTo_part hs hf (by simp [Fragment.parts]) h
  simp only [rebuild, rebuildTo, hp, hkind, Interner.get_eq_of_get? hf, halternative, hpart,
    Except.map]

theorem rebuild_wrapped (hs : s.Sound) (hp : g.pattern? id = some p) {wrapper : Wrapper}
    {child : PatternId} (hkind : p.kind.wrapped? g = some (wrapper, child)) {inner : FragmentId}
    (hf : s.fragments.get? f = some (.wrapped wrapper inner)) {tree : Tree ν}
    (h : rebuild g s.fragments tokens child inner = .ok tree) :
    rebuild g s.fragments tokens id f = .ok (.wrapped p tree) := by
  have hpart := rebuildTo_part hs hf (by simp [Fragment.parts]) h
  simp only [rebuild, rebuildTo, hp, Interner.get_eq_of_get? hf]
  generalize p.kind = kind at hkind ⊢
  cases kind with
  | thunk rule =>
    obtain ⟨body, hbody, hpair⟩ := Option.map_eq_some_iff.1 hkind
    cases hpair
    simp only [hbody, hpart, Except.map]
  | indent _ | group _ | conditional _ _ _ _ =>
    cases hkind
    simp only [hpart, Except.map]
  | _ => cases hkind

/-! ### What a tree is read from -/

/-- The tree is made of the fragment along the pattern, from parts that are read as its
children. -/
inductive Store.Rebuilds (g : Grammar) (tokens : Array τ) (s : Store)
    (read : PatternId → FragmentId → Tree ν → Prop) (p : Pattern) (f : FragmentId) :
    Tree ν → Prop
  | leaf {terminal : String} {value : Nat} {token : τ} {v : ν} (hkind : p.kind = .consume terminal)
      (hf : s.fragments.get f = .leaf value) (htoken : tokens[value]? = some token)
      (hvalue : Token.value token = v) : Rebuilds g tokens s read p f (.leaf p v)
  | sequence {children : List PatternId} {parts : List FragmentId} {trees : List (Tree ν)}
      (hkind : p.kind = .sequence children)
      (hparts : sequenceParts? s.fragments (f + 1) f = some parts)
      (hlength : children.length = parts.length)
      (htrees : List.Forall₂ (fun x tree => read x.1 x.2 tree) (children.zip parts) trees) :
      Rebuilds g tokens s read p f (.sequence p trees)
  | choice {alternatives : List PatternId} {mode : ChoiceMode} {names : Option (List String)}
      {index : Nat} {alternative : PatternId} {chosen : FragmentId} {tree : Tree ν}
      (hkind : p.kind = .choice alternatives mode names)
      (halternative : alternatives[index]? = some alternative)
      (hf : s.fragments.get f = .choice index chosen) (hinner : read alternative chosen tree) :
      Rebuilds g tokens s read p f (.choice p index tree)
  | many {item : PatternId} {separator : Option PatternId}
      {parts : List FragmentId × List FragmentId} {items separators : List (Tree ν)}
      (hkind : p.kind = .many item separator)
      (hparts : manyParts? s.fragments (f + 1) f = some parts)
      (hitems : List.Forall₂ (read item) parts.1 items)
      (hseparators : List.Forall₂ (fun q tree => ∃ s', separator = some s' ∧ read s' q tree)
        parts.2 separators) : Rebuilds g tokens s read p f (.many p items separators)
  | absent {item : PatternId} (hkind : p.kind = .option item)
      (hf : s.fragments.get f = .absent) : Rebuilds g tokens s read p f (.absent p)
  | present {item : PatternId} {inner : FragmentId} {tree : Tree ν}
      (hkind : p.kind = .option item) (hf : s.fragments.get f = .present inner)
      (hinner : read item inner tree) : Rebuilds g tokens s read p f (.present p tree)
  | wrapped {wrapper : Wrapper} {child : PatternId} {inner : FragmentId} {tree : Tree ν}
      (hkind : p.kind.wrapped? g = some (wrapper, child))
      (hf : s.fragments.get f = .wrapped wrapper inner) (hinner : read child inner tree) :
      Rebuilds g tokens s read p f (.wrapped p tree)
  | mark {marker : Marker} (hkind : p.kind.mark? = some marker)
      (hf : s.fragments.get f = .mark marker) : Rebuilds g tokens s read p f (.mark p)

/-- What is read from a fragment is made of it, along a pattern of the grammar. -/
theorem rebuilds_of_rebuildTo {d : Nat} {tree : Tree ν}
    (h : rebuildTo g s.fragments tokens (d + 1) id f = .ok tree) :
    ∃ p, g.pattern? id = some p ∧ s.Rebuilds g tokens
      (fun child q tree => rebuildTo g s.fragments tokens d child q = .ok tree) p f tree := by
  unfold rebuildTo at h
  cases hp : g.pattern? id with
  | none => simp [hp] at h
  | some p =>
    refine ⟨p, rfl, ?_⟩
    simp only [hp] at h
    have hwrapped {wrapper : Wrapper} {child : PatternId} {inner : FragmentId}
        (hkind : p.kind.wrapped? g = some (wrapper, child))
        (hf : s.fragments.get f = .wrapped wrapper inner)
        (h : (rebuildTo g s.fragments tokens d child inner).map (.wrapped p) = .ok tree) :
        s.Rebuilds g tokens
          (fun child q tree => rebuildTo g s.fragments tokens d child q = .ok tree) p f tree := by
      obtain ⟨inner, hinner, rfl⟩ := map_eq_ok_iff.1 h
      exact .wrapped hkind hf hinner
    split at h
    · rename_i hkind hf
      split at h
      · rename_i token htoken
        cases h
        exact .leaf hkind hf htoken rfl
      · cases h
    · rename_i hkind
      split at h
      · rename_i parts hparts
        split at h
        · rename_i hlength
          obtain ⟨trees, htrees, hmake⟩ := bind_eq_ok_iff.1 h
          cases hmake
          exact .sequence hkind hparts hlength (mapM_eq_ok_iff.1 htrees)
        · cases h
      · cases h
    · rename_i hkind hf
      split at h
      · rename_i halternative
        obtain ⟨inner, hinner, rfl⟩ := map_eq_ok_iff.1 h
        exact .choice hkind halternative hf hinner
      · cases h
    · rename_i hkind
      split at h
      · rename_i items separators hparts
        obtain ⟨itemTrees, hitems, h⟩ := bind_eq_ok_iff.1 h
        have hitems := mapM_eq_ok_iff.1 hitems
        split at h
        · obtain ⟨separatorTrees, hseparators, hmake⟩ := bind_eq_ok_iff.1 h
          cases hmake
          exact .many hkind hparts hitems
            ((mapM_eq_ok_iff.1 hseparators).imp fun _ _ h => ⟨_, rfl, h⟩)
        · split at h
          · rename_i hnone
            cases h
            obtain rfl := List.isEmpty_iff.1 hnone
            exact .many hkind hparts hitems .nil
          · cases h
      · cases h
    · rename_i hkind hf
      cases h
      exact .absent hkind hf
    · rename_i hkind hf
      obtain ⟨inner, hinner, rfl⟩ := map_eq_ok_iff.1 h
      exact .present hkind hf hinner
    · rename_i hkind hf
      split at h
      · rename_i hbody
        exact hwrapped (by simp [hkind, PatternKind.wrapped?, hbody]) hf h
      · cases h
    · rename_i hkind hf
      exact hwrapped (by rw [hkind]; rfl) hf h
    · rename_i hkind hf
      exact hwrapped (by rw [hkind]; rfl) hf h
    · rename_i hkind hf
      exact hwrapped (by rw [hkind]; rfl) hf h
    · rename_i hkind hf
      cases h
      exact .mark (by rw [hkind]; rfl) hf
    · rename_i hkind hf
      cases h
      exact .mark (by rw [hkind]; rfl) hf
    · cases h

/-! ### Several parts -/

section Parts

variable (g tokens)

/-- The fragment is read as a tree for each of several patterns that follow each other. -/
def Store.ReadsParts (s : Store) (children : List PatternId) (f : FragmentId)
    (trees : List (Tree ν)) : Prop :=
  ∃ parts, sequenceParts? s.fragments (f + 1) f = some parts ∧ children.length = parts.length ∧
    List.Forall₂ (fun x tree => rebuild g s.fragments tokens x.1 x.2 = .ok tree)
      (children.zip parts) trees

/-- The fragment is read as trees of items and of separators. -/
def Store.ReadsItems (s : Store) (item : PatternId) (separator : Option PatternId)
    (f : FragmentId) (items separators : List (Tree ν)) : Prop :=
  ∃ parts, manyParts? s.fragments (f + 1) f = some parts ∧
    List.Forall₂ (fun q tree => rebuild g s.fragments tokens item q = .ok tree) parts.1 items ∧
    List.Forall₂
      (fun q tree => ∃ s', separator = some s' ∧ rebuild g s.fragments tokens s' q = .ok tree)
      parts.2 separators

end Parts

namespace Store

variable {children : List PatternId}
variable {trees trees' items items' separators separators' : List (Tree ν)}
variable {item child : PatternId} {separator : Option PatternId} {before last : FragmentId}
variable {tree : Tree ν}

theorem ReadsParts.mono (hs : s.Sound) (hgrows : s.Grows t)
    (h : s.ReadsParts g tokens children f trees) : t.ReadsParts g tokens children f trees := by
  obtain ⟨parts, hparts, hlength, htrees⟩ := h
  have hall := hasFragment_of_sequenceParts? hs hparts
  refine ⟨parts, sequenceParts?_mono hgrows le_rfl hparts, hlength,
    forall₂_imp_of_mem (fun x hx tree hread => ?_) htrees⟩
  exact rebuild_mono hs hgrows (hall x.2 (List.of_mem_zip hx).2).1 hread

theorem ReadsParts.unique (h : s.ReadsParts g tokens children f trees)
    (h' : s.ReadsParts g tokens children f trees') : trees = trees' := by
  obtain ⟨parts, hparts, -, htrees⟩ := h
  obtain ⟨parts', hparts', -, htrees'⟩ := h'
  rw [hparts] at hparts'
  cases hparts'
  refine List.right_unique_forall₂' (fun x tree tree' hread hread' => ?_) htrees htrees'
  rw [hread] at hread'
  exact Except.ok.inj hread'

theorem readsParts_nil (hf : s.fragments.get? f = some .sequenceStart) :
    s.ReadsParts g tokens [] f ([] : List (Tree ν)) :=
  ⟨[], by simp [sequenceParts?, hf], rfl, .nil⟩

/-- A prefix with one child more is read as one tree more. -/
theorem ReadsParts.step (hs : s.Sound) (hf : s.fragments.get? f = some (.sequenceStep before last))
    (h : s.ReadsParts g tokens children before trees)
    (hread : rebuild g s.fragments tokens child last = .ok tree) :
    s.ReadsParts g tokens (children ++ [child]) f (trees ++ [tree]) := by
  obtain ⟨parts, hparts, hlength, htrees⟩ := h
  have hlt : before + 1 ≤ f := hs.parts_lt hf before (by simp [Fragment.parts])
  refine ⟨parts ++ [last], ?_, by simp [hlength], ?_⟩
  · rw [sequenceParts?, hf]
    exact Option.map_eq_some_iff.2 ⟨parts, sequenceParts?_mono (.refl s) hlt hparts, rfl⟩
  · rw [List.zip_append hlength]
    exact List.rel_append htrees (.cons hread .nil)

theorem ReadsParts.length_eq (h : s.ReadsParts g tokens children f trees) :
    children.length = trees.length := by
  obtain ⟨parts, -, hlength, htrees⟩ := h
  have hzip := htrees.length_eq
  rw [List.length_zip, ← hlength, Nat.min_self] at hzip
  exact hzip

theorem ReadsItems.mono (hs : s.Sound) (hgrows : s.Grows t)
    (h : s.ReadsItems g tokens item separator f items separators) :
    t.ReadsItems g tokens item separator f items separators := by
  obtain ⟨parts, hparts, hitems, hseparators⟩ := h
  obtain ⟨hallItems, hallSeparators⟩ := hasFragment_of_manyParts? hs hparts
  refine ⟨parts, manyParts?_mono hgrows le_rfl hparts,
    forall₂_imp_of_mem (fun q hq tree hread => ?_) hitems,
    forall₂_imp_of_mem (fun q hq tree hread => ?_) hseparators⟩
  · exact rebuild_mono hs hgrows (hallItems q hq).1 hread
  · obtain ⟨s', hs', hread⟩ := hread
    exact ⟨s', hs', rebuild_mono hs hgrows (hallSeparators q hq).1 hread⟩

theorem ReadsItems.unique (h : s.ReadsItems g tokens item separator f items separators)
    (h' : s.ReadsItems g tokens item separator f items' separators') :
    items = items' ∧ separators = separators' := by
  obtain ⟨parts, hparts, hitems, hseparators⟩ := h
  obtain ⟨parts', hparts', hitems', hseparators'⟩ := h'
  rw [hparts] at hparts'
  cases hparts'
  constructor
  · refine List.right_unique_forall₂' (fun q tree tree' hread hread' => ?_) hitems hitems'
    rw [hread] at hread'
    exact Except.ok.inj hread'
  · refine List.right_unique_forall₂' (fun q tree tree' hread hread' => ?_) hseparators hseparators'
    obtain ⟨s', rfl, hread⟩ := hread
    obtain ⟨s'', hs', hread'⟩ := hread'
    cases hs'
    rw [hread] at hread'
    exact Except.ok.inj hread'

theorem readsItems_nil (hf : s.fragments.get? f = some .manyStart) :
    s.ReadsItems g tokens item separator f ([] : List (Tree ν)) [] :=
  ⟨([], []), by simp [manyParts?, hf], .nil, .nil⟩

theorem ReadsItems.withItem (hs : s.Sound) (hf : s.fragments.get? f = some (.manyItem before last))
    (h : s.ReadsItems g tokens item separator before items separators)
    (hread : rebuild g s.fragments tokens item last = .ok tree) :
    s.ReadsItems g tokens item separator f (items ++ [tree]) separators := by
  obtain ⟨parts, hparts, hitems, hseparators⟩ := h
  have hlt : before + 1 ≤ f := hs.parts_lt hf before (by simp [Fragment.parts])
  refine ⟨(parts.1 ++ [last], parts.2), ?_, List.rel_append hitems (.cons hread .nil),
    hseparators⟩
  rw [manyParts?, hf]
  exact Option.map_eq_some_iff.2 ⟨parts, manyParts?_mono (.refl s) hlt hparts, rfl⟩

theorem ReadsItems.withSeparator (hs : s.Sound)
    (hf : s.fragments.get? f = some (.manySeparator before last))
    (h : s.ReadsItems g tokens item (some child) before items separators)
    (hread : rebuild g s.fragments tokens child last = .ok tree) :
    s.ReadsItems g tokens item (some child) f items (separators ++ [tree]) := by
  obtain ⟨parts, hparts, hitems, hseparators⟩ := h
  have hlt : before + 1 ≤ f := hs.parts_lt hf before (by simp [Fragment.parts])
  refine ⟨(parts.1, parts.2 ++ [last]), ?_, hitems,
    List.rel_append hseparators (.cons ⟨child, rfl, hread⟩ .nil)⟩
  rw [manyParts?, hf]
  exact Option.map_eq_some_iff.2 ⟨parts, manyParts?_mono (.refl s) hlt hparts, rfl⟩

end Store

theorem rebuild_sequence (hs : s.Sound) (hp : g.pattern? id = some p) {children : List PatternId}
    (hkind : p.kind = .sequence children) {trees : List (Tree ν)}
    (h : s.ReadsParts g tokens children f trees) :
    rebuild g s.fragments tokens id f = .ok (.sequence p trees) := by
  obtain ⟨parts, hparts, hlength, htrees⟩ := h
  have hall := hasFragment_of_sequenceParts? hs hparts
  have htrees : (children.zip parts).mapM (fun x => rebuildTo g s.fragments tokens f x.1 x.2)
      = .ok trees := by
    refine mapM_eq_ok_mono ?_ (mapM_eq_ok_iff.2 htrees)
    rintro ⟨child, part⟩ hmem tree htree
    obtain ⟨hpart, hlt⟩ := hall part (List.of_mem_zip hmem).2
    exact rebuildTo_mono hs (.refl s) hlt hpart htree
  simp only [rebuild, rebuildTo, hp, hkind, hparts, hlength, if_true]
  exact bind_eq_ok_iff.2 ⟨trees, htrees, rfl⟩

theorem rebuild_many (hs : s.Sound) (hp : g.pattern? id = some p) {item : PatternId}
    {separator : Option PatternId} (hkind : p.kind = .many item separator)
    {items separators : List (Tree ν)}
    (h : s.ReadsItems g tokens item separator f items separators) :
    rebuild g s.fragments tokens id f = .ok (.many p items separators) := by
  obtain ⟨parts, hparts, hitems, hseparators⟩ := h
  obtain ⟨hallItems, hallSeparators⟩ := hasFragment_of_manyParts? hs hparts
  have hdepth {child : PatternId} {qs : List FragmentId} {trees : List (Tree ν)}
      (hqs : ∀ q ∈ qs, s.HasFragment q ∧ q < f)
      (h : List.Forall₂ (fun q tree => rebuild g s.fragments tokens child q = .ok tree) qs trees) :
      qs.mapM (rebuildTo g s.fragments tokens f child) = .ok trees := by
    refine mapM_eq_ok_mono (fun q hq tree htree => ?_) (mapM_eq_ok_iff.2 h)
    exact rebuildTo_mono hs (.refl s) (hqs q hq).2 (hqs q hq).1 htree
  simp only [rebuild, rebuildTo, hp, hkind, hparts]
  refine bind_eq_ok_iff.2 ⟨items, hdepth hallItems hitems, ?_⟩
  cases separator with
  | none =>
    generalize parts.2 = rest at hseparators
    cases hseparators with
    | nil => rfl
    | cons h _ => simp at h
  | some separator =>
    refine bind_eq_ok_iff.2 ⟨separators, hdepth hallSeparators (hseparators.imp ?_), rfl⟩
    rintro q tree ⟨s', hs', h⟩
    rwa [Option.some.inj hs']

end Rebuild

end ReversibleGrammar
