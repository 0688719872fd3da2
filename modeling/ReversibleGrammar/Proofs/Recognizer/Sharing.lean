/-
One number for equal values.

Whatever a recognition makes is stored once and then stands for its number, so that comparing two
matches of any size is comparing two numbers.  That is right because the numbers of a store are
exactly those of its values, because a number keeps its value for good, and because a match refers
to smaller numbers only: so it can be read back, and what is read back tells its number.

* `Interner.Exact` — a number for each stored value, also in 32 bits;
* `Store.Changes.grows`, `grows_of_run` — a number keeps its value for the rest of a run;
* `rebuildTo_eq_rebuild`, `rebuildTo_ne_exhausted` — reading a fragment back comes to an end;
* `Store.Shares` — equal values have one number, and so have the trees that fragments stand for;
* `equal_trees_share_numbers` — stores share in every state of a run, and when it ends.
-/
import ReversibleGrammar.Proofs.Recognizer.Expansion
import ReversibleGrammar.Proofs.Shaping.Descent

namespace ReversibleGrammar

/-! ### Numbers -/

section

variable {α : Type} [Ord α]

/-- The numbers are those of the stored values, one for each, also in 32 bits unless there are more
values than that. -/
structure Interner.Exact (s : Interner α) : Prop where
  faithful : s.Faithful
  lt_size : ∀ {n a}, s.get? n = some a → n < s.size
  eq_iff : ∀ {n n' a a'}, s.get? n = some a → s.get? n' = some a' → (n = n' ↔ a = a')
  handle_eq_iff : s.size ≤ 2 ^ 32 → ∀ {n n' a a'}, s.get? n = some a → s.get? n' = some a' →
    (UInt32.ofNat n = UInt32.ofNat n' ↔ a = a')

theorem Interner.Faithful.exact {s : Interner α} (hs : s.Faithful) : s.Exact := by
  have hlt {n : Nat} {a : α} (hn : s.get? n = some a) : n < s.size :=
    (Array.getElem?_eq_some_iff.1 hn).1
  have heq {n n' : Nat} {a a' : α} (hn : s.get? n = some a) (hn' : s.get? n' = some a') :
      n = n' ↔ a = a' := by
    constructor
    · rintro rfl
      exact Option.some.inj (hn.symm.trans hn')
    · rintro rfl
      exact Option.some.inj (((hs a n).2 hn).symm.trans ((hs a n').2 hn'))
  refine ⟨hs, hlt, heq, ?_⟩
  intro hsize n n' a a' hn hn'
  rw [← heq hn hn', ← UInt32.toNat_inj, UInt32.toNat_ofNat_of_lt' ((hlt hn).trans_le hsize),
    UInt32.toNat_ofNat_of_lt' ((hlt hn').trans_le hsize)]

end

/-! ### Runs -/

/-- A step keeps every number. -/
theorem Store.Changes.grows {s t : Store} (h : s.Changes t) : s.Grows t := by
  cases h with
  | adds h => exact h.grows
  | enter context site depth h =>
    rcases Store.enter_store s context site depth with ⟨heq, -⟩ | ⟨map, -, heq, -⟩
    · rw [heq] at h
      exact h.grows
    · rw [heq] at h
      exact (Store.grows_withMap s _).trans h.grows
  | cutoff position map =>
    exact ⟨Interner.get?_intern _ _, id, Interner.get?_intern _ _, id⟩

/-- A run goes on from where it has come to. -/
theorem run_add_of_running {g : Grammar} {input : Input} {fuel : Nat} {m m' : Machine}
    (h : run g input fuel m = .running m') (more : Nat) :
    run g input (fuel + more) m = run g input more m' := by
  induction fuel generalizing m with
  | zero =>
    cases h
    rw [Nat.zero_add]
  | succ fuel ih =>
    rw [Nat.add_right_comm]
    cases hstep : step g input m with
    | running next =>
      simp only [run, hstep] at h ⊢
      exact ih h
    | finished results t => simp only [run, hstep, reduceCtorEq] at h
    | faulted fault => simp only [run, hstep, reduceCtorEq] at h

section

variable {τ ν : Type} [Token τ ν] {g : Grammar} {s : Store} {tokens : Array τ} {f f' : FragmentId}

theorem grows_of_run (hg : g.Closed) {fuel : Nat} {m m' : Machine} (hm : m.Plain g tokens)
    (h : run g (.ofTokens tokens) fuel m = .running m') :
    m.tables.store.Grows m'.tables.store := by
  have hkeeps : m'.Plain g tokens ∧ m.tables.store.Grows m'.tables.store := by
    refine run_keeps (P := fun m' => m'.Plain g tokens ∧ m.tables.store.Grows m'.tables.store) ?_
      fuel ⟨hm, .refl _⟩ h
    rintro next next' ⟨hnext, hgrows⟩ hstep
    exact ⟨step_plain hg hnext hstep,
      hgrows.trans (step_changes hnext.sound hnext.plain hstep).grows⟩
  exact hkeeps.2

/-! ### Reading back -/

theorem PatternKind.tag_ne_empty (kind : PatternKind) : kind.tag ≠ "" := by
  cases kind <;> simp [tag]

/-- The reading of a fragment depends on those of smaller ones. -/
theorem rebuildTo_congr (hs : s.Sound) (hf : s.HasFragment f) {d d' : Nat}
    (hread : ∀ q, s.HasFragment q → q < f → ∀ id,
      rebuildTo g s.fragments tokens d id q = rebuildTo g s.fragments tokens d' id q)
    (id : PatternId) :
    rebuildTo g s.fragments tokens (d + 1) id f = rebuildTo g s.fragments tokens (d' + 1) id f := by
  obtain ⟨fragment, hfragment⟩ := hf
  have hpart : ∀ q ∈ fragment.parts, ∀ id,
      rebuildTo g s.fragments tokens d id q = rebuildTo g s.fragments tokens d' id q :=
    fun q hq => hread q (hs.exists_part hfragment hq) (hs.parts_lt hfragment q hq)
  unfold rebuildTo
  rw [Interner.get_eq_of_get? hfragment]
  cases hp : g.pattern? id with
  | none => rfl
  | some p =>
    simp only
    generalize p.kind = kind
    split
    · rfl
    · rename_i children
      cases hparts : sequenceParts? s.fragments (f + 1) f with
      | none => rfl
      | some parts =>
        have hstored := hasFragment_of_sequenceParts? hs hparts
        dsimp only
        split
        · refine congrArg (fun read => read >>= _) (mapM_congr ?_)
          rintro ⟨child, part⟩ hmem
          obtain ⟨hmem, hlt⟩ := hstored part (List.of_mem_zip hmem).2
          exact hread part hmem hlt child
        · rfl
    · rename_i alternatives _ _ index chosen
      simp only [hpart chosen List.mem_cons_self]
    · rename_i item separator
      cases hparts : manyParts? s.fragments (f + 1) f with
      | none => rfl
      | some parts =>
        obtain ⟨hitems, hseparators⟩ := hasFragment_of_manyParts? hs hparts
        have hmap (child : PatternId) {qs : List FragmentId}
            (hqs : ∀ q ∈ qs, s.HasFragment q ∧ q < f) :
            qs.mapM (rebuildTo g s.fragments tokens d child) =
              qs.mapM (rebuildTo g s.fragments tokens d' child) :=
          mapM_congr fun q hq => hread q (hqs q hq).1 (hqs q hq).2 child
        simp only [hmap _ hitems, hmap _ hseparators]
    · rfl
    · simp only [hpart _ List.mem_cons_self]
    · simp only [hpart _ List.mem_cons_self]
    · simp only [hpart _ List.mem_cons_self]
    · simp only [hpart _ List.mem_cons_self]
    · simp only [hpart _ List.mem_cons_self]
    · rfl
    · rfl
    · rfl

theorem rebuildTo_eq_rebuild (hs : s.Sound) (hf : s.HasFragment f) {d : Nat} (hd : f < d)
    (id : PatternId) :
    rebuildTo g s.fragments tokens d id f = rebuild g s.fragments tokens id f := by
  -- on the number: the parts have smaller ones, and one level less is enough for them
  induction f using Nat.strongRecOn generalizing d id with
  | ind f ih =>
    obtain ⟨d, rfl⟩ : ∃ e, d = e + 1 := Nat.exists_eq_add_one_of_ne_zero (Nat.ne_zero_of_lt hd)
    refine rebuildTo_congr hs hf ?_ id
    intro q hq hlt id
    rw [ih q hlt hq (hlt.trans_le (Nat.le_of_lt_succ hd)) id, ih q hlt hq hlt id]

/-- A fault of a reading is one of the form of a fragment, or comes from the reading of a smaller
one. -/
theorem exists_error_of_rebuildTo (hs : s.Sound) (hf : s.HasFragment f) {d : Nat} {id : PatternId}
    {fault : Fault}
    (h : rebuildTo g s.fragments tokens (d + 1) id f = (.error fault : Except Fault (Tree ν))) :
    (∀ other, fault ≠ .cannotHold other "") ∨ ∃ child q, s.HasFragment q ∧ q < f ∧
      rebuildTo g s.fragments tokens d child q = (.error fault : Except Fault (Tree ν)) := by
  obtain ⟨fragment, hfragment⟩ := hf
  -- faults of the form itself, and those of the only part that is read
  have hform {own : Fault} (hown : ∀ other, own ≠ .cannotHold other "")
      (h : (.error own : Except Fault (Tree ν)) = .error fault) :
      ∀ other, fault ≠ .cannotHold other "" :=
    Except.error.inj h ▸ hown
  have hmismatch {kind : PatternKind}
      (h : (.error (.cannotHold id kind.tag) : Except Fault (Tree ν)) = .error fault) :
      ∀ other, fault ≠ .cannotHold other "" :=
    hform (fun other heq => kind.tag_ne_empty (Fault.cannotHold.inj heq).2) h
  have hpart {make : Tree ν → Tree ν} {child : PatternId} {q : FragmentId}
      (hq : q ∈ fragment.parts)
      (h : (rebuildTo g s.fragments tokens d child q).map make = .error fault) :
      ∃ child q, s.HasFragment q ∧ q < f ∧
        rebuildTo g s.fragments tokens d child q = (.error fault : Except Fault (Tree ν)) :=
    ⟨child, q, hs.exists_part hfragment hq, hs.parts_lt hfragment q hq, map_eq_error_iff.1 h⟩
  unfold rebuildTo at h
  rw [Interner.get_eq_of_get? hfragment] at h
  cases hp : g.pattern? id with
  | none =>
    rw [hp] at h
    exact .inl (hform (by simp) h)
  | some p =>
    simp only [hp] at h
    generalize p.kind = kind at h
    split at h
    · split at h
      · cases h
      · exact .inl (hmismatch h)
    · split at h
      · rename_i parts hparts
        have hstored := hasFragment_of_sequenceParts? hs hparts
        split at h
        · obtain ⟨⟨child, part⟩, hmem, h⟩ :=
            exists_of_mapM_eq_error (bind_pure_eq_error_iff.1 h)
          obtain ⟨hmem, hlt⟩ := hstored part (List.of_mem_zip hmem).2
          exact .inr ⟨child, part, hmem, hlt, h⟩
        · exact .inl (hmismatch h)
      · exact .inl (hmismatch h)
    · split at h
      · exact .inr (hpart List.mem_cons_self h)
      · exact .inl (hform (by simp) h)
    · split at h
      · rename_i items separators hparts
        obtain ⟨hitems, hseparators⟩ := hasFragment_of_manyParts? hs hparts
        rcases bind_eq_error_iff.1 h with h | ⟨trees, -, h⟩
        · obtain ⟨q, hq, h⟩ := exists_of_mapM_eq_error h
          exact .inr ⟨_, q, (hitems q hq).1, (hitems q hq).2, h⟩
        · split at h
          · obtain ⟨q, hq, h⟩ := exists_of_mapM_eq_error (bind_pure_eq_error_iff.1 h)
            exact .inr ⟨_, q, (hseparators q hq).1, (hseparators q hq).2, h⟩
          · split at h
            · cases h
            · exact .inl (hform (by simp) h)
      · exact .inl (hmismatch h)
    · cases h
    · exact .inr (hpart List.mem_cons_self h)
    · split at h
      · exact .inr (hpart List.mem_cons_self h)
      · exact .inl (hform (by simp) h)
    · exact .inr (hpart List.mem_cons_self h)
    · exact .inr (hpart List.mem_cons_self h)
    · exact .inr (hpart List.mem_cons_self h)
    · cases h
    · cases h
    · exact .inl (hmismatch h)

/-- The depth that the number of a fragment gives is enough to read it.  A used-up depth is the fault
that names no kind of pattern. -/
theorem rebuildTo_ne_exhausted (hs : s.Sound) (hf : s.HasFragment f) {d : Nat} (hd : f < d)
    (id other : PatternId) :
    rebuildTo g s.fragments tokens d id f ≠
      (.error (.cannotHold other "") : Except Fault (Tree ν)) := by
  induction f using Nat.strongRecOn generalizing d id with
  | ind f ih =>
    intro h
    obtain ⟨d, rfl⟩ : ∃ e, d = e + 1 := Nat.exists_eq_add_one_of_ne_zero (Nat.ne_zero_of_lt hd)
    rcases exists_error_of_rebuildTo hs hf h with hother | ⟨child, q, hq, hlt, h⟩
    · exact hother other rfl
    · exact ih q hlt hq (hlt.trans_le (Nat.le_of_lt_succ hd)) child h

/-! ### Stores -/

/-- Equal values have one number.  A fragment refers to smaller numbers, so that reading it back ends
before the depth that its number gives is used up, and it stands for one tree, which is that of no
other fragment. -/
structure Store.Shares (g : Grammar) (tokens : Array τ) (s : Store) : Prop where
  results : s.results.Exact
  fragments : s.fragments.Exact
  failures : s.failures.Exact
  maps : s.maps.Exact
  parts_lt : ∀ {f fragment}, s.fragments.get? f = some fragment → ∀ q ∈ fragment.parts, q < f
  node : ∀ {f}, s.HasFragment f → ∃ n, s.node? f = some n ∧ ∀ q ∈ n.parts, q < f
  node_eq_iff : ∀ {f f' n n'}, s.node? f = some n → s.node? f' = some n' → (f = f' ↔ n = n')
  reading_ends : ∀ {f}, s.HasFragment f → ∀ id,
    (∀ other, rebuild g s.fragments tokens id f ≠ .error (.cannotHold other "")) ∧
    ∀ depth, f < depth →
      rebuildTo g s.fragments tokens depth id f = rebuild g s.fragments tokens id f
  expands : ∀ {f}, s.HasFragment f → ∃ tree : Expansion ν, s.Expands tokens f tree
  expands_eq_iff : ∀ {f f'} {tree tree' : Expansion ν}, s.Expands tokens f tree →
    s.Expands tokens f' tree' → (f = f' ↔ tree = tree')

theorem Store.Spanned.shares (hs : s.Sound) (hspanned : s.Spanned (.ofTokens tokens)) :
    s.Shares g tokens where
  results := hs.results.exact
  fragments := hs.fragments.exact
  failures := hs.failures.exact
  maps := hs.maps.exact
  parts_lt := hs.parts_lt
  node {f} hf := by
    obtain ⟨fragment, hstored⟩ := hf
    obtain ⟨form, i, j, hspans⟩ := hspanned f fragment hstored
    obtain ⟨n, hnode⟩ := Option.isSome_iff_exists.1 (hspans.isSome_node? hs)
    exact ⟨n, hnode, fun q hq => (hs.lt_of_node? hnode q hq).2⟩
  node_eq_iff {f f' n n'} hnode hnode' := by
    constructor
    · rintro rfl
      exact Option.some.inj (hnode.symm.trans hnode')
    · rintro rfl
      exact Store.node?_inj hs hspanned hnode hnode'
  reading_ends hf id :=
    ⟨rebuildTo_ne_exhausted hs hf (Nat.lt_succ_self _) id,
      fun depth hdepth => rebuildTo_eq_rebuild hs hf hdepth id⟩
  expands hf := exists_expands hs hspanned hf
  expands_eq_iff {f f' tree tree'} h h' := by
    constructor
    · rintro rfl
      exact h.unique hs h'
    · rintro rfl
      exact h.inj hs hspanned h'

/-- In every state of a run, and when it ends, equal values have one number, and so have fragments
that stand for equal trees; a number keeps its value for the rest of the run; and tokens have one
number exactly if they have one value. -/
theorem equal_trees_share_numbers (hg : g.Built) (tokens : Array τ) (root : PatternId)
    (fuel : Nat) :
    (∀ m, run g (.ofTokens tokens) fuel (.initial root) = .running m →
      m.tables.store.Shares g tokens ∧
      (∀ more m', run g (.ofTokens tokens) (fuel + more) (.initial root) = .running m' →
        m.tables.store.Grows m'.tables.store) ∧
      ∀ more results t, run g (.ofTokens tokens) (fuel + more) (.initial root) =
        .finished results t → m.tables.store.Grows t.store) ∧
    (∀ results t, run g (.ofTokens tokens) fuel (.initial root) = .finished results t →
      t.store.Shares g tokens) ∧
    ∀ i i' token token', tokens[i]? = some token → tokens[i']? = some token' →
      ((Input.ofTokens tokens).value i = (Input.ofTokens tokens).value i' ↔
        Token.value token = Token.value token') := by
  have hshares {fuel : Nat} {m : Machine}
      (h : run g (.ofTokens tokens) fuel (.initial root) = .running m) :
      m.tables.store.Shares g tokens :=
    (spanned_of_run hg.closed h).shares (sound_of_run hg.closed h).tables.store
  refine ⟨?_, ?_, ?_⟩
  · intro m h
    have hplain : m.Plain g tokens := plain_of_run hg.closed h
    refine ⟨hshares h, ?_, ?_⟩
    · intro more m' h'
      rw [run_add_of_running h] at h'
      exact grows_of_run hg.closed hplain h'
    · intro more results t h'
      rw [run_add_of_running h] at h'
      obtain ⟨more', hends⟩ := exists_running_of_finished h'
      exact grows_of_run hg.closed hplain hends
  · intro results t h
    obtain ⟨fuel', hends⟩ := exists_running_of_finished h
    exact hshares hends
  · intro i i' token token' htoken htoken'
    constructor
    · intro hnumber
      have h : NumberOf tokens ((Input.ofTokens tokens).value i) (Token.value token) :=
        ⟨i, token, htoken, rfl, rfl⟩
      have h' : NumberOf tokens ((Input.ofTokens tokens).value i) (Token.value token') :=
        ⟨i', token', htoken', hnumber.symm, rfl⟩
      exact NumberOf.right_unique h h'
    · exact value_eq_of_value_eq htoken htoken'

end

/-- When `a x x` has been recognized, the longest match ends in the `x` that is also part of the
match before it, and no other fragment stands for it. -/
theorem equal_trees_share_numbers_suffixes :
    ∃ m results t,
      run Grammar.suffixes (.ofTokens #["a", "x", "x"]) 40 (.initial 4) = .running m ∧
      run Grammar.suffixes (.ofTokens #["a", "x", "x"]) (40 + 160) (.initial 4) =
        .finished results t ∧
      m.tables.store.Grows t.store ∧
      t.store.node? 10 = some (.sequence [8, 5]) ∧ (∀ q ∈ [8, 5], q < 10) ∧
      (∃ tree : Expansion String, t.store.Expands #["a", "x", "x"] 10 tree ∧
        ∀ f, t.store.Expands #["a", "x", "x"] f tree → f = 10) ∧
      (Input.ofTokens #["a", "x", "x"]).value 1 = (Input.ofTokens #["a", "x", "x"]).value 2 := by
  have hrunning : (match run Grammar.suffixes (.ofTokens #["a", "x", "x"]) 40 (.initial 4) with
      | .finished _ _ => false
      | .running _ => true
      | .faulted _ => false) = true := by
    decide +kernel
  have hfinished : (match run Grammar.suffixes (.ofTokens #["a", "x", "x"]) (40 + 160) (.initial 4)
        with
      | .finished _ t => t.store.node? 10
      | .running _ => none
      | .faulted _ => none) = some (.sequence [8, 5]) := by
    decide +kernel
  split at hrunning
  case h_2 m h =>
    split at hfinished
    case h_1 results t h' =>
      have hshares := equal_trees_share_numbers (ν := String) Grammar.built_suffixes
        #["a", "x", "x"] 4
      obtain ⟨-, -, hgrows⟩ := (hshares 40).1 m h
      have ht := (hshares (40 + 160)).2.1 results t h'
      have hstored := Store.hasFragment_of_node? hfinished
      obtain ⟨n, hnode, hlt⟩ := ht.node hstored
      obtain rfl := Option.some.inj (hfinished.symm.trans hnode)
      obtain ⟨tree, htree⟩ := ht.expands hstored
      refine ⟨m, results, t, h, h', hgrows 160 results t h', hfinished, hlt,
        ⟨tree, htree, ?_⟩, ?_⟩
      · intro f hf
        exact (ht.expands_eq_iff hf htree).2 rfl
      · exact ((hshares 0).2.2 1 2 "x" "x" rfl rfl).2 rfl
    all_goals cases hfinished
  all_goals cases hrunning

end ReversibleGrammar
