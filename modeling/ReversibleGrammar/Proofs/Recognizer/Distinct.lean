/-
Different matches are read as different trees.

A store keeps each fragment once, so that a tree read along a pattern tells the fragment that it is
read from.  Two things need care: the parts of a repetition come in one order only if it spans its
tokens as repetitions do, and a leaf tells its number only because equal values have one number.

* `sequenceParts?_inj`, `manyParts?_inj` — the parts tell a sequence, and a repetition that spans
  its tokens;
* `rebuildTo_inj` — the tree tells the fragment;
* `lists_of_recognize` — so the matches of a recognition are read as trees that all differ.
-/
import ReversibleGrammar.Proofs.Grammar.Fitting
import ReversibleGrammar.Proofs.Recognizer.Giving
import ReversibleGrammar.Proofs.Recognizer.Leaves

namespace ReversibleGrammar

section

variable {τ ν : Type} [Token τ ν] {g : Grammar} {tokens : Array τ} {s : Store} {input : Input}
variable {f f' : FragmentId} {i i' j j' : Nat}

/-! ### Fragments -/

theorem Store.Spans.hasFragment {form : Form} (h : s.Spans input form f i j) :
    s.HasFragment f := by
  induction h with
  | sequence _ ih | many _ ih => exact ih
  | leaf hf | blank _ hf | inner hf | sequenceStart _ hf | sequenceStep hf | manyStart _ _ hf
  | manyItem hf | manySeparator hf => exact ⟨_, hf⟩

/-- A fragment that is read is stored under one number. -/
theorem Store.Sound.eq_of_get (hs : s.Sound) (hf : s.HasFragment f) (hf' : s.HasFragment f')
    (h : s.fragments.get f = s.fragments.get f') : f = f' := by
  obtain ⟨x, hx⟩ := hf
  obtain ⟨x', hx'⟩ := hf'
  rw [Interner.get_eq_of_get? hx, Interner.get_eq_of_get? hx'] at h
  exact hs.eq_of_get? hx (h ▸ hx')

/-- Its children tell a sequence. -/
theorem sequenceParts?_inj (hs : s.Sound) {d d' : Nat} {parts : List FragmentId}
    (h : sequenceParts? s.fragments d f = some parts)
    (h' : sequenceParts? s.fragments d' f' = some parts) : f = f' := by
  induction d generalizing d' f f' parts with
  | zero => cases h
  | succ d ih =>
    cases d' with
    | zero => cases h'
    | succ d' =>
      unfold sequenceParts? at h h'
      split at h
      · rename_i hf
        cases h
        split at h'
        · rename_i hf'
          exact hs.eq_of_get? hf hf'
        · simp at h'
        · cases h'
      · rename_i before last hf
        obtain ⟨prior, hprior, rfl⟩ := Option.map_eq_some_iff.1 h
        split at h'
        · simp at h'
        · rename_i before' last' hf'
          obtain ⟨prior', hprior', heq⟩ := Option.map_eq_some_iff.1 h'
          obtain ⟨rfl, hlast⟩ := List.append_inj' heq rfl
          obtain rfl := List.singleton_inj.1 hlast
          obtain rfl := ih hprior hprior'
          exact hs.eq_of_get? hf hf'
        · cases h'
      · cases h

/-- Its items and separators tell a repetition: they come in turn, unless there are items only. -/
theorem manyParts?_inj (hs : s.Sound) {d d' : Nat} {items separators : List FragmentId}
    {separated separated' after after' : Bool}
    (hspans : s.Spans input (.chain separated after) f i j)
    (hspans' : s.Spans input (.chain separated' after') f' i' j')
    (h : manyParts? s.fragments d f = some (items, separators))
    (h' : manyParts? s.fragments d' f' = some (items, separators)) : f = f' := by
  induction d generalizing d' f f' j j' items separators after after' with
  | zero => cases h
  | succ d ih =>
    cases d' with
    | zero => cases h'
    | succ d' =>
      have hcount := (threads_of_manyParts? h hspans).2
      have hcount' := (threads_of_manyParts? h' hspans').2
      unfold manyParts? at h h'
      cases hspans with
      | manyStart _ _ hf =>
        simp only [hf] at h
        cases h
        cases hspans' with
        | manyStart _ _ hf' => exact hs.eq_of_get? hf hf'
        | manyItem hf' | manySeparator hf' => simp [hf'] at h'
      | manyItem hf hbefore _ =>
        simp only [hf] at h
        obtain ⟨⟨prior, priorSeparators⟩, hprior, hmake⟩ := Option.map_eq_some_iff.1 h
        cases hmake
        cases hspans' with
        | manyStart _ _ hf' => simp [hf'] at h'
        | manyItem hf' hbefore' _ =>
          simp only [hf'] at h'
          obtain ⟨⟨prior', priorSeparators'⟩, hprior', hmake⟩ := Option.map_eq_some_iff.1 h'
          obtain ⟨heq, rfl⟩ := Prod.mk.inj hmake
          obtain ⟨rfl, hlast⟩ := List.append_inj' heq rfl
          obtain rfl := List.singleton_inj.1 hlast
          obtain rfl := ih hbefore hbefore' hprior hprior'
          exact hs.eq_of_get? hf hf'
        | manySeparator hf' =>
          -- a repetition that ends in a separator has as many separators as items
          simp only [hf'] at h'
          obtain ⟨_, _, hmake⟩ := Option.map_eq_some_iff.1 h'
          obtain ⟨-, rfl⟩ := Prod.mk.inj hmake
          cases separated with
          | false => simpa using hcount.1 rfl
          | true =>
            have hitems := hcount.2 rfl
            have hitems' := hcount'.2 rfl
            simp only [Bool.toNat_true, Bool.toNat_false] at hitems hitems'
            omega
      | manySeparator hf hbefore _ =>
        simp only [hf] at h
        obtain ⟨⟨prior, priorSeparators⟩, hprior, hmake⟩ := Option.map_eq_some_iff.1 h
        cases hmake
        cases hspans' with
        | manyStart _ _ hf' => simp [hf'] at h'
        | manyItem hf' =>
          cases separated' with
          | false => simpa using hcount'.1 rfl
          | true =>
            have hitems := hcount.2 rfl
            have hitems' := hcount'.2 rfl
            simp only [Bool.toNat_true, Bool.toNat_false] at hitems hitems'
            omega
        | manySeparator hf' hbefore' _ =>
          simp only [hf'] at h'
          obtain ⟨⟨prior', priorSeparators'⟩, hprior', hmake⟩ := Option.map_eq_some_iff.1 h'
          obtain ⟨rfl, heq⟩ := Prod.mk.inj hmake
          obtain ⟨rfl, hlast⟩ := List.append_inj' heq rfl
          obtain rfl := List.singleton_inj.1 hlast
          obtain rfl := ih hbefore hbefore' hprior hprior'
          exact hs.eq_of_get? hf hf'

/-! ### Trees -/

/-- The parts of a sequence that spans tokens span tokens. -/
theorem Store.Spans.of_sequenceParts? {d : Nat} {parts : List FragmentId}
    (h : s.Spans input .whole f i j) (hparts : sequenceParts? s.fragments d f = some parts) :
    ∀ q ∈ parts, ∃ k l, s.Spans input .whole q k l := by
  intro q hq
  have hthreads := threads_of_sequenceParts? hparts (h.first_of_whole hparts)
  exact Tree.exists_of_threads hthreads _ (List.mem_map_of_mem hq)

/-- The parts of a repetition that spans tokens span tokens. -/
theorem Store.Spans.of_manyParts? {d : Nat} {parts : List FragmentId × List FragmentId}
    (h : s.Spans input .whole f i j) (hparts : manyParts? s.fragments d f = some parts) :
    (∀ q ∈ parts.1, ∃ k l, s.Spans input .whole q k l) ∧
      ∀ q ∈ parts.2, ∃ k l, s.Spans input .whole q k l := by
  obtain ⟨separated, hchain⟩ := h.chain_of_whole hparts
  obtain ⟨hthreads, hnone, hcount⟩ := threads_of_manyParts? hparts hchain
  have hle : parts.2.length ≤ parts.1.length := by
    cases separated with
    | true => exact hcount rfl ▸ Nat.le_add_right _ _
    | false => simp [hnone rfl]
  have hall {q : FragmentId} (hq : q ∈ parts.1 ∨ q ∈ parts.2) :
      ∃ k l, s.Spans input .whole q k l := by
    refine Tree.exists_of_threads hthreads _ (Tree.mem_interleave (by simpa using hle) ?_)
    exact hq.imp List.mem_map_of_mem List.mem_map_of_mem
  exact ⟨fun q hq => hall (.inl hq), fun q hq => hall (.inr hq)⟩

/-- Equal values have one number. -/
theorem value_eq_of_value_eq {token token' : τ} (h : tokens[i]? = some token)
    (h' : tokens[i']? = some token') (hvalue : Token.value token = Token.value token') :
    (Input.ofTokens tokens).value i = (Input.ofTokens tokens).value i' := by
  rw [value_eq_idxOf h, value_eq_idxOf h', hvalue]

/-- A tree tells the pattern and the fragment that it is read from, among fragments that span
tokens. -/
theorem rebuildTo_inj (hg : g.Closed) (hs : s.Sound) {d : Nat} {id id' : PatternId}
    {tree : Tree ν} (hspans : s.Spans (.ofTokens tokens) .whole f i j)
    (hspans' : s.Spans (.ofTokens tokens) .whole f' i' j')
    (h : rebuildTo g s.fragments tokens d id f = .ok tree)
    (h' : rebuildTo g s.fragments tokens d id' f' = .ok tree) : id = id' ∧ f = f' := by
  induction d generalizing id id' f f' i i' j j' tree with
  | zero => cases h
  | succ d ih =>
    obtain ⟨p, hp, hmade⟩ := rebuilds_of_rebuildTo h
    obtain ⟨p', hp', hmade'⟩ := rebuilds_of_rebuildTo h'
    -- parts that are read one by one
    let Reads (x : PatternId × FragmentId) (tree : Tree ν) : Prop :=
      (∃ k l, s.Spans (.ofTokens tokens) .whole x.2 k l) ∧
        rebuildTo g s.fragments tokens d x.1 x.2 = .ok tree
    have hunique : Relator.LeftUnique Reads := by
      rintro ⟨c, q⟩ ⟨c', q'⟩ tree ⟨⟨k, l, hq⟩, hread⟩ ⟨⟨k', l', hq'⟩, hread'⟩
      obtain ⟨rfl, rfl⟩ := ih hq hq' hread hread'
      rfl
    have hstored (hf : s.fragments.get f = s.fragments.get f') : f = f' :=
      hs.eq_of_get hspans.hasFragment hspans'.hasFragment hf
    have hid (heq : p = p') : id = id' := by
      rw [← hg.id_eq id p hp, ← hg.id_eq id' p' hp', heq]
    have hinner {child child' : PatternId} {q q' : FragmentId} {tree : Tree ν}
        (hq : (s.fragments.get f).inner? = some q) (hq' : (s.fragments.get f').inner? = some q')
        (hread : rebuildTo g s.fragments tokens d child q = .ok tree)
        (hread' : rebuildTo g s.fragments tokens d child' q' = .ok tree) : q = q' :=
      (ih (hspans.inner_of_whole hq) (hspans'.inner_of_whole hq') hread hread').2
    cases hmade with
    | @leaf _ value _ _ _ hf htoken hvalue =>
      cases hmade' with
      | @leaf _ value' _ _ _ hf' htoken' hvalue' =>
        have hfirst {k l value : Nat} {f : FragmentId} {token : τ}
            (hf : s.fragments.get f = .leaf value) (htoken : tokens[value]? = some token)
            (hspans : s.Spans (.ofTokens tokens) .whole f k l) : ∃ stored,
              tokens[k]? = some stored ∧ value = (Input.ofTokens tokens).value k ∧
                Token.value token = Token.value stored := by
          obtain ⟨rfl, hk, -⟩ := hspans.leaf_of_whole hf
          have hk : k < tokens.size := hk
          obtain ⟨first, hfirst, heq⟩ := exists_value (Array.getElem?_eq_getElem hk)
          obtain rfl := Option.some.inj (htoken.symm.trans hfirst)
          exact ⟨_, Array.getElem?_eq_getElem hk, rfl, heq⟩
        obtain ⟨stored, hstored', hnumber, heq⟩ := hfirst hf htoken hspans
        obtain ⟨stored', hstored'', hnumber', heq'⟩ := hfirst hf' htoken' hspans'
        have hvalues := value_eq_of_value_eq hstored' hstored''
          (heq.symm.trans ((hvalue.trans hvalue'.symm).trans heq'))
        exact ⟨hid rfl, hstored (by rw [hf, hf', hnumber, hnumber', hvalues])⟩
    | @sequence children parts _ hkind hparts hlength htrees =>
      cases hmade' with
      | @sequence children' parts' _ hkind' hparts' hlength' htrees' =>
        obtain rfl := PatternKind.sequence.inj (hkind.symm.trans hkind')
        have hread {f : FragmentId} {parts : List FragmentId} {k l : Nat}
            (hspans : s.Spans (.ofTokens tokens) .whole f k l)
            (hparts : sequenceParts? s.fragments (f + 1) f = some parts) {trees : List (Tree ν)}
            (htrees : List.Forall₂ (fun x tree => rebuildTo g s.fragments tokens d x.1 x.2 =
              .ok tree) (children.zip parts) trees) :
            List.Forall₂ Reads (children.zip parts) trees :=
          forall₂_imp_of_mem (fun x hx tree hread =>
            ⟨hspans.of_sequenceParts? hparts x.2 (List.of_mem_zip hx).2, hread⟩) htrees
        have hzip := List.left_unique_forall₂' hunique (hread hspans hparts htrees)
          (hread hspans' hparts' htrees')
        obtain rfl : parts = parts' := by
          rw [← List.map_snd_zip hlength.ge, hzip, List.map_snd_zip hlength'.ge]
        exact ⟨hid rfl, sequenceParts?_inj hs hparts hparts'⟩
    | choice hkind halternative hf hread =>
      cases hmade' with
      | choice hkind' halternative' hf' hread' =>
        obtain rfl := hinner (by rw [hf]; rfl) (by rw [hf']; rfl) hread hread'
        exact ⟨hid rfl, hstored (hf.trans hf'.symm)⟩
    | @many item separator parts _ _ hkind hparts hitems hseparators =>
      cases hmade' with
      | @many _ _ parts' _ _ hkind' hparts' hitems' hseparators' =>
        obtain ⟨rfl, rfl⟩ := PatternKind.many.inj (hkind.symm.trans hkind')
        obtain ⟨hall, hallSeparators⟩ := hspans.of_manyParts? hparts
        obtain ⟨hall', hallSeparators'⟩ := hspans'.of_manyParts? hparts'
        have hitemsEq : parts.1 = parts'.1 := by
          have hone : Relator.LeftUnique fun q tree => Reads (item, q) tree :=
            fun q q' tree hq hq' => (Prod.mk.inj (hunique hq hq')).2
          exact List.left_unique_forall₂' hone
            (forall₂_imp_of_mem (fun q hq tree hread => ⟨hall q hq, hread⟩) hitems)
            (forall₂_imp_of_mem (fun q hq tree hread => ⟨hall' q hq, hread⟩) hitems')
        have hseparatorsEq : parts.2 = parts'.2 := by
          have hone : Relator.LeftUnique fun q tree => ∃ c, Reads (c, q) tree :=
            fun q q' tree ⟨_, hq⟩ ⟨_, hq'⟩ => (Prod.mk.inj (hunique hq hq')).2
          exact List.left_unique_forall₂' hone
            (forall₂_imp_of_mem (fun q hq tree ⟨c, _, hread⟩ =>
              ⟨c, hallSeparators q hq, hread⟩) hseparators)
            (forall₂_imp_of_mem (fun q hq tree ⟨c, _, hread⟩ =>
              ⟨c, hallSeparators' q hq, hread⟩) hseparators')
        obtain rfl : parts = parts' := Prod.ext hitemsEq hseparatorsEq
        obtain ⟨_, hchain⟩ := hspans.chain_of_whole hparts
        obtain ⟨_, hchain'⟩ := hspans'.chain_of_whole hparts'
        exact ⟨hid rfl, manyParts?_inj hs hchain hchain' hparts hparts'⟩
    | absent _ hf =>
      cases hmade' with
      | absent _ hf' => exact ⟨hid rfl, hstored (hf.trans hf'.symm)⟩
    | present hkind hf hread =>
      cases hmade' with
      | present hkind' hf' hread' =>
        obtain rfl := hinner (by rw [hf]; rfl) (by rw [hf']; rfl) hread hread'
        exact ⟨hid rfl, hstored (hf.trans hf'.symm)⟩
    | wrapped hkind hf hread =>
      cases hmade' with
      | wrapped hkind' hf' hread' =>
        obtain rfl := hinner (by rw [hf]; rfl) (by rw [hf']; rfl) hread hread'
        obtain ⟨rfl, rfl⟩ := Prod.mk.inj (Option.some.inj (hkind.symm.trans hkind'))
        exact ⟨hid rfl, hstored (hf.trans hf'.symm)⟩
    | mark hkind hf =>
      cases hmade' with
      | mark hkind' hf' =>
        obtain rfl := Option.some.inj (hkind.symm.trans hkind')
        exact ⟨hid rfl, hstored (hf.trans hf'.symm)⟩

theorem rebuild_inj (hg : g.Closed) (hs : s.Sound) {id : PatternId} {tree : Tree ν}
    (hspans : s.Spans (.ofTokens tokens) .whole f i j)
    (hspans' : s.Spans (.ofTokens tokens) .whole f' i' j')
    (h : rebuild g s.fragments tokens id f = .ok tree)
    (h' : rebuild g s.fragments tokens id f' = .ok tree) : f = f' := by
  have hle : f + 1 ≤ max (f + 1) (f' + 1) := le_max_left _ _
  have hle' : f' + 1 ≤ max (f + 1) (f' + 1) := le_max_right _ _
  exact (rebuildTo_inj hg hs hspans hspans'
    (rebuildTo_mono hs (.refl s) hle hspans.hasFragment h)
    (rebuildTo_mono hs (.refl s) hle' hspans'.hasFragment h')).2

/-! ### Recognitions -/

/-- The matches of a recognition are read as trees that all differ. -/
theorem lists_of_recognize (hg : g.Closed) (hl : g.DistinctLabels) {config : ParserConfig}
    {id : PatternId} {results : List ResultId} {store : Store}
    (h : recognize g config id tokens = .ok (results, store)) :
    ∃ ys : List (Tree ν × Nat), store.Lists (store.Reads g tokens id) results ys ∧
      (ys.map Prod.fst).Nodup := by
  have hid := lt_size_of_recognize h
  obtain ⟨hgiven, hs, hknown⟩ := given_of_recognize h
  -- a match is read as a tree, and has as many leaves as it takes tokens
  have hmatched {r : ResultId} (hr : r ∈ results) {f : FragmentId} {stop : Nat}
      (hf : store.Matched r f stop) :
      store.Spans (.ofTokens tokens) .whole f 0 stop ∧ ∃ tree : Tree ν,
        rebuild g store.fragments tokens id f = .ok tree ∧ tree.values.length = stop := by
    have hsuccess : (store.result r).outcome = .success f := by rw [hf.result_eq]
    obtain ⟨hstop, hmeans⟩ := means_of_recognize hg hid h hr hsuccess
    obtain ⟨tree, htree, -⟩ := recognize_sound hg hl hid h hr hsuccess
    have hvalues := values_of_recognize hg hid h hr hsuccess htree
    rw [hf.result_eq] at hstop hmeans hvalues
    refine ⟨hmeans.spans, tree, mapError_eq_ok_iff.1 htree, ?_⟩
    simpa [hvalues] using hstop
  have hreads : ∀ r ∈ successesOf store results, ∃ y : Tree ν × Nat,
      r ∈ results ∧ store.Reads g tokens id r y := by
    intro r hr
    obtain ⟨hr, hsuccess⟩ := List.mem_filter.1 hr
    rcases hs.known_cases (hknown r hr) with ⟨f, stop, hf⟩ | hfailed
    · obtain ⟨-, tree, htree, -⟩ := hmatched hr hf
      exact ⟨(tree, stop), hr, f, hf, htree⟩
    · obtain ⟨k, stop, map, hk⟩ := hfailed.result_eq
      rw [hk] at hsuccess
      cases hsuccess
  obtain ⟨ys, hys⟩ := exists_forall₂ hreads
  refine ⟨ys, ⟨hknown, hys.imp fun _ _ hy => hy.2⟩, ?_⟩
  have hunique : Relator.BiUnique fun r (tree : Tree ν) =>
      ∃ stop, r ∈ results ∧ store.Reads g tokens id r (tree, stop) := by
    constructor
    · rintro r r' tree ⟨stop, hr, f, hf, hread⟩ ⟨stop', hr', f', hf', hread'⟩
      obtain ⟨hspans, _, htree, hlength⟩ := hmatched hr hf
      obtain ⟨hspans', _, htree', hlength'⟩ := hmatched hr' hf'
      cases htree.symm.trans hread
      cases htree'.symm.trans hread'
      obtain rfl := rebuild_inj hg hs hspans hspans' hread hread'
      obtain rfl := hlength.symm.trans hlength'
      exact hs.eq_of_result hf hf'
    · rintro r tree tree' ⟨stop, -, hread⟩ ⟨stop', -, hread'⟩
      exact hread.unique hread'
  have htrees := hys.imp fun r y (hy : r ∈ results ∧ store.Reads g tokens id r y) =>
    (⟨y.2, hy⟩ : ∃ stop, r ∈ results ∧ store.Reads g tokens id r (y.1, stop))
  exact (List.rel_nodup hunique (List.forall₂_map_right_iff.2 htrees)).1 (hgiven.nodup.filter _)

end

end ReversibleGrammar
