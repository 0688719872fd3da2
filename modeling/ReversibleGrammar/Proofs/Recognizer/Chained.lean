/-
Results that are chains of a repetition.

A result carries its chain as fragments, each of which refers to the one before it.
A fragment determines where it stops, so that a result is one chain only.

* `Store.Spans.stop_unique` — a fragment stops at one position only, whatever form it is of;
* `Store.Chained`, `Store.HoldsChain` — a fragment, or a result, is a chain part by part;
* `Store.HoldsChain.eq_iff` — results are equal exactly if their chains are;
* `Store.successes` — the successes among results, by fragment and stop.
-/
import ReversibleGrammar.Proofs.Recognizer.Meaning
import ReversibleGrammar.Proofs.Recognizer.Operation
import ReversibleGrammar.Proofs.Recognizer.Rounds

namespace ReversibleGrammar

/-! ### Where a fragment stops -/

section

variable {s t : Store} {input : Input}

/-- A fragment is a leaf, or its parts follow each other. -/
theorem Store.Spans.cases {form : Form} {f : FragmentId} {i j : Nat}
    (h : s.Spans input form f i j) : ∃ fragment, s.fragments.get? f = some fragment ∧
      ((∃ value, fragment = .leaf value) ∧ j = i + 1 ∨ (∀ value, fragment ≠ .leaf value) ∧
        Threads (fragment.parts.map fun part i j => ∃ form, s.Spans input form part i j) i j) := by
  have hone {form : Form} {part : FragmentId} {i j : Nat} (h : s.Spans input form part i j) :
      Threads ([part].map fun part i j => ∃ form, s.Spans input form part i j) i j :=
    ⟨j, ⟨form, h⟩, rfl⟩
  have htwo {form form' : Form} {before last : FragmentId} {i j k : Nat}
      (h : s.Spans input form before i j) (h' : s.Spans input form' last j k) :
      Threads ([before, last].map fun part i j => ∃ form, s.Spans input form part i j) i k :=
    ⟨j, ⟨form, h⟩, k, ⟨form', h'⟩, rfl⟩
  induction h with
  | leaf hf => exact ⟨_, hf, .inl ⟨⟨_, rfl⟩, rfl⟩⟩
  | @blank _ fragment i hf hblank =>
    refine ⟨_, hf, .inr ⟨?_, ?_⟩⟩
    · rintro value rfl
      cases hblank
    · cases fragment <;> first | rfl | cases hblank
  | @inner _ part fragment _ _ hf hpart h =>
    refine ⟨_, hf, .inr ⟨?_, ?_⟩⟩
    · rintro value rfl
      cases hpart
    · cases fragment <;> cases hpart <;> exact hone h
  | sequenceStart i hf => exact ⟨_, hf, .inr ⟨fun _ => nofun, rfl⟩⟩
  | sequenceStep hf h h' => exact ⟨_, hf, .inr ⟨fun _ => nofun, htwo h h'⟩⟩
  | manyStart _ i hf => exact ⟨_, hf, .inr ⟨fun _ => nofun, rfl⟩⟩
  | manyItem hf h h' => exact ⟨_, hf, .inr ⟨fun _ => nofun, htwo h h'⟩⟩
  | manySeparator hf h h' => exact ⟨_, hf, .inr ⟨fun _ => nofun, htwo h h'⟩⟩
  | sequence _ ih => exact ih
  | many _ ih => exact ih

theorem threads_unique {rs : List (Nat → Nat → Prop)}
    (hrs : ∀ r ∈ rs, ∀ i j j', r i j → r i j' → j = j') {i j j' : Nat} (h : Threads rs i j)
    (h' : Threads rs i j') : j = j' := by
  induction rs generalizing i with
  | nil => exact Eq.trans (Eq.symm h) h'
  | cons r rs ih =>
    obtain ⟨k, hr, hrest⟩ := h
    obtain ⟨k', hr', hrest'⟩ := h'
    obtain rfl := hrs r List.mem_cons_self i k k' hr hr'
    exact ih (fun r hr => hrs r (List.mem_cons_of_mem _ hr)) hrest hrest'

/-- A fragment determines where it stops. -/
theorem Store.Spans.stop_unique (hs : s.Sound) {form form' : Form} {f : FragmentId} {i j j' : Nat}
    (h : s.Spans input form f i j) (h' : s.Spans input form' f i j') : j = j' := by
  -- the parts of a fragment have smaller numbers
  induction f using Nat.strongRecOn generalizing form form' i j j' with
  | ind f ih =>
    obtain ⟨fragment, hf, hcase⟩ := h.cases
    obtain ⟨_, hf', hcase'⟩ := h'.cases
    obtain rfl := Option.some.inj (hf.symm.trans hf')
    rcases hcase with ⟨⟨value, rfl⟩, rfl⟩ | ⟨hleaf, hthreads⟩
    · rcases hcase' with ⟨-, rfl⟩ | ⟨hleaf, -⟩
      · rfl
      · exact absurd rfl (hleaf value)
    · rcases hcase' with ⟨⟨value, rfl⟩, -⟩ | ⟨-, hthreads'⟩
      · exact absurd rfl (hleaf value)
      · refine threads_unique (fun r hr i j j' hspans hspans' => ?_) hthreads hthreads'
        obtain ⟨part, hpart, rfl⟩ := List.mem_map.1 hr
        obtain ⟨_, hspans⟩ := hspans
        obtain ⟨_, hspans'⟩ := hspans'
        exact ih part (hs.parts_lt hf part hpart) hspans hspans'

/-- A fragment stays within the input. -/
theorem Store.Spans.le {form : Form} {f : FragmentId} {i j : Nat} (h : s.Spans input form f i j)
    (hi : i ≤ input.size) : i ≤ j ∧ j ≤ input.size := by
  induction h with
  | leaf _ hlt => exact ⟨Nat.le_succ _, hlt⟩
  | blank | sequenceStart | manyStart => exact ⟨le_rfl, hi⟩
  | inner _ _ _ ih | sequence _ ih | many _ ih => exact ih hi
  | sequenceStep _ _ _ ih ih' | manyItem _ _ _ ih ih' | manySeparator _ _ _ ih ih' =>
    obtain ⟨hle, hj⟩ := ih hi
    obtain ⟨hle', hk⟩ := ih' hj
    exact ⟨hle.trans hle', hk⟩

/-! ### Results that are chains -/

/-- The fragment is the chain, part by part, and each part stands for its tokens. -/
inductive Store.Chained (s : Store) (input : Input) (start : Nat) :
    FragmentId → PartialChain → Prop
  | start {f : FragmentId} (hf : s.fragments.get? f = some .manyStart) :
      Chained s input start f ⟨[], none⟩
  | item {f before : FragmentId} {c : PartialChain} {item : Success}
      (hf : s.fragments.get? f = some (.manyItem before item.fragment))
      (h : Chained s input start before c)
      (hspans : s.Spans input .whole item.fragment (c.stop start) item.stop) :
      Chained s input start f (c.withItem item)
  | separator {f before : FragmentId} {c : PartialChain} {separator : Success}
      (hf : s.fragments.get? f = some (.manySeparator before separator.fragment))
      (h : Chained s input start before c) (hcomplete : c.pending = none)
      (hspans : s.Spans input .whole separator.fragment (c.stop start) separator.stop) :
      Chained s input start f (c.withSeparator separator)

/-- The number stands for a match that is the chain. -/
def Store.HoldsChain (s : Store) (input : Input) (start : Nat) (r : ResultId) (c : PartialChain) :
    Prop :=
  ∃ f, s.Matched r f (c.stop start) ∧ s.Chained input start f c

variable {start : Nat} {f f' : FragmentId} {c d : PartialChain} {r r' : ResultId}

theorem Store.Chained.mono (hgrows : s.Grows t) (h : s.Chained input start f c) :
    t.Chained input start f c := by
  induction h with
  | start hf => exact .start (hgrows.fragments hf)
  | item hf _ hspans ih => exact .item (hgrows.fragments hf) ih (hspans.mono hgrows)
  | separator hf _ hcomplete hspans ih =>
    exact .separator (hgrows.fragments hf) ih hcomplete (hspans.mono hgrows)

theorem Store.HoldsChain.mono (hgrows : s.Grows t) (h : s.HoldsChain input start r c) :
    t.HoldsChain input start r c := by
  obtain ⟨f, hmatched, hchained⟩ := h
  exact ⟨f, hgrows.matched hmatched, hchained.mono hgrows⟩

/-- A chain stays within the input. -/
theorem Store.Chained.le (hstart : start ≤ input.size) (h : s.Chained input start f c) :
    c.mark start ≤ c.stop start ∧ c.stop start ≤ input.size := by
  induction h with
  | start => exact ⟨le_rfl, hstart⟩
  | item _ _ hspans ih =>
    rw [PartialChain.mark_withItem, PartialChain.stop_withItem]
    exact ⟨le_rfl, (hspans.le ih.2).2⟩
  | separator _ _ _ hspans ih =>
    obtain ⟨hle, hstop⟩ := hspans.le ih.2
    exact ⟨ih.1.trans hle, hstop⟩

/-- A fragment is one chain only. -/
theorem Store.Chained.chain_unique (hs : s.Sound) (h : s.Chained input start f c)
    (h' : s.Chained input start f d) : c = d := by
  have hsuccess {a b : Success} {i : Nat} (hfragment : a.fragment = b.fragment)
      (ha : s.Spans input .whole a.fragment i a.stop)
      (hb : s.Spans input .whole b.fragment i b.stop) : a = b := by
    obtain ⟨fragment, stop⟩ := a
    obtain ⟨_, stop'⟩ := b
    obtain rfl : fragment = _ := hfragment
    rw [show stop = stop' from ha.stop_unique hs hb]
  -- the form of the fragment says which part comes last, and its numbers what that part is
  induction h generalizing d with
  | start hf =>
    cases h' with
    | start => rfl
    | item hf' | separator hf' => simp [hf] at hf'
  | item hf _ hspans ih =>
    cases h' with
    | start hf' | separator hf' => simp [hf] at hf'
    | item hf' h' hspans' =>
      rw [hf, Option.some.injEq, Fragment.manyItem.injEq] at hf'
      obtain ⟨rfl, hfragment⟩ := hf'
      obtain rfl := ih h'
      rw [hsuccess hfragment hspans hspans']
  | separator hf _ _ hspans ih =>
    cases h' with
    | start hf' | item hf' => simp [hf] at hf'
    | separator hf' h' _ hspans' =>
      rw [hf, Option.some.injEq, Fragment.manySeparator.injEq] at hf'
      obtain ⟨rfl, hfragment⟩ := hf'
      obtain rfl := ih h'
      rw [hsuccess hfragment hspans hspans']

/-- A chain has one fragment only. -/
theorem Store.Chained.fragment_unique (hs : s.Sound) (h : s.Chained input start f c)
    (h' : s.Chained input start f' c) : f = f' := by
  have hstored {x : Fragment} {f f' : FragmentId} (hf : s.fragments.get? f = some x)
      (hf' : s.fragments.get? f' = some x) : f = f' :=
    Option.some.inj (((hs.fragments x f).2 hf).symm.trans ((hs.fragments x f').2 hf'))
  induction h generalizing f' with
  | start hf =>
    generalize hd : (⟨[], none⟩ : PartialChain) = d at h'
    cases h' with
    | start hf' => exact hstored hf hf'
    | item => simp [PartialChain.withItem] at hd
    | separator => simp [PartialChain.withSeparator] at hd
  | item hf _ _ ih =>
    rename_i c item _ _
    generalize hd : c.withItem item = d at h'
    cases h' with
    | start => simp [PartialChain.withItem] at hd
    | separator => simp [PartialChain.withItem, PartialChain.withSeparator] at hd
    | @item _ _ c' item' hf' h' =>
      obtain ⟨rounds, pending⟩ := c
      obtain ⟨rounds', pending'⟩ := c'
      simp only [PartialChain.withItem, PartialChain.mk.injEq, and_true] at hd
      obtain ⟨rfl, hround⟩ := List.append_inj' hd rfl
      simp only [List.cons.injEq, Round.mk.injEq, and_true] at hround
      obtain ⟨rfl, rfl⟩ := hround
      obtain rfl := ih h'
      exact hstored hf hf'
  | separator hf _ hcomplete _ ih =>
    rename_i c separator _ _
    generalize hd : c.withSeparator separator = d at h'
    cases h' with
    | start => simp [PartialChain.withSeparator] at hd
    | item => simp [PartialChain.withItem, PartialChain.withSeparator] at hd
    | @separator _ _ c' separator' hf' h' hcomplete' =>
      obtain ⟨rounds, pending⟩ := c
      obtain ⟨rounds', pending'⟩ := c'
      obtain rfl : pending = none := hcomplete
      obtain rfl : pending' = none := hcomplete'
      simp only [PartialChain.withSeparator, PartialChain.mk.injEq, Option.some.injEq] at hd
      obtain ⟨rfl, rfl⟩ := hd
      obtain rfl := ih h'
      exact hstored hf hf'

/-- Results are equal exactly if their chains are. -/
theorem Store.HoldsChain.eq_iff (hs : s.Sound) (h : s.HoldsChain input start r c)
    (h' : s.HoldsChain input start r' d) : r = r' ↔ c = d := by
  obtain ⟨f, hmatched, hchained⟩ := h
  obtain ⟨f', hmatched', hchained'⟩ := h'
  constructor
  · rintro rfl
    rw [Store.Matched, hmatched, Option.some.injEq, Result.mk.injEq, Outcome.success.injEq]
      at hmatched'
    obtain ⟨rfl, -⟩ := hmatched'
    exact hchained.chain_unique hs hchained'
  · rintro rfl
    obtain rfl := hchained.fragment_unique hs hchained'
    exact Option.some.inj
      (((hs.results _ r).2 hmatched).symm.trans ((hs.results _ r').2 hmatched'))
/-- A match made of a chain and a success is the chain with one part more. -/
theorem Store.Made.holdsChain {isSeparator : Bool} {success : Success}
    (h : s.Made r (.manyStep isSeparator f success.fragment) success.stop)
    (hchained : s.Chained input start f c) (hcomplete : isSeparator = true → c.pending = none)
    (hspans : s.Spans input .whole success.fragment (c.stop start) success.stop) :
    s.HoldsChain input start r (c.extend isSeparator success) := by
  obtain ⟨f', hmatched, hf'⟩ := h
  refine ⟨f', by rwa [PartialChain.stop_extend], ?_⟩
  cases isSeparator with
  | true => exact .separator hf' hchained (hcomplete rfl) hspans
  | false => exact .item hf' hchained hspans

/-! ### Successes -/

/-- The successes among results. -/
def Store.successes (s : Store) (results : List ResultId) : List Success :=
  results.filterMap fun r =>
    match (s.result r).outcome with
    | .success f => some ⟨f, (s.result r).stop⟩
    | .failure _ => none

/-- A success of supported results stands for its tokens. -/
theorem Store.Supports.success {τ ν : Type} [Token τ ν] {g : Grammar} {tokens : Array τ}
    {id : PatternId} {index : Nat} {results : List ResultId}
    (h : ∀ r ∈ results, s.Supports g tokens (.whole id) index r) {success : Success}
    (hsuccess : success ∈ s.successes results) :
    index ≤ success.stop ∧ success.stop ≤ tokens.size ∧
      s.Spans (.ofTokens tokens) .whole success.fragment index success.stop := by
  obtain ⟨r, hr, heq⟩ := List.mem_filterMap.1 hsuccess
  obtain ⟨-, hle, hstop, hmeans⟩ := (h r hr).result
  split at heq
  · rename_i f hf
    cases heq
    exact ⟨hle, hstop, (hmeans f hf).spans⟩
  · cases heq

theorem Store.successes_mono (hgrows : s.Grows t) {results : List ResultId}
    (hknown : ∀ r ∈ results, s.Known r) : t.successes results = s.successes results := by
  refine List.filterMap_congr fun r hr => ?_
  obtain ⟨result, hresult⟩ := hknown r hr
  rw [Store.result_eq hresult, Store.result_eq (hgrows.results hresult)]

theorem Store.successes_progressing (s : Store) (mark : Nat) (isSeparator : Bool)
    (results : List ResultId) : s.successes (progressing s mark isSeparator results) =
      (s.successes results).filter fun success => isSeparator || success.stop != mark := by
  rw [Store.successes, progressing, Store.successes, List.filterMap_filter, List.filter_filterMap]
  refine List.filterMap_congr fun r _ => ?_
  cases (s.result r).outcome with
  | success f => rfl
  | failure k => simp

/-- The successes among remade results, one by one. -/
theorem Store.forall₂_successes {make : FragmentId → Fragment} {results made : List ResultId}
    (h : List.Forall₂ (s.Remade make) results made) :
    List.Forall₂ (fun r success => s.Made r (make success.fragment) success.stop)
      (successesOf s made) (s.successes results) := by
  induction h with
  | nil => exact .nil
  | cons hremade _ ih =>
    rcases hremade with ⟨f, stop, hmatched, hmade⟩ | ⟨hfailed, rfl⟩
    · have hmade' := hmade
      obtain ⟨_, hmatched', -⟩ := hmade'
      rw [successesOf_cons_of_matched hmatched', Store.successes,
        List.filterMap_cons_some (by rw [hmatched.result_eq])]
      exact .cons hmade ih
    · obtain ⟨k, stop, map, hk⟩ := hfailed.result_eq
      rw [successesOf_cons_of_failed hfailed, Store.successes,
        List.filterMap_cons_none (by rw [hk])]
      exact ih

end

end ReversibleGrammar
