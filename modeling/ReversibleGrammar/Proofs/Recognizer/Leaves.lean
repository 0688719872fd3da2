/-
The leaves of a match, whatever pattern it is read along.

Patterns that share a label share their matches, so that a match may be read along
a pattern that it was not made for.  Reading checks the form only; it keeps the
order of the leaves all the same, because a fragment spans its tokens by its form.

* `passes_of_rebuildTo` — what is read from a fragment has the values of the tokens that the
  fragment spans, in their order;
* `all_of_rebuildTo` — its nodes are patterns of the grammar;
* `values_of_recognize`, `values_of_parseOne` — the leaves of candidates and of parses;
* `parse_keeps_values` — every tree has the values of the tokens that it takes.
-/
import ReversibleGrammar.Proofs.Recognizer.Soundness

namespace ReversibleGrammar

/-! ### Patterns at the nodes -/

/-- The patterns of all nodes have a property. -/
inductive Tree.All {ν : Type} (P : Pattern → Prop) : Tree ν → Prop
  | node {t : Tree ν} (root : P t.pattern) (children : ∀ u ∈ t.children, All P u) : All P t

theorem Tree.All.mono {ν : Type} {P Q : Pattern → Prop} (h : ∀ p, P p → Q p) {t : Tree ν}
    (ht : t.All P) : t.All Q := by
  induction ht with
  | node root _ ih => exact .node (h _ root) ih

section

variable {τ ν : Type} [Token τ ν] {g : Grammar} {tokens : Array τ} {s : Store}

/-- What is read along a pattern has patterns of the grammar at its nodes. -/
theorem all_of_rebuildTo {d : Nat} {id : PatternId} {f : FragmentId} {tree : Tree ν}
    (h : rebuildTo g s.fragments tokens d id f = .ok tree) : tree.All (· ∈ g.patterns) := by
  induction d generalizing id f tree with
  | zero => cases h
  | succ d ih =>
    obtain ⟨p, hp, hmade⟩ := rebuilds_of_rebuildTo h
    have hmem : p ∈ g.patterns := Array.mem_of_getElem? hp
    cases hmade with
    | leaf | absent | mark => exact .node hmem (List.forall_mem_nil _)
    | choice _ _ _ hinner | present _ _ hinner | wrapped _ _ hinner =>
      exact .node hmem (List.forall_mem_singleton.2 (ih hinner))
    | sequence _ _ _ htrees =>
      refine .node hmem fun u hu => ?_
      obtain ⟨x, -, hx⟩ := exists_of_forall₂_of_mem htrees hu
      exact ih hx
    | many _ _ hitems hseparators =>
      refine .node hmem (List.forall_mem_append.2 ⟨fun u hu => ?_, fun u hu => ?_⟩)
      · obtain ⟨q, -, hq⟩ := exists_of_forall₂_of_mem hitems hu
        exact ih hq
      · obtain ⟨q, -, s', -, hq⟩ := exists_of_forall₂_of_mem hseparators hu
        exact ih hq

/-! ### Parts of a match -/

variable {input : Input} {f : FragmentId} {i j : Nat}

/-- The first children of a sequence span the tokens one after the other. -/
theorem threads_of_sequenceParts? {d : Nat} {parts : List FragmentId}
    (hparts : sequenceParts? s.fragments d f = some parts) (h : s.Spans input .first f i j) :
    Threads (parts.map (s.Spans input .whole)) i j := by
  induction d generalizing f parts j with
  | zero => cases hparts
  | succ d ih =>
    unfold sequenceParts? at hparts
    cases h with
    | sequenceStart _ hf =>
      simp only [hf] at hparts
      cases hparts
      rfl
    | sequenceStep hf hbefore hlast =>
      simp only [hf] at hparts
      obtain ⟨prior, hprior, rfl⟩ := Option.map_eq_some_iff.1 hparts
      rw [List.map_append]
      exact threads_append (ih hprior hbefore) ⟨j, hlast, rfl⟩

/-- The items and separators of a repetition span the tokens in turn.  There are no separators
without a pattern for them; with one, each item before the last has one. -/
theorem threads_of_manyParts? {d : Nat} {items separators : List FragmentId}
    {separated after : Bool} (hparts : manyParts? s.fragments d f = some (items, separators))
    (h : s.Spans input (.chain separated after) f i j) :
    Threads (interleave (items.map (s.Spans input .whole))
      (separators.map (s.Spans input .whole))) i j ∧
      (separated = false → separators = []) ∧
      (separated = true → items.length = separators.length + after.toNat) := by
  induction d generalizing f items separators after j with
  | zero => cases hparts
  | succ d ih =>
    unfold manyParts? at hparts
    cases h with
    | manyStart _ _ hf =>
      simp only [hf] at hparts
      cases hparts
      exact ⟨rfl, fun _ => rfl, fun _ => rfl⟩
    | manyItem hf hbefore hlast =>
      simp only [hf] at hparts
      obtain ⟨⟨items, separators⟩, hprior, hmake⟩ := Option.map_eq_some_iff.1 hparts
      cases hmake
      obtain ⟨hthreads, hnone, hcount⟩ := ih hprior hbefore
      have hle : separators.length ≤ items.length := by
        cases separated with
        | true => exact (hcount rfl).ge
        | false => simp [hnone rfl]
      refine ⟨?_, hnone, fun hseparated => ?_⟩
      · rw [List.map_append, List.map_singleton,
          Tree.interleave_append_left (by simpa using hle)]
        exact threads_append hthreads ⟨j, hlast, rfl⟩
      · subst hseparated
        simpa using hcount rfl
    | manySeparator hf hbefore hlast =>
      simp only [hf] at hparts
      obtain ⟨⟨items, separators⟩, hprior, hmake⟩ := Option.map_eq_some_iff.1 hparts
      cases hmake
      obtain ⟨hthreads, hnone, hcount⟩ := ih hprior hbefore
      have hlength : items.length = separators.length + 1 := hcount rfl
      refine ⟨?_, (fun h => by cases h), fun _ => by simpa using hlength⟩
      rw [List.map_append, List.map_singleton,
        Tree.interleave_append_right (by simpa using hlength)]
      exact threads_append hthreads ⟨j, hlast, rfl⟩

/-- A match of the form of a sequence spans its tokens as one. -/
theorem Store.Spans.first_of_whole {d : Nat} {parts : List FragmentId}
    (hparts : sequenceParts? s.fragments d f = some parts) (h : s.Spans input .whole f i j) :
    s.Spans input .first f i j := by
  cases d with
  | zero => cases hparts
  | succ d =>
    unfold sequenceParts? at hparts
    cases h with
    | sequence h => exact h
    | leaf hf _ => simp [hf] at hparts
    | @blank _ fragment _ hf hblank => cases fragment <;> simp_all [Fragment.isBlank]
    | @inner _ _ fragment _ _ hf hpart _ => cases fragment <;> simp_all [Fragment.inner?]
    | many h => cases h with | _ => simp_all

/-- A match of the form of a repetition spans its tokens as one. -/
theorem Store.Spans.chain_of_whole {d : Nat} {parts : List FragmentId × List FragmentId}
    (hparts : manyParts? s.fragments d f = some parts) (h : s.Spans input .whole f i j) :
    ∃ separated, s.Spans input (.chain separated separated) f i j := by
  cases d with
  | zero => cases hparts
  | succ d =>
    unfold manyParts? at hparts
    cases h with
    | many h => exact ⟨_, h⟩
    | leaf hf _ => simp [hf] at hparts
    | @blank _ fragment _ hf hblank => cases fragment <;> simp_all [Fragment.isBlank]
    | @inner _ _ fragment _ _ hf hpart _ => cases fragment <;> simp_all [Fragment.inner?]
    | sequence h => cases h with | _ => simp_all

/-- A match of the form of a leaf spans one token. -/
theorem Store.Spans.leaf_of_whole {value : Nat} (hf : s.fragments.get f = .leaf value)
    (h : s.Spans input .whole f i j) : value = input.value i ∧ i < input.size ∧ j = i + 1 := by
  cases h with
  | leaf hf' hi =>
    rw [Interner.get_eq_of_get? hf'] at hf
    cases hf
    exact ⟨rfl, hi, rfl⟩
  | blank _ hf' hblank =>
    rw [Interner.get_eq_of_get? hf'] at hf
    simp [hf, Fragment.isBlank] at hblank
  | inner hf' hpart _ =>
    rw [Interner.get_eq_of_get? hf'] at hf
    simp [hf, Fragment.inner?] at hpart
  | sequence h => cases h with | _ => simp_all [Interner.get_eq_of_get?]
  | many h => cases h with | _ => simp_all [Interner.get_eq_of_get?]

/-- A match without leaves and parts spans nothing. -/
theorem Store.Spans.eq_of_blank (hblank : (s.fragments.get f).isBlank = true)
    (h : s.Spans input .whole f i j) : i = j := by
  cases h with
  | leaf hf _ => simp [Interner.get_eq_of_get? hf, Fragment.isBlank] at hblank
  | blank => rfl
  | @inner _ _ fragment _ _ hf hpart _ =>
    rw [Interner.get_eq_of_get? hf] at hblank
    cases fragment <;> simp_all [Fragment.isBlank, Fragment.inner?]
  | sequence h => cases h with | _ => simp_all [Interner.get_eq_of_get?, Fragment.isBlank]
  | many h => cases h with | _ => simp_all [Interner.get_eq_of_get?, Fragment.isBlank]

/-- A match around one part spans what the part spans. -/
theorem Store.Spans.inner_of_whole {part : FragmentId}
    (hpart : (s.fragments.get f).inner? = some part) (h : s.Spans input .whole f i j) :
    s.Spans input .whole part i j := by
  cases h with
  | leaf hf _ => simp [Interner.get_eq_of_get? hf, Fragment.inner?] at hpart
  | @blank _ fragment _ hf hblank =>
    rw [Interner.get_eq_of_get? hf] at hpart
    cases fragment <;> simp_all [Fragment.isBlank, Fragment.inner?]
  | inner hf hpart' h =>
    rw [Interner.get_eq_of_get? hf, hpart'] at hpart
    exact Option.some.inj hpart ▸ h
  | sequence h => cases h with | _ => simp_all [Interner.get_eq_of_get?, Fragment.inner?]
  | many h => cases h with | _ => simp_all [Interner.get_eq_of_get?, Fragment.inner?]

/-! ### Leaves -/

/-- What is read from a fragment has the values of the tokens that the fragment spans. -/
theorem passes_of_rebuildTo {d : Nat} {id : PatternId} {f : FragmentId} {tree : Tree ν}
    (h : rebuildTo g s.fragments tokens d id f = .ok tree) :
    Tree.Passes tokens (s.Spans (.ofTokens tokens) .whole f) tree.values := by
  induction d generalizing id f tree with
  | zero => cases h
  | succ d ih =>
    -- parts that are read one by one
    have hparts {α : Type} {xs : List α} {part : α → FragmentId} {trees : List (Tree ν)}
        (htrees : List.Forall₂ (fun x tree => ∃ child,
          rebuildTo g s.fragments tokens d child (part x) = .ok tree) xs trees) :
        List.Forall₂ (Tree.Passes tokens)
          (xs.map fun x => s.Spans (.ofTokens tokens) .whole (part x)) (Tree.valuesEach trees) := by
      rw [Tree.valuesEach_eq_map, List.forall₂_map_left_iff, List.forall₂_map_right_iff]
      exact htrees.imp fun _ _ ⟨_, hx⟩ => ih hx
    obtain ⟨p, -, hmade⟩ := rebuilds_of_rebuildTo h
    intro i j hspans
    cases hmade with
    | leaf _ hf htoken hvalue =>
      obtain ⟨rfl, hi, rfl⟩ := hspans.leaf_of_whole hf
      have hi : i < tokens.size := hi
      obtain ⟨first, hfirst, hvalue'⟩ := exists_value (Array.getElem?_eq_getElem hi)
      obtain rfl := Option.some.inj (htoken.symm.trans hfirst)
      refine ⟨Nat.le_succ i, fun _ => hi, ?_⟩
      rw [Tree.span, Nat.add_sub_cancel_left, Tree.values, List.take_one, List.head?_drop]
      simp [hi, ← hvalue, hvalue']
    | sequence _ hsequence hlength htrees =>
      have hthreads := threads_of_sequenceParts? hsequence (hspans.first_of_whole hsequence)
      rw [← List.map_snd_zip hlength.ge, List.map_map] at hthreads
      exact Tree.passes_threads (hparts (htrees.imp fun _ _ h => ⟨_, h⟩)) i j hthreads
    | many _ hmany hitems hseparators =>
      obtain ⟨separated, hchain⟩ := hspans.chain_of_whole hmany
      exact Tree.passes_threads (Tree.forall₂_interleave (hparts (hitems.imp fun _ _ h => ⟨_, h⟩))
        (hparts (hseparators.imp fun _ _ ⟨_, _, h⟩ => ⟨_, h⟩)))
        i j (threads_of_manyParts? hmany hchain).1
    | absent _ hf | mark _ hf =>
      obtain rfl := hspans.eq_of_blank (by rw [hf]; rfl)
      simp [Tree.values, Tree.span]
    | choice _ _ hf hinner | present _ hf hinner | wrapped _ hf hinner =>
      exact ih hinner i j (hspans.inner_of_whole (by rw [hf]; rfl))

/-! ### Candidates and parses -/

/-- The leaves of a match are the values of the tokens that it takes. -/
theorem values_of_recognize (hg : g.Closed) {config : ParserConfig} {id : PatternId}
    (hid : id < g.patterns.size) {results : List ResultId} {store : Store}
    (h : recognize g config id tokens = .ok (results, store)) {r : ResultId} (hr : r ∈ results)
    {f : FragmentId} (hf : (store.result r).outcome = .success f) {tree : Tree ν}
    (htree : treeOf g store tokens id f = .ok tree) :
    tree.values = (tokens.toList.take (store.result r).stop).map Token.value := by
  obtain ⟨-, hmeans⟩ := means_of_recognize hg hid h hr hf
  obtain ⟨-, -, hvalues⟩ :=
    passes_of_rebuildTo (mapError_eq_ok_iff.1 htree) _ _ hmeans.spans
  rw [hvalues, Tree.span, List.drop_zero, Nat.sub_zero]

/-- The leaves of a parse are the values of all tokens, and its nodes are patterns of the
grammar. -/
theorem values_of_parseOne (hg : g.Closed) {config : ParserConfig} {id : PatternId}
    (hid : id < g.patterns.size) {tree : Tree ν} (h : parseOne g config id tokens = .ok tree) :
    tree.values = tokens.toList.map Token.value ∧ tree.All (· ∈ g.patterns) := by
  obtain ⟨trees, htrees, htree⟩ := bind_eq_ok_iff.1 h
  obtain ⟨⟨results, store⟩, hrecognize, htrees⟩ := bind_eq_ok_iff.1 htrees
  dsimp only at htrees
  split at htrees
  · cases htrees
  · cases trees with
    | nil => cases htree
    | cons first rest =>
      cases htree
      obtain ⟨f, hf, hread⟩ :=
        exists_of_forall₂_of_mem (mapM_eq_ok_iff.1 htrees) List.mem_cons_self
      obtain ⟨r, hr, hsuccess, hstop⟩ := mem_completeFragments.1 (List.mem_of_mem_take hf)
      refine ⟨?_, all_of_rebuildTo (mapError_eq_ok_iff.1 hread)⟩
      rw [values_of_recognize hg hid hrecognize hr hsuccess hread, hstop, List.take_of_length_le]
      exact le_rfl

/-- Only a pattern of the grammar is recognized. -/
theorem lt_size_of_recognize {config : ParserConfig} {id : PatternId} {results : List ResultId}
    {store : Store} (h : recognize g config id tokens = .ok (results, store)) :
    id < g.patterns.size := by
  by_contra hid
  have hp : g.pattern? id = none := Array.getElem?_eq_none (Nat.not_lt.1 hid)
  cases hfuel : config.fuel with
  | zero => simp [recognize, hfuel, run] at h
  | succ fuel => simp [recognize, hfuel, run, step, Machine.initial, invoke, hp] at h

/-- The leaves of every tree of a parse are the values of all tokens. -/
theorem values_of_parseAll (hg : g.Closed) {config : ParserConfig} {id : PatternId}
    {trees : List (Tree ν)} (h : parseAll g config id tokens = .ok trees) {tree : Tree ν}
    (htree : tree ∈ trees) : tree.values = tokens.toList.map Token.value := by
  obtain ⟨⟨results, store⟩, hrecognize, htrees⟩ := bind_eq_ok_iff.1 h
  dsimp only at htrees
  split at htrees
  · cases htrees
  · obtain ⟨f, hf, hread⟩ := exists_of_forall₂_of_mem (mapM_eq_ok_iff.1 htrees) htree
    obtain ⟨r, hr, hsuccess, hstop⟩ := mem_completeFragments.1 hf
    have hid := lt_size_of_recognize hrecognize
    rw [values_of_recognize hg hid hrecognize hr hsuccess hread, hstop, List.take_of_length_le]
    exact le_rfl

/-- The leaves of a candidate are the values of the tokens before the place where it stops. -/
theorem values_of_candidates (hg : g.Closed) {config : ParserConfig} {id : PatternId}
    {found : List (Candidate τ ν)} (h : candidates g config id tokens = .ok found) {stop : Nat}
    {tree : Tree ν} (hmem : .success stop tree ∈ found) :
    stop ≤ tokens.size ∧ tree.values = (tokens.toList.take stop).map Token.value := by
  obtain ⟨⟨results, store⟩, hrecognize, hfound⟩ := bind_eq_ok_iff.1 h
  obtain ⟨r, hr, hcandidate⟩ := exists_of_forall₂_of_mem (mapM_eq_ok_iff.1 hfound) hmem
  have hid := lt_size_of_recognize hrecognize
  unfold candidateOf at hcandidate
  split at hcandidate
  · rename_i f hf
    obtain ⟨_, htree, heq⟩ := map_eq_ok_iff.1 hcandidate
    cases heq
    exact ⟨(means_of_recognize hg hid hrecognize hr hf).1,
      values_of_recognize hg hid hrecognize hr hf htree⟩
  · cases hcandidate

/-- Whatever labels its patterns share, an accepted grammar has no tree that loses, repeats or
moves a token: trees of parses have the values of all tokens, and candidates those of the tokens
before the place where they stop. -/
theorem parse_keeps_values (hg : g.Built) (config : ParserConfig) (id : PatternId)
    (tokens : Array τ) :
    (∀ tree : Tree ν, parseOne g config id tokens = .ok tree →
      tree.values = tokens.toList.map Token.value) ∧
    (∀ trees : List (Tree ν), parseAll g config id tokens = .ok trees → ∀ tree ∈ trees,
      tree.values = tokens.toList.map Token.value) ∧
    ∀ found : List (Candidate τ ν), candidates g config id tokens = .ok found →
      ∀ stop tree, .success stop tree ∈ found →
        stop ≤ tokens.size ∧ tree.values = (tokens.toList.take stop).map Token.value := by
  refine ⟨fun tree h => ?_, fun trees h tree => values_of_parseAll hg.closed h,
    fun found h stop tree => values_of_candidates hg.closed h⟩
  obtain ⟨_, htrees, -⟩ := bind_eq_ok_iff.1 h
  obtain ⟨⟨results, store⟩, hrecognize, -⟩ := bind_eq_ok_iff.1 htrees
  exact (values_of_parseOne hg.closed (lt_size_of_recognize hrecognize) h).1

end

/-- An `a` or a `b`, in sequences that share a label. -/
def Grammar.shared : Grammar where
  patterns := #[{ id := 0, kind := .consume "a" },
    { id := 1, label := some 0, kind := .sequence [0] }, { id := 2, kind := .consume "b" },
    { id := 3, label := some 0, kind := .sequence [2] },
    { id := 4, kind := .choice [1, 3] .parallel none }]
  rules := #[]
  labels := #["letter"]

theorem Grammar.built_shared : shared.Built :=
  ⟨[.consume "a", .sequence [0], .labeled 1 "letter", .consume "b", .sequence [2],
    .labeled 3 "letter", .parallelChoice [1, 3]], by cbv⟩

/-- The match of the `a` is also read along the sequence of a `b`, and the values stay. -/
theorem parse_keeps_values_shared :
    (∃ tree, parseOne Grammar.shared ⟨3, 100⟩ 4 #["a"] = .ok tree ∧ tree.values = ["a"]) ∧
    (∃ trees, parseAll Grammar.shared ⟨3, 100⟩ 4 #["a"] = .ok trees ∧ trees.length = 2 ∧
      ∀ tree ∈ trees, tree.values = ["a"]) ∧
    ∃ found, candidates Grammar.shared ⟨3, 100⟩ 4 #["a", "b"] = .ok found ∧ found.length = 2 ∧
      ∀ stop tree, .success stop tree ∈ found →
        stop ≤ 2 ∧ tree.values = ["a", "b"].take stop := by
  have hone := parse_keeps_values Grammar.built_shared ⟨3, 100⟩ 4 #["a"]
  have htwo := parse_keeps_values Grammar.built_shared ⟨3, 100⟩ 4 #["a", "b"]
  refine ⟨?_, ?_, ?_⟩
  · obtain ⟨tree, htree, -⟩ := exists_ok_of_toOption_map
      (by decide +kernel : ((parseOne Grammar.shared ⟨3, 100⟩ 4 #["a"]).map
        fun tree : Tree String => tree.values.length).toOption = some 1)
    exact ⟨tree, htree, hone.1 tree htree⟩
  · obtain ⟨trees, htrees, hlength⟩ := exists_ok_of_toOption_map
      (by decide +kernel : ((parseAll Grammar.shared ⟨3, 100⟩ 4 #["a"]).map
        fun trees : List (Tree String) => trees.length).toOption = some 2)
    exact ⟨trees, htrees, hlength, hone.2.1 trees htrees⟩
  · obtain ⟨found, hfound, hlength⟩ := exists_ok_of_toOption_map
      (by decide +kernel : ((candidates Grammar.shared ⟨3, 100⟩ 4 #["a", "b"]).map
        fun found : List (Candidate String String) => found.length).toOption = some 2)
    refine ⟨found, hfound, hlength, fun stop tree hmem => ?_⟩
    obtain ⟨hstop, hvalues⟩ := htwo.2.2 found hfound stop tree hmem
    exact ⟨hstop, hvalues.trans (List.map_id _)⟩

end ReversibleGrammar
