/-
What a stored result means.

A fragment carries no pattern; it is made for one, or for a part of a sequence or
of a repetition that is still growing.

* `Role` — what a fragment is made for;
* `Store.Spans` — a fragment has a leaf for each of the tokens between two positions, in their
  order, whatever pattern it is for;
* `Store.Holds` — a fragment is what its role asks for, over the tokens between two positions;
* `Store.Supports` — a result stays within the input, and its fragment, if it has one,
  spans its tokens and holds.  Patterns that share a label share results, so that the last
  part is claimed only where no two patterns do.
-/
import ReversibleGrammar.Proofs.Recognizer.Rebuild
import ReversibleGrammar.Recognizer.Parser

namespace ReversibleGrammar

/-- No two patterns carry the same label. -/
def Grammar.DistinctLabels (g : Grammar) : Prop :=
  ∀ {i j p q l}, g.pattern? i = some p → g.pattern? j = some q →
    p.label = some l → q.label = some l → i = j

theorem Grammar.distinctLabels_of_unlabelled {g : Grammar} (h : ∀ p ∈ g.patterns, p.label = none) :
    g.DistinctLabels := by
  intro i j p q l hp _ hl
  rw [h p (Array.mem_of_getElem? hp)] at hl
  cases hl

/-- No two patterns carry the same label if no label occurs twice. -/
theorem Grammar.distinctLabels_of_nodup {g : Grammar}
    (h : (g.patterns.toList.filterMap Pattern.label).Nodup) : g.DistinctLabels := by
  have hpairs := List.pairwise_iff_getElem.1 (List.pairwise_filterMap.1 h)
  have hlt {i j : PatternId} {p q : Pattern} {l : LabelId} (hp : g.pattern? i = some p)
      (hq : g.pattern? j = some q) (hlp : p.label = some l) (hlq : q.label = some l) : ¬ i < j := by
    intro hij
    obtain ⟨hi, rfl⟩ := Array.getElem?_eq_some_iff.1 hp
    obtain ⟨hj, rfl⟩ := Array.getElem?_eq_some_iff.1 hq
    exact hpairs i j hi hj hij l (by simpa using hlp) l (by simpa using hlq) rfl
  intro i j p q l hp hq hlp hlq
  exact Nat.le_antisymm (Nat.not_lt.1 (hlt hq hp hlq hlp)) (Nat.not_lt.1 (hlt hp hq hlp hlq))

/-- Then patterns are told apart by what they are recognized under. -/
theorem Grammar.DistinctLabels.eq_of_recognizer_eq {g : Grammar} (hl : g.DistinctLabels)
    (hids : ∀ i p, g.pattern? i = some p → p.id = i) {i j : PatternId} {p q : Pattern}
    (hp : g.pattern? i = some p) (hq : g.pattern? j = some q)
    (h : p.recognizer = q.recognizer) : i = j := by
  cases hpl : p.label with
  | some l =>
    cases hql : q.label with
    | some m =>
      simp only [Pattern.recognizer, hpl, hql, Recognizer.label.injEq] at h
      exact hl hp hq hpl (h ▸ hql)
    | none => simp [Pattern.recognizer, hpl, hql] at h
  | none =>
    cases hql : q.label with
    | some m => simp [Pattern.recognizer, hpl, hql] at h
    | none =>
      simp only [Pattern.recognizer, hpl, hql, Recognizer.pattern.injEq] at h
      rw [← hids i p hp, ← hids j q hq, h]

/-- What a fragment is made for. -/
inductive Role where
  /-- A match of a pattern. -/
  | whole (id : PatternId)
  /-- The matches of the first children of a sequence. -/
  | first (children : List PatternId)
  /-- A repetition as far as it has come; `afterItem` if a separator comes next. -/
  | chain (item : PatternId) (separator : Option PatternId) (afterItem : Bool)

/-- What a fragment is by its own form. -/
inductive Form where
  /-- A match. -/
  | whole
  /-- The first children of a sequence. -/
  | first
  /-- A repetition as far as it has come, with separators or without; `afterItem` if a separator
  comes next. -/
  | chain (separated afterItem : Bool)

/-- The form of what is made for a role. -/
def Role.form : Role → Form
  | whole _ => .whole
  | first _ => .first
  | chain _ separator afterItem => .chain separator.isSome (afterItem && separator.isSome)

/-- The part of a fragment that has one part and nothing beside it. -/
def Fragment.inner? : Fragment → Option FragmentId
  | choice _ chosen => some chosen
  | present item => some item
  | wrapped _ child => some child
  | _ => none

/-- Is a match without leaves and without parts. -/
def Fragment.isBlank : Fragment → Bool
  | absent | mark _ => true
  | _ => false

/-- The leaves of the fragment stand for the tokens from one position to another. -/
inductive Store.Spans (s : Store) (input : Input) : Form → FragmentId → Nat → Nat → Prop
  | leaf {f : FragmentId} {i : Nat} (hf : s.fragments.get? f = some (.leaf (input.value i)))
      (hi : i < input.size) : Spans s input .whole f i (i + 1)
  | blank {f : FragmentId} {fragment : Fragment} (i : Nat)
      (hf : s.fragments.get? f = some fragment) (hblank : fragment.isBlank = true) :
      Spans s input .whole f i i
  | inner {f part : FragmentId} {fragment : Fragment} {i j : Nat}
      (hf : s.fragments.get? f = some fragment) (hpart : fragment.inner? = some part)
      (h : Spans s input .whole part i j) : Spans s input .whole f i j
  | sequenceStart {f : FragmentId} (i : Nat)
      (hf : s.fragments.get? f = some .sequenceStart) : Spans s input .first f i i
  | sequenceStep {f before last : FragmentId} {i j k : Nat}
      (hf : s.fragments.get? f = some (.sequenceStep before last))
      (hbefore : Spans s input .first before i j) (hlast : Spans s input .whole last j k) :
      Spans s input .first f i k
  | sequence {f : FragmentId} {i j : Nat} (h : Spans s input .first f i j) :
      Spans s input .whole f i j
  | manyStart {f : FragmentId} (separated : Bool) (i : Nat)
      (hf : s.fragments.get? f = some .manyStart) : Spans s input (.chain separated false) f i i
  | manyItem {separated : Bool} {f before last : FragmentId} {i j k : Nat}
      (hf : s.fragments.get? f = some (.manyItem before last))
      (hbefore : Spans s input (.chain separated false) before i j)
      (hlast : Spans s input .whole last j k) :
      Spans s input (.chain separated separated) f i k
  | manySeparator {f before last : FragmentId} {i j k : Nat}
      (hf : s.fragments.get? f = some (.manySeparator before last))
      (hbefore : Spans s input (.chain true true) before i j)
      (hlast : Spans s input .whole last j k) : Spans s input (.chain true false) f i k
  | many {separated : Bool} {f : FragmentId} {i j : Nat}
      (h : Spans s input (.chain separated separated) f i j) : Spans s input .whole f i j

section

variable {τ ν : Type} [Token τ ν] (g : Grammar) (tokens : Array τ)

namespace Store

/-- The fragment is read as matches of patterns that follow each other. -/
def ReadsFirst (s : Store) (children : List PatternId) (f : FragmentId) (i j : Nat) : Prop :=
  ∃ trees : List (Tree ν), s.ReadsParts g tokens children f trees ∧
    Threads (List.zipWith (fun derives child => derives child) (Tree.derivesEach g tokens trees)
      children) i j

/-- The fragment is read as so many items and separators that follow each other. -/
def ReadsChain (s : Store) (item : PatternId) (separator : Option PatternId) (f : FragmentId)
    (i j items separators : Nat) : Prop :=
  ∃ itemTrees separatorTrees : List (Tree ν),
    s.ReadsItems g tokens item separator f itemTrees separatorTrees ∧
    itemTrees.length = items ∧ separatorTrees.length = separators ∧
    Threads (interleave ((Tree.derivesEach g tokens itemTrees).map fun derives => derives item)
      ((Tree.derivesEach g tokens separatorTrees).map
        fun derives i j => ∃ s', separator = some s' ∧ derives s' i j)) i j

/-- The fragment is what its role asks for, over the tokens from one position to another. -/
def Holds (s : Store) : Role → FragmentId → Nat → Nat → Prop
  | .whole id, f, i, j => ∃ tree : Tree ν,
    rebuild g s.fragments tokens id f = .ok tree ∧ tree.Derives g tokens id i j
  | .first children, f, i, j => s.ReadsFirst g tokens children f i j
  | .chain item none _, f, i, j => ∃ items, s.ReadsChain g tokens item none f i j items 0
  | .chain item (some separator) true, f, i, j => ∃ items,
    s.ReadsChain g tokens item (some separator) f i j (items + 1) items
  | .chain item (some separator) false, f, i, j => ∃ items,
    s.ReadsChain g tokens item (some separator) f i j items items

/-- The fragment spans the tokens, and is what its role asks for unless patterns share labels. -/
structure Means (s : Store) (role : Role) (f : FragmentId) (i j : Nat) : Prop where
  spans : s.Spans (.ofTokens tokens) role.form f i j
  holds : g.DistinctLabels → s.Holds g tokens role f i j

/-- The result stays within the input, and its fragment means what its role asks for. -/
structure Accepts (s : Store) (role : Role) (i : Nat) (r : Result) : Prop where
  le_stop : i ≤ r.stop
  stop_le : r.stop ≤ tokens.size
  means : ∀ f, r.outcome = .success f → s.Means g tokens role f i r.stop

/-- The number stands for a result that its role accepts. -/
def Supports (s : Store) (role : Role) (i : Nat) (id : ResultId) : Prop :=
  ∃ r, s.results.get? id = some r ∧ s.Accepts g tokens role i r

/-- The number stands for a failure within the input. -/
def Fails (s : Store) (i : Nat) (id : ResultId) : Prop :=
  ∃ r k, s.results.get? id = some r ∧ r.outcome = .failure k ∧ i ≤ r.stop ∧ r.stop ≤ tokens.size

end Store

end

namespace Store

variable {τ ν : Type} [Token τ ν] {g : Grammar} {tokens : Array τ} {s t : Store}

/-! ### Later stores -/

theorem Spans.mono {input : Input} (hgrows : s.Grows t) {form : Form} {f : FragmentId} {i j : Nat}
    (h : s.Spans input form f i j) : t.Spans input form f i j := by
  induction h with
  | leaf hf hi => exact .leaf (hgrows.fragments hf) hi
  | blank i hf hblank => exact .blank i (hgrows.fragments hf) hblank
  | inner hf hpart _ ih => exact .inner (hgrows.fragments hf) hpart ih
  | sequenceStart i hf => exact .sequenceStart i (hgrows.fragments hf)
  | sequenceStep hf _ _ ihbefore ihlast =>
    exact .sequenceStep (hgrows.fragments hf) ihbefore ihlast
  | sequence _ ih => exact .sequence ih
  | manyStart separated i hf => exact .manyStart separated i (hgrows.fragments hf)
  | manyItem hf _ _ ihbefore ihlast => exact .manyItem (hgrows.fragments hf) ihbefore ihlast
  | manySeparator hf _ _ ihbefore ihlast =>
    exact .manySeparator (hgrows.fragments hf) ihbefore ihlast
  | many _ ih => exact .many ih

theorem ReadsFirst.mono (hs : s.Sound) (hgrows : s.Grows t) {children : List PatternId}
    {f : FragmentId} {i j : Nat} (h : s.ReadsFirst g tokens children f i j) :
    t.ReadsFirst g tokens children f i j := by
  obtain ⟨trees, htrees, hthreads⟩ := h
  exact ⟨trees, htrees.mono hs hgrows, hthreads⟩

theorem ReadsChain.mono (hs : s.Sound) (hgrows : s.Grows t) {item : PatternId}
    {separator : Option PatternId} {f : FragmentId} {i j items separators : Nat}
    (h : s.ReadsChain g tokens item separator f i j items separators) :
    t.ReadsChain g tokens item separator f i j items separators := by
  obtain ⟨itemTrees, separatorTrees, htrees, hrest⟩ := h
  exact ⟨itemTrees, separatorTrees, htrees.mono hs hgrows, hrest⟩

theorem Holds.mono (hs : s.Sound) (hgrows : s.Grows t) {role : Role} {f : FragmentId} {i j : Nat}
    (hf : s.HasFragment f) (h : s.Holds g tokens role f i j) : t.Holds g tokens role f i j := by
  match role, h with
  | .whole id, ⟨tree, hread, hderives⟩ => exact ⟨tree, rebuild_mono hs hgrows hf hread, hderives⟩
  | .first children, h => exact ReadsFirst.mono hs hgrows h
  | .chain item none _, ⟨items, h⟩ => exact ⟨items, h.mono hs hgrows⟩
  | .chain item (some separator) true, ⟨items, h⟩ => exact ⟨items, h.mono hs hgrows⟩
  | .chain item (some separator) false, ⟨items, h⟩ => exact ⟨items, h.mono hs hgrows⟩

theorem Means.mono (hs : s.Sound) (hgrows : s.Grows t) {role : Role} {f : FragmentId} {i j : Nat}
    (hf : s.HasFragment f) (h : s.Means g tokens role f i j) : t.Means g tokens role f i j :=
  ⟨h.spans.mono hgrows, fun hl => (h.holds hl).mono hs hgrows hf⟩

theorem Supports.mono (hs : s.Sound) (hgrows : s.Grows t) {role : Role} {i : Nat} {id : ResultId}
    (h : s.Supports g tokens role i id) : t.Supports g tokens role i id := by
  obtain ⟨r, hr, hle, hstop, hmeans⟩ := h
  refine ⟨r, hgrows.results hr, hle, hstop, fun f hf => ?_⟩
  exact (hmeans f hf).mono hs hgrows (hs.fragment hr hf)

theorem Fails.mono (hgrows : s.Grows t) {i : Nat} {id : ResultId} (h : s.Fails tokens i id) :
    t.Fails tokens i id := by
  obtain ⟨r, k, hr, hrest⟩ := h
  exact ⟨r, k, hgrows.results hr, hrest⟩

/-- A failure supports every role. -/
theorem Fails.supports {i j : Nat} (hij : i ≤ j) {id : ResultId} (h : s.Fails tokens j id)
    (role : Role) : s.Supports g tokens role i id := by
  obtain ⟨r, k, hr, hk, hle, hstop⟩ := h
  refine ⟨r, hr, hij.trans hle, hstop, fun f hf => ?_⟩
  rw [hk] at hf
  cases hf

/-- A result is what it is read to be, and fails or succeeds. -/
theorem Supports.result {role : Role} {i : Nat} {id : ResultId}
    (h : s.Supports g tokens role i id) :
    s.results.get? id = some (s.result id) ∧ s.Accepts g tokens role i (s.result id) := by
  obtain ⟨r, hr, haccepts⟩ := h
  rw [result_eq hr]
  exact ⟨hr, haccepts⟩

theorem Supports.fails {role : Role} {i : Nat} {id : ResultId} {k : FailureId}
    (h : s.Supports g tokens role i id) (hk : (s.result id).outcome = .failure k) :
    s.Fails tokens i id :=
  ⟨s.result id, k, h.result.1, hk, h.result.2.le_stop, h.result.2.stop_le⟩

end Store

end ReversibleGrammar
