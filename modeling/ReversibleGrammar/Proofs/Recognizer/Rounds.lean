/-
Chains of items and separators, explored in the order of their parts.

What the calls of an item and of a separator offer at each position determines
the chains; an item has to end past the item before it.  Extending one chain
after the other by all that is offered finds each of them once, shorter ones first.

* `ChainOf` — the chains of what is offered;
* `PartialChain` — a chain, perhaps with a separator that still lacks its item;
* `Explored` — what has been found, of which some is still to be extended;
* `Explored.step` — extending the first of those;
* `Explored.chains` — when nothing is left to extend, every chain has been found.
-/
import Mathlib.Data.List.Nodup
import ReversibleGrammar.Recognizer.Result

namespace ReversibleGrammar

/-- A match that a call lists. -/
structure Success where
  fragment : FragmentId
  stop : Nat
  deriving DecidableEq

/-- An item of a repetition, with the separator before it. -/
structure Round where
  separator : Option Success
  item : Success
  deriving DecidableEq

/-- What the calls of a repetition list: separators or items, by their position. -/
abbrev Offers := Bool → Nat → Success → Prop

/-- Where the last item ends. -/
def stopAfter (start : Nat) (rounds : List Round) : Nat :=
  (rounds.getLast?.map fun round => round.item.stop).getD start

/-- The rounds are a chain of items that each end past the item before them, with separators
between them or without. -/
inductive ChainOf (offers : Offers) (separated : Bool) (start : Nat) : List Round → Prop
  | nil : ChainOf offers separated start []
  | item {rounds : List Round} {item : Success} (h : ChainOf offers separated start rounds)
      (hfirst : separated = true → rounds = [])
      (hitem : offers false (stopAfter start rounds) item)
      (hlt : stopAfter start rounds < item.stop) :
      ChainOf offers separated start (rounds ++ [⟨none, item⟩])
  | separated {rounds : List Round} {separator item : Success}
      (h : ChainOf offers separated start rounds) (hseparated : separated = true)
      (hnext : rounds ≠ []) (hseparator : offers true (stopAfter start rounds) separator)
      (hitem : offers false separator.stop item) (hlt : stopAfter start rounds < item.stop) :
      ChainOf offers separated start (rounds ++ [⟨some separator, item⟩])

/-- A chain, and a separator after it that still lacks its item. -/
structure PartialChain where
  rounds : List Round
  pending : Option Success
  deriving DecidableEq

namespace PartialChain

/-- Where the last item ends. -/
def mark (start : Nat) (c : PartialChain) : Nat := stopAfter start c.rounds

/-- Where the last part ends. -/
def stop (start : Nat) (c : PartialChain) : Nat :=
  (c.pending.map Success.stop).getD (c.mark start)

/-- Does not end with a separator. -/
def isComplete (c : PartialChain) : Bool := c.pending.isNone

/-- A separator comes next. -/
def nextIsSeparator (separated : Bool) (c : PartialChain) : Bool :=
  separated && c.isComplete && !c.rounds.isEmpty

def withItem (c : PartialChain) (item : Success) : PartialChain :=
  ⟨c.rounds ++ [⟨c.pending, item⟩], none⟩

def withSeparator (c : PartialChain) (separator : Success) : PartialChain :=
  ⟨c.rounds, some separator⟩

/-- The chain with one part more. -/
def extend (c : PartialChain) (isSeparator : Bool) (part : Success) : PartialChain :=
  if isSeparator then c.withSeparator part else c.withItem part

/-- The number of items and separators. -/
def parts (c : PartialChain) : Nat :=
  c.rounds.length + (c.rounds.filter fun round => round.separator.isSome).length +
    c.pending.isSome.toNat

/-- The part may come next: a separator or an item, and an item ends past the one before it. -/
structure MayExtend (offers : Offers) (separated : Bool) (start : Nat) (c : PartialChain)
    (part : Success) : Prop where
  offered : offers (c.nextIsSeparator separated) (c.stop start) part
  progress : c.nextIsSeparator separated = false → c.mark start < part.stop

/-- A chain, with a separator that may come after it. -/
structure Valid (offers : Offers) (separated : Bool) (start : Nat) (c : PartialChain) : Prop where
  rounds : ChainOf offers separated start c.rounds
  pending : ∀ separator, c.pending = some separator →
    separated = true ∧ c.rounds ≠ [] ∧ offers true (c.mark start) separator

end PartialChain

section

variable {offers : Offers} {separated : Bool} {start : Nat}

@[simp] theorem stopAfter_append (start : Nat) (rounds : List Round) (round : Round) :
    stopAfter start (rounds ++ [round]) = round.item.stop := by
  simp [stopAfter]

namespace PartialChain

variable {c : PartialChain}

@[simp] theorem mark_withItem (c : PartialChain) (item : Success) :
    (c.withItem item).mark start = item.stop := stopAfter_append ..

@[simp] theorem stop_withItem (c : PartialChain) (item : Success) :
    (c.withItem item).stop start = item.stop := c.mark_withItem item

theorem parts_extend {b : Bool} (h : b = true → c.isComplete = true) (part : Success) :
    (c.extend b part).parts = c.parts + 1 := by
  obtain ⟨rounds, pending⟩ := c
  cases b with
  | true =>
    have hpending : pending = none := by simpa [isComplete] using h rfl
    simp [extend, withSeparator, parts, hpending]
  | false =>
    cases pending <;> simp [extend, withItem, parts] <;> omega

theorem stop_extend (c : PartialChain) (b : Bool) (part : Success) :
    (c.extend b part).stop start = part.stop := by
  cases b with
  | true => rfl
  | false => exact c.stop_withItem part

theorem nextIsSeparator_eq_true (h : c.nextIsSeparator separated = true) :
    separated = true ∧ c.pending = none ∧ c.rounds ≠ [] := by
  simpa [nextIsSeparator, isComplete, and_assoc] using h

/-- A chain that may be extended by a part is one with it. -/
theorem Valid.extend (h : c.Valid offers separated start) {part : Success}
    (hpart : c.MayExtend offers separated start part) :
    (c.extend (c.nextIsSeparator separated) part).Valid offers separated start := by
  obtain ⟨rounds, pending⟩ := c
  obtain ⟨hoffered, hprogress⟩ := hpart
  cases hnext : nextIsSeparator separated ⟨rounds, pending⟩ with
  | true =>
    obtain ⟨hseparated, rfl, hrounds⟩ := nextIsSeparator_eq_true hnext
    rw [hnext] at hoffered
    exact ⟨h.rounds, fun _ heq => Option.some.inj heq ▸ ⟨hseparated, hrounds, hoffered⟩⟩
  | false =>
    rw [hnext] at hoffered
    refine ⟨?_, fun _ heq => nomatch heq⟩
    cases pending with
    | none =>
      refine .item h.rounds (fun hseparated => ?_) hoffered (hprogress hnext)
      simpa [nextIsSeparator, isComplete, hseparated] using hnext
    | some separator =>
      obtain ⟨hseparated, hrounds, hseparator⟩ := h.pending separator rfl
      exact .separated h.rounds hseparated hrounds hseparator hoffered (hprogress hnext)

end PartialChain

/-- There is a separator between any two items, or none at all. -/
theorem ChainOf.separators {rounds : List Round} (h : ChainOf offers separated start rounds) :
    (rounds.filter fun round => round.separator.isSome).length =
      if separated then rounds.length - 1 else 0 := by
  induction h with
  | nil => simp
  | @item rounds _ _ hfirst _ _ ih =>
    -- with separators, only the first item has none before it
    cases separated with
    | true => simp [hfirst rfl]
    | false => simpa using ih
  | @separated rounds _ _ _ hseparated hnext _ _ _ ih =>
    have hlength : 0 < rounds.length := List.length_pos_iff.2 hnext
    simp only [hseparated, if_true] at ih ⊢
    simp only [List.filter_append, List.length_append, ih, List.filter_cons, Option.isSome_some,
      if_true, List.filter_nil, List.length_singleton]
    omega

/-- A chain has no more items than one with at least as many parts. -/
theorem PartialChain.Valid.length_le {c d : PartialChain} (hc : c.Valid offers separated start)
    (hd : d.Valid offers separated start) (hcomplete : c.isComplete = true)
    (hcomplete' : d.isComplete = true) (h : c.parts ≤ d.parts) :
    c.rounds.length ≤ d.rounds.length := by
  have hpending : c.pending = none := by simpa [isComplete] using hcomplete
  have hpending' : d.pending = none := by simpa [isComplete] using hcomplete'
  simp only [parts, hc.rounds.separators, hd.rounds.separators, hpending, hpending',
    Option.isSome_none, Bool.toNat_false] at h
  split at h <;> omega

/-! ### Exploration -/

/-- `done` has been extended by all that is offered, and `queue` is still to be extended. -/
structure Explored (offers : Offers) (separated : Bool) (start : Nat)
    (done queue : List PartialChain) : Prop where
  head : (done ++ queue).head? = some ⟨[], none⟩
  nodup : (done ++ queue).Nodup
  valid : ∀ c ∈ done ++ queue, c.Valid offers separated start
  closed : ∀ c ∈ done, ∀ part, c.MayExtend offers separated start part →
    c.extend (c.nextIsSeparator separated) part ∈ done ++ queue
  sorted : (done ++ queue).Pairwise fun c d => c.parts ≤ d.parts
  /-- Nothing is more than one part ahead of what is to be extended. -/
  level : ∀ c ∈ queue, ∀ d ∈ done ++ queue, d.parts ≤ c.parts + 1

theorem explored_start (offers : Offers) (separated : Bool) (start : Nat) :
    Explored offers separated start [] [⟨[], none⟩] where
  head := rfl
  nodup := List.nodup_singleton _
  valid := List.forall_mem_singleton.2 ⟨.nil, fun _ h => nomatch h⟩
  closed := List.forall_mem_nil _
  sorted := List.pairwise_singleton _ _
  level := by simp

namespace Explored

variable {done queue : List PartialChain} {c : PartialChain}

/-- The first of the queue is extended by all that is offered, and what is new goes to the end. -/
theorem step (h : Explored offers separated start done (c :: queue)) {news : List PartialChain}
    (hnodup : (done ++ c :: queue ++ news).Nodup)
    (hnews : ∀ d ∈ news, ∃ part, c.MayExtend offers separated start part ∧
      d = c.extend (c.nextIsSeparator separated) part)
    (hall : ∀ part, c.MayExtend offers separated start part →
      c.extend (c.nextIsSeparator separated) part ∈ done ++ c :: queue ++ news) :
    Explored offers separated start (done ++ [c]) (queue ++ news) := by
  -- extending `c` moves it from one list to the other, so that only `news` is new
  have hfound : done ++ [c] ++ (queue ++ news) = done ++ c :: queue ++ news := by simp
  have hc : c ∈ done ++ c :: queue := List.mem_append_right _ List.mem_cons_self
  have hparts : ∀ d ∈ news, d.parts = c.parts + 1 := by
    intro d hd
    obtain ⟨part, -, rfl⟩ := hnews d hd
    refine PartialChain.parts_extend (fun hnext => ?_) part
    simp [PartialChain.isComplete, (PartialChain.nextIsSeparator_eq_true hnext).2.1]
  have hlevel := h.level c List.mem_cons_self
  -- what is to be extended comes after the one that was extended first
  have hqueue : ∀ d ∈ queue, c.parts ≤ d.parts := by
    have hsorted := (List.pairwise_append.1 h.sorted).2.1
    exact (List.pairwise_cons.1 hsorted).1
  refine ⟨?_, hfound ▸ hnodup, ?_, ?_, ?_, ?_⟩
  · rw [hfound, List.head?_append, h.head, Option.some_or]
  · rw [hfound]
    intro d hd
    rcases List.mem_append.1 hd with hd | hd
    · exact h.valid d hd
    · obtain ⟨part, hpart, rfl⟩ := hnews d hd
      exact (h.valid c hc).extend hpart
  · rw [hfound]
    intro d hd part hpart
    rcases List.mem_append.1 hd with hd | hd
    · exact List.mem_append_left _ (h.closed d hd part hpart)
    · obtain rfl := List.mem_singleton.1 hd
      exact hall part hpart
  · rw [hfound, List.pairwise_append]
    refine ⟨h.sorted, List.pairwise_of_forall_mem_list fun d hd e he => ?_, fun d hd e he => ?_⟩
    · exact Nat.le_of_eq ((hparts d hd).trans (hparts e he).symm)
    · exact hparts e he ▸ hlevel d hd
  · rw [hfound]
    intro d hd e he
    have hd : c.parts ≤ d.parts := by
      rcases List.mem_append.1 hd with hd | hd
      · exact hqueue d hd
      · rw [hparts d hd]
        exact Nat.le_succ _
    refine Nat.le_trans ?_ (Nat.succ_le_succ hd)
    rcases List.mem_append.1 he with he | he
    · exact hlevel e he
    · exact Nat.le_of_eq (hparts e he)

/-- When nothing is left to extend, every chain has been found. -/
theorem mem_of_chainOf (h : Explored offers separated start done []) {rounds : List Round}
    (hchain : ChainOf offers separated start rounds) : ⟨rounds, none⟩ ∈ done := by
  have hclosed := h.closed
  rw [List.append_nil] at hclosed
  -- each round of the chain is one extension, or two with a separator
  induction hchain with
  | nil =>
    have hhead := h.head
    rw [List.append_nil] at hhead
    exact List.mem_of_head? hhead
  | @item rounds item _ hfirst hitem hlt ih =>
    have hnext : PartialChain.nextIsSeparator separated ⟨rounds, none⟩ = false := by
      cases separated with
      | true => simp [PartialChain.nextIsSeparator, hfirst rfl]
      | false => rfl
    have hmem := hclosed _ ih item ⟨by rw [hnext]; exact hitem, fun _ => hlt⟩
    rwa [hnext] at hmem
  | @separated rounds separator item _ hseparated hnext hseparator hitem hlt ih =>
    have hnext : PartialChain.nextIsSeparator separated ⟨rounds, none⟩ = true := by
      simpa [PartialChain.nextIsSeparator, PartialChain.isComplete, hseparated] using hnext
    have hmem := hclosed _ ih separator ⟨by rw [hnext]; exact hseparator, by simp [hnext]⟩
    rw [hnext] at hmem
    have hnext' : PartialChain.nextIsSeparator separated ⟨rounds, some separator⟩ = false := by
      simp [PartialChain.nextIsSeparator, PartialChain.isComplete]
    have hmem := hclosed _ hmem item ⟨by
      show offers (PartialChain.nextIsSeparator separated ⟨rounds, some separator⟩) _ _
      rw [hnext']
      exact hitem, fun _ => hlt⟩
    rwa [show PartialChain.nextIsSeparator separated (PartialChain.extend ⟨rounds, none⟩ true
      separator) = false from hnext'] at hmem

/-- What has been found without a separator at its end, the last first, is every chain once, longer
ones first. -/
theorem chains (h : Explored offers separated start done []) :
    ∃ chains : List (List Round),
      (done.filter PartialChain.isComplete).reverse = chains.map (⟨·, none⟩) ∧
      (∀ rounds, rounds ∈ chains ↔ ChainOf offers separated start rounds) ∧ chains.Nodup ∧
      chains.Pairwise (fun c d => d.length ≤ c.length) ∧ chains.getLast? = some [] := by
  have hcomplete : ∀ c : PartialChain, c.isComplete = true → c = ⟨c.rounds, none⟩ := by
    rintro ⟨rounds, _ | separator⟩ hc
    · rfl
    · cases hc
  have hvalid : ∀ c ∈ done, c.Valid offers separated start :=
    fun c hc => h.valid c (List.mem_append_left _ hc)
  have hnodup := h.nodup
  have hsorted := h.sorted
  have hhead := h.head
  rw [List.append_nil] at hnodup hsorted hhead
  have hmap : (done.filter PartialChain.isComplete).reverse =
      ((done.filter PartialChain.isComplete).reverse.map PartialChain.rounds).map (⟨·, none⟩) := by
    rw [List.map_map]
    refine (List.map_id _).symm.trans (List.map_congr_left fun c hc => ?_)
    exact hcomplete c (List.of_mem_filter (List.mem_reverse.1 hc))
  refine ⟨_, hmap, fun rounds => ⟨fun hmem => ?_, fun hchain => ?_⟩, ?_, ?_, ?_⟩
  · obtain ⟨c, hc, rfl⟩ := List.mem_map.1 hmem
    exact (hvalid c (List.mem_of_mem_filter (List.mem_reverse.1 hc))).rounds
  · exact List.mem_map.2 ⟨⟨rounds, none⟩,
      List.mem_reverse.2 (List.mem_filter.2 ⟨h.mem_of_chainOf hchain, rfl⟩), rfl⟩
  · refine List.Nodup.of_map (fun rounds => (⟨rounds, none⟩ : PartialChain)) ?_
    rw [← hmap]
    exact List.nodup_reverse.2 (hnodup.filter _)
  · rw [List.pairwise_map, List.pairwise_reverse]
    refine (List.pairwise_filter.2 ?_)
    refine hsorted.imp_of_mem fun hc hd hle hcomplete hcomplete' => ?_
    exact (hvalid _ hc).length_le (hvalid _ hd) hcomplete hcomplete' hle
  · obtain ⟨rest, rfl⟩ := List.head?_eq_some_iff.1 hhead
    simp [PartialChain.isComplete]

end Explored

end

end ReversibleGrammar
