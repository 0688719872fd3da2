/-
Repetitions that come further in one way only.

If an item matches in at most one way wherever it is called, and separators take no
token, then the chains of a repetition lie on one line: each comes further than those
before it, over the next item.

* `Readings.Steady` — items match in at most one way, and take tokens;
* `Chain.Before`, `chains_pairwise` — the chains in the order in which they are found;
* `stops_pairwise`, `stops_longest` — where the repetition stops, the longest match first;
* `mem_stops_extend`, `stops_induction` — it stops where it starts, and after each item.
-/
import ReversibleGrammar.Proofs.Grammar.Stops

namespace ReversibleGrammar

section

variable {α : Type} {extend : α → List α} {I : α → Prop} {R : α → α → Prop}

/-- If elements are extended in one way at most, each is related to all that come after it. -/
theorem pairwise_levels (hI : ∀ x, I x → ∀ y ∈ extend x, I y)
    (hlength : ∀ x, I x → (extend x).length ≤ 1) (hR : ∀ x, I x → ∀ y ∈ extend x, R x y)
    (htrans : ∀ x y z, R x y → R y z → R x z) (rounds : Nat) {a : α} (ha : I a) :
    (levels extend rounds [a]).Pairwise R := by
  induction rounds generalizing a with
  | zero => exact .nil
  | succ rounds ih =>
    rw [levels, List.singleton_append, List.flatMap_singleton, List.pairwise_cons]
    constructor
    · refine fun y hy => (forall_levels (I := fun y => I y ∧ R a y) (fun x hx y hy => ?_) rounds
        (fun y hy => ?_) y hy).2
      · exact ⟨hI x hx.1 y hy, htrans a x y hx.2 (hR x hx.1 y hy)⟩
      · exact ⟨hI a ha y hy, hR a ha y hy⟩
    · have hle := hlength a ha
      cases hextend : extend a with
      | nil =>
        rw [levels_nil]
        exact .nil
      | cons b rest =>
        have hb : I b := hI a ha b (by rw [hextend]; exact List.mem_cons_self)
        obtain rfl : rest = [] := by
          rw [hextend, List.length_cons] at hle
          exact List.eq_nil_of_length_eq_zero (by omega)
        exact ih hb

end

section

variable {ν : Type} {g : Grammar} {size i : Nat} {read : Readings ν} {item : PatternId}
variable {separator : Option PatternId}

/-- From the position on, items match in at most one way and take tokens, and separators take
none. -/
structure Readings.Steady (read : Readings ν) (item : PatternId) (separator : Option PatternId)
    (size i : Nat) : Prop where
  length_le : ∀ j, i ≤ j → j ≤ size → (read.stops item j).length ≤ 1
  lt : ∀ j, i ≤ j → j ≤ size → ∀ k ∈ read.stops item j, j < k
  separator : ∀ s, separator = some s → ∀ j ≤ size, read.stops s j = [j]

/-- The chain stops before the other, and an item comes next; only a separator leads from one to
the other without taking a token. -/
structure Chain.Before (read : Readings ν) (item : PatternId) (separator : Option PatternId)
    (c d : Chain ν) : Prop where
  le : c.stop ≤ d.stop
  item : c.stop < d.stop → ∃ k ∈ read.stops item c.stop, k ≤ d.stop
  next : c.nextSeparator? separator = none → c.stop < d.stop
  complete : d.isComplete = true → c.stop < d.stop

theorem Chain.Before.trans {c d e : Chain ν} (h : c.Before read item separator d)
    (h' : d.Before read item separator e) : c.Before read item separator e where
  le := h.le.trans h'.le
  item hlt := by
    rcases h.le.lt_or_eq with hcd | hcd
    · obtain ⟨k, hk, hle⟩ := h.item hcd
      exact ⟨k, hk, hle.trans h'.le⟩
    · rw [hcd] at hlt ⊢
      exact h'.item hlt
  next hnext := (h.next hnext).trans_le h'.le
  complete he := h.le.trans_lt (h'.complete he)

theorem Readings.Steady.mem_separator (h : read.Steady item separator size i) {s : PatternId}
    (hs : separator = some s) {j : Nat} (hj : j ≤ size) {y : Tree ν × Nat} (hy : y ∈ read s j) :
    y.2 = j := by
  have hstop := mem_stops.2 ⟨y, hy, rfl⟩
  rw [h.separator s hs j hj] at hstop
  exact List.mem_singleton.1 hstop

/-- The chain lies on the line: it stops where its last item does. -/
structure Chain.OnLine (size i : Nat) (c : Chain ν) : Prop where
  forward : c.Forward size i
  mark_eq : c.mark = c.stop

theorem Chain.OnLine.le_stop {c : Chain ν} (h : c.OnLine size i) : i ≤ c.stop :=
  h.forward.le_mark.trans h.forward.mark_le

theorem Chain.onLine_start (hi : i ≤ size) : (start i : Chain ν).OnLine size i :=
  ⟨forward_start hi, rfl⟩

/-- A chain is extended by a separator, which leaves its stop as it is, or by an item. -/
theorem Chain.OnLine.extend_cases (h : read.Steady item separator size i) {c d : Chain ν}
    (hc : c.OnLine size i) (hd : d ∈ c.extend read item separator) :
    c.afterItem = true ∧ separator.isSome = true ∧ d.stop = c.stop ∧ d.mark = c.mark ∧
      d.isComplete = false ∨
    d.stop ∈ read.stops item c.stop ∧ d.mark = d.stop ∧ d.isComplete = true := by
  rcases Chain.extend_cases hd with ⟨s, hs, y, hy, rfl⟩ | ⟨-, y, hy, -, rfl⟩
  · obtain ⟨hafter, rfl⟩ := Chain.nextSeparator?_eq_some hs
    have hitems : c.items.isEmpty = false := by simpa using hc.forward.items_ne_nil hafter
    exact .inl ⟨hafter, rfl, h.mem_separator rfl hc.forward.stop_le hy, rfl,
      by simp [Chain.isComplete, Chain.withSeparator, hitems]⟩
  · exact .inr ⟨mem_stops.2 ⟨y, hy, rfl⟩, rfl, rfl⟩

theorem Chain.OnLine.extend (hread : read.Forward g size) (h : read.Steady item separator size i)
    {c : Chain ν} (hc : c.OnLine size i) :
    ∀ d ∈ c.extend read item separator, d.OnLine size i := by
  intro d hd
  refine ⟨hc.forward.extend hread d hd, ?_⟩
  rcases hc.extend_cases h hd with ⟨-, -, hstop, hmark, -⟩ | ⟨-, hmark, -⟩
  · rw [hstop, hmark, hc.mark_eq]
  · exact hmark

theorem Chain.OnLine.length_extend (h : read.Steady item separator size i) {c : Chain ν}
    (hc : c.OnLine size i) : (c.extend read item separator).length ≤ 1 := by
  unfold Chain.extend
  split
  · rename_i s hs
    have hstops := h.separator s (Chain.nextSeparator?_eq_some hs).2 c.stop hc.forward.stop_le
    rw [List.length_map, ← length_stops, hstops, List.length_singleton]
  · have hlength := h.length_le c.stop hc.le_stop hc.forward.stop_le
    rw [length_stops] at hlength
    rw [List.length_map]
    exact (List.length_filter_le _ _).trans hlength

theorem Chain.OnLine.before (h : read.Steady item separator size i) {c : Chain ν}
    (hc : c.OnLine size i) :
    ∀ d ∈ c.extend read item separator, c.Before read item separator d := by
  intro d hd
  rcases hc.extend_cases h hd with ⟨hafter, hsome, hstop, -, hcomplete⟩ | ⟨hstop, -, -⟩
  · obtain ⟨s, rfl⟩ := Option.isSome_iff_exists.1 hsome
    exact ⟨hstop.ge, fun hlt => absurd hstop.symm hlt.ne, fun hnone => by
      simp [Chain.nextSeparator?, hafter] at hnone, fun hd => by simp [hcomplete] at hd⟩
  · have hlt := h.lt c.stop hc.le_stop hc.forward.stop_le _ hstop
    exact ⟨hlt.le, fun _ => ⟨_, hstop, le_rfl⟩, fun _ => hlt, fun _ => hlt⟩

theorem chains_onLine (hread : read.Forward g size) (hi : i ≤ size)
    (h : read.Steady item separator size i) :
    ∀ c ∈ read.chains item separator size i, c.OnLine size i :=
  forall_levels (fun _ hc => hc.extend hread h) _
    (List.forall_mem_singleton.2 (Chain.onLine_start hi))

/-- The chains are found in the order in which they come further. -/
theorem chains_pairwise (hread : read.Forward g size) (hi : i ≤ size)
    (h : read.Steady item separator size i) :
    (read.chains item separator size i).Pairwise (Chain.Before read item separator) :=
  pairwise_levels (fun _ hc => hc.extend hread h) (fun _ hc => hc.length_extend h)
    (fun _ hc => hc.before h) (fun _ _ _ h h' => h.trans h') _ (Chain.onLine_start hi)

/-- What holds of the start and is kept by items holds wherever a chain stops. -/
theorem chains_induction (hread : read.Forward g size) (hi : i ≤ size)
    (h : read.Steady item separator size i) {P : Nat → Prop} (hstart : P i)
    (hitem : ∀ j, i ≤ j → j ≤ size → P j → ∀ k ∈ read.stops item j, P k) :
    ∀ c ∈ read.chains item separator size i, P c.stop := by
  have hall : ∀ c ∈ read.chains item separator size i, c.OnLine size i ∧ P c.stop := by
    refine forall_levels (fun c ⟨hline, hc⟩ d hd => ⟨hline.extend hread h d hd, ?_⟩) _
      (List.forall_mem_singleton.2 ⟨Chain.onLine_start hi, hstart⟩)
    rcases hline.extend_cases h hd with ⟨-, -, hstop, -⟩ | ⟨hstop, -⟩
    · rwa [hstop]
    · exact hitem c.stop hline.le_stop hline.forward.stop_le hc _ hstop
  exact fun c hc => (hall c hc).2

theorem start_mem_chains : (Chain.start i : Chain ν) ∈ read.chains item separator size i :=
  List.mem_append_left _ List.mem_cons_self

end

/-! ### Stops of the repetition -/

section

variable {τ ν : Type} [Token τ ν] {g : Grammar} {tokens : Array τ} {i : Nat} {read : Readings ν}
variable {id : PatternId} {p : Pattern} {item : PatternId} {separator : Option PatternId}

theorem stops_many (hsolves : read.Solves g tokens) (hp : g.pattern? id = some p)
    (hkind : p.kind = .many item separator) (hi : i ≤ tokens.size) :
    read.stops id i = (((read.chains item separator tokens.size i).filter
      Chain.isComplete).map Chain.stop).reverse := by
  simp only [Readings.stops, hsolves id i hi, hp, Pattern.readings, hkind, List.map_map,
    List.map_reverse]
  rfl

theorem mem_stops_many (hsolves : read.Solves g tokens) (hp : g.pattern? id = some p)
    (hkind : p.kind = .many item separator) (hi : i ≤ tokens.size) {j : Nat} :
    j ∈ read.stops id i ↔ ∃ c ∈ read.chains item separator tokens.size i,
      c.isComplete = true ∧ c.stop = j := by
  simp [stops_many hsolves hp hkind hi, and_assoc]

theorem mem_stops_start (hsolves : read.Solves g tokens) (hp : g.pattern? id = some p)
    (hkind : p.kind = .many item separator) (hi : i ≤ tokens.size) : i ∈ read.stops id i :=
  (mem_stops_many hsolves hp hkind hi).2 ⟨.start i, start_mem_chains, rfl, rfl⟩

/-- The repetition stops further and further back: an item comes next wherever a longer match
does not stop. -/
theorem stops_pairwise (hsolves : read.Solves g tokens) (hread : read.Forward g tokens.size)
    (hp : g.pattern? id = some p) (hkind : p.kind = .many item separator)
    (hi : i ≤ tokens.size) (h : read.Steady item separator tokens.size i) :
    (read.stops id i).Pairwise fun j k => ∃ l ∈ read.stops item k, l ≤ j := by
  rw [stops_many hsolves hp hkind hi, List.pairwise_reverse, List.pairwise_map]
  refine ((chains_pairwise hread hi h).filter _).imp_of_mem fun {c d} _ hd hbefore => ?_
  exact hbefore.item (hbefore.complete (List.mem_filter.1 hd).2)

/-- The repetition may stop after an item, wherever it may stop before it. -/
theorem mem_stops_extend (hsolves : read.Solves g tokens) (hread : read.Forward g tokens.size)
    (hp : g.pattern? id = some p) (hkind : p.kind = .many item separator)
    (hi : i ≤ tokens.size) (h : read.Steady item separator tokens.size i) {j k : Nat}
    (hj : j ∈ read.stops id i) (hk : k ∈ read.stops item j) : k ∈ read.stops id i := by
  obtain ⟨c, hc, hcomplete, rfl⟩ := (mem_stops_many hsolves hp hkind hi).1 hj
  obtain ⟨z, hz, rfl⟩ := mem_stops.1 hk
  have hline := chains_onLine hread hi h c hc
  have hlt := h.lt c.stop hline.le_stop hline.forward.stop_le z.2 hk
  -- after a separator, if there are separators
  obtain ⟨d, hd, hstop, hmark, hnone⟩ : ∃ d ∈ read.chains item separator tokens.size i,
      d.stop = c.stop ∧ d.mark = c.stop ∧ d.nextSeparator? separator = none := by
    cases hnext : c.nextSeparator? separator with
    | none => exact ⟨c, hc, rfl, hline.mark_eq, hnext⟩
    | some s =>
      have hs := (Chain.nextSeparator?_eq_some hnext).2
      obtain ⟨y, hy, hstop⟩ : ∃ y ∈ read s c.stop, y.2 = c.stop := by
        rw [← mem_stops, h.separator s hs c.stop hline.forward.stop_le]
        exact List.mem_singleton_self _
      refine ⟨c.withSeparator y, mem_chains_of_extend hread hi hc ?_, hstop, hline.mark_eq, rfl⟩
      simp only [Chain.extend, hnext]
      exact List.mem_map_of_mem hy
  have hextend : d.withItem z ∈ d.extend read item separator := by
    simp only [Chain.extend, hnone]
    refine List.mem_map_of_mem (List.mem_filter.2 ⟨by rwa [hstop], ?_⟩)
    rw [hmark]
    exact decide_eq_true hlt
  exact (mem_stops_many hsolves hp hkind hi).2
    ⟨d.withItem z, mem_chains_of_extend hread hi hd hextend, rfl, rfl⟩

/-- Wherever a chain stops, the repetition may stop. -/
theorem mem_stops_of_chain (hsolves : read.Solves g tokens) (hread : read.Forward g tokens.size)
    (hp : g.pattern? id = some p) (hkind : p.kind = .many item separator)
    (hi : i ≤ tokens.size) (h : read.Steady item separator tokens.size i) :
    ∀ c ∈ read.chains item separator tokens.size i, c.stop ∈ read.stops id i :=
  chains_induction hread hi h (mem_stops_start hsolves hp hkind hi) fun _ _ _ hj _ hk =>
    mem_stops_extend hsolves hread hp hkind hi h hj hk

/-- What holds of the start and is kept by items holds wherever the repetition stops. -/
theorem stops_induction (hsolves : read.Solves g tokens) (hread : read.Forward g tokens.size)
    (hp : g.pattern? id = some p) (hkind : p.kind = .many item separator)
    (hi : i ≤ tokens.size) (h : read.Steady item separator tokens.size i) {P : Nat → Prop}
    (hstart : P i) (hitem : ∀ j, i ≤ j → j ≤ tokens.size → P j → ∀ k ∈ read.stops item j, P k) :
    ∀ j ∈ read.stops id i, P j := by
  intro j hj
  obtain ⟨c, hc, -, rfl⟩ := (mem_stops_many hsolves hp hkind hi).1 hj
  exact chains_induction hread hi h hstart hitem c hc

/-- After the longest match of the repetition, no item comes next. -/
theorem stops_longest (hsolves : read.Solves g tokens) (hread : read.Forward g tokens.size)
    (hp : g.pattern? id = some p) (hkind : p.kind = .many item separator)
    (hi : i ≤ tokens.size) (h : read.Steady item separator tokens.size i) :
    ∃ m rest, read.stops id i = m :: rest ∧ read.stops item m = [] ∧
      ∀ k ∈ rest, ∃ l ∈ read.stops item k, l ≤ m := by
  have hpairwise := stops_pairwise hsolves hread hp hkind hi h
  have hrange : ∀ j ∈ read.stops id i, i ≤ j ∧ j ≤ tokens.size := by
    intro j hj
    obtain ⟨c, hc, -, rfl⟩ := (mem_stops_many hsolves hp hkind hi).1 hj
    have hline := chains_onLine hread hi h c hc
    exact ⟨hline.le_stop, hline.forward.stop_le⟩
  have hextend {j k : Nat} := mem_stops_extend hsolves hread hp hkind hi h (j := j) (k := k)
  have hstart := mem_stops_start hsolves hp hkind hi
  revert hpairwise hrange hextend hstart
  cases read.stops id i with
  | nil => exact fun _ _ _ hstart => nomatch hstart
  | cons m rest =>
    intro hpairwise hrange hextend _
    rw [List.pairwise_cons] at hpairwise
    refine ⟨m, rest, rfl, List.eq_nil_iff_forall_not_mem.2 fun k hk => ?_, hpairwise.1⟩
    obtain ⟨him, hm⟩ := hrange m List.mem_cons_self
    have hlt := h.lt m him hm k hk
    -- a longer match would come before
    have hmem := hextend List.mem_cons_self hk
    obtain ⟨hik, hksize⟩ := hrange k hmem
    rcases List.mem_cons.1 hmem with rfl | hmem
    · exact lt_irrefl k hlt
    · obtain ⟨l, hl, hle⟩ := hpairwise.1 k hmem
      have hlt' := h.lt k hik hksize l hl
      omega

end

end ReversibleGrammar
