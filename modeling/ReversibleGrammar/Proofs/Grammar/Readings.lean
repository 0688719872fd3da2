/-
What a grammar matches, read off without a memory.

The matches of a pattern at a position are those of its parts, put together in
order; nothing is remembered, and no call is cut off.

* `Pattern.readings` — the matches of a pattern, given those of the patterns that it calls;
* `Grammar.readings` — the matches of all patterns, to a depth of calls;
* `Readings.Forward`, `Readings.Distinct` — they stay within the input, and none is listed
  twice;
* `Readings.Solves` — the matches of all patterns are made of each other;
* `exists_solution`, `Solves.unique` — without left recursion, that determines them.
-/
import Mathlib.Data.Finset.Lattice.Fold
import Mathlib.Data.List.Nodup
import ReversibleGrammar.Proofs.Grammar.LeftCall

namespace ReversibleGrammar

/-- The matches of each pattern at each position: trees, and where they stop. -/
abbrev Readings (ν : Type) := PatternId → Nat → List (Tree ν × Nat)

/-- What comes of a list by extending its elements again and again, level by level. -/
def levels (extend : α → List α) : Nat → List α → List α
  | 0, _ => []
  | rounds + 1, xs => xs ++ levels extend rounds (xs.flatMap extend)

/-- The matches of a choice, given those of its alternatives. -/
def ChoiceMode.select : ChoiceMode → List (List α) → List α
  | ordered, xss => (xss.find? fun xs => !xs.isEmpty).getD []
  | parallel, xss => xss.flatten

/-- A repetition as far as it has come. -/
structure Chain (ν : Type) where
  items : List (Tree ν)
  separators : List (Tree ν)
  /-- Where its last item ends. -/
  mark : Nat
  stop : Nat
  /-- It ends with an item. -/
  afterItem : Bool

namespace Chain

variable {ν : Type}

/-- The repetition without items. -/
def start (i : Nat) : Chain ν := ⟨[], [], i, i, false⟩

def withItem (c : Chain ν) (y : Tree ν × Nat) : Chain ν :=
  ⟨c.items ++ [y.1], c.separators, y.2, y.2, true⟩

def withSeparator (c : Chain ν) (y : Tree ν × Nat) : Chain ν :=
  ⟨c.items, c.separators ++ [y.1], c.mark, y.2, false⟩

/-- The separator, if one comes next. -/
def nextSeparator? (separator : Option PatternId) (c : Chain ν) : Option PatternId :=
  if c.afterItem then separator else none

/-- The repetition with one part more; an item has to end past the item before it. -/
def extend (read : Readings ν) (item : PatternId) (separator : Option PatternId) (c : Chain ν) :
    List (Chain ν) :=
  match c.nextSeparator? separator with
  | some separator => (read separator c.stop).map c.withSeparator
  | none => ((read item c.stop).filter fun y => c.mark < y.2).map c.withItem

/-- Does not end with a separator. -/
def isComplete (c : Chain ν) : Bool := c.afterItem || c.items.isEmpty

end Chain

namespace Readings

variable {ν : Type} (read : Readings ν)

/-- Matches of some children of a sequence with a match of one child more. -/
def extendPrefix (child : PatternId) (x : List (Tree ν) × Nat) : List (List (Tree ν) × Nat) :=
  (read child x.2).map fun y => (x.1 ++ [y.1], y.2)

/-- The matches of patterns that follow each other. -/
def prefixes (children : List PatternId) (i : Nat) : List (List (Tree ν) × Nat) :=
  children.foldl (fun xs child => xs.flatMap (read.extendPrefix child)) [([], i)]

/-- The matches of each alternative of a choice. -/
def alternatives (p : Pattern) (alternatives : List PatternId) (i : Nat) :
    List (List (Tree ν × Nat)) :=
  alternatives.zipIdx.map fun x => (read x.1 i).map fun y => (.choice p x.2 y.1, y.2)

/-- The repetitions of an item within an input of `size` tokens, shorter ones first. -/
def chains (item : PatternId) (separator : Option PatternId) (size i : Nat) : List (Chain ν) :=
  levels (Chain.extend read item separator) (2 * (size - i) + 1) [.start i]

end Readings

variable {τ ν : Type} [Token τ ν]

/-- The matches of a pattern at a position, given those of the patterns that it calls. -/
def Pattern.readings (p : Pattern) (g : Grammar) (tokens : Array τ) (read : Readings ν)
    (i : Nat) : List (Tree ν × Nat) :=
  match p.kind with
  | .consume terminal =>
    match tokens[i]? with
    | some token => if Token.is token terminal then [(.leaf p (Token.value token), i + 1)] else []
    | none => []
  | .sequence children => (Readings.prefixes read children i).map fun x => (.sequence p x.1, x.2)
  | .choice alternatives mode _ => mode.select (Readings.alternatives read p alternatives i)
  | .many item separator =>
    ((Readings.chains read item separator tokens.size i).filter Chain.isComplete).reverse.map
      fun c => (.many p c.items c.separators, c.stop)
  | .option item => (read item i).map (fun y => (.present p y.1, y.2)) ++ [(.absent p, i)]
  | .thunk rule =>
    match g.ruleBody? rule with
    | some body => (read body i).map fun y => (.wrapped p y.1, y.2)
    | none => []
  | .indent child | .group child | .conditional child _ _ _ =>
    (read child i).map fun y => (.wrapped p y.1, y.2)
  | .literal _ | .line _ => [(.mark p, i)]

/-- The matches of all patterns, through at most `depth` calls inside each other. -/
def Grammar.readings (g : Grammar) (tokens : Array τ) : Nat → Readings ν
  | 0, _, _ => []
  | depth + 1, id, i =>
    match g.pattern? id with
    | some p => p.readings g tokens (readings g tokens depth) i
    | none => []

theorem Pattern.readings_wrapped {p : Pattern} {g : Grammar} {wrapper : Wrapper}
    {child : PatternId} (h : p.kind.wrapped? g = some (wrapper, child)) (tokens : Array τ)
    (read : Readings ν) (i : Nat) :
    p.readings g tokens read i = (read child i).map fun y => (.wrapped p y.1, y.2) := by
  unfold readings
  cases hkind : p.kind with
  | thunk rule =>
    rw [hkind] at h
    obtain ⟨body, hbody, heq⟩ := Option.map_eq_some_iff.1 h
    cases heq
    simp only [hbody]
  | indent | group | conditional =>
    rw [hkind] at h
    cases h
    rfl
  | _ => simp [hkind, PatternKind.wrapped?] at h

theorem Pattern.mem_readings_consume {p : Pattern} {terminal : String}
    (hkind : p.kind = .consume terminal) (g : Grammar) (tokens : Array τ) (read : Readings ν)
    {i : Nat} {y : Tree ν × Nat} : y ∈ p.readings g tokens read i ↔
      ∃ token, tokens[i]? = some token ∧ Token.is token terminal = true ∧
        y = (.leaf p (Token.value token), i + 1) := by
  simp only [readings, hkind]
  cases htoken : tokens[i]? with
  | none => simp
  | some token => by_cases his : Token.is token terminal = true <;> simp [his]

theorem Pattern.readings_mark {p : Pattern} {g : Grammar} {marker : Marker}
    (h : p.kind.mark? = some marker) (tokens : Array τ) (read : Readings ν) (i : Nat) :
    p.readings g tokens read i = [(.mark p, i)] := by
  unfold readings
  cases hkind : p.kind with
  | literal | line => rfl
  | _ => simp [hkind, PatternKind.mark?] at h

/-! ### Levels -/

section Levels

variable {α : Type} {extend extend' : α → List α} {I : α → Prop}

theorem levels_nil (extend : α → List α) (rounds : Nat) : levels extend rounds [] = [] := by
  induction rounds with
  | zero => rfl
  | succ rounds ih => exact ih

theorem forall_levels (hI : ∀ x, I x → ∀ y ∈ extend x, I y) (rounds : Nat) {xs : List α}
    (hxs : ∀ x ∈ xs, I x) : ∀ x ∈ levels extend rounds xs, I x := by
  induction rounds generalizing xs with
  | zero => exact fun _ hx => nomatch hx
  | succ rounds ih =>
    intro x hx
    rcases List.mem_append.1 hx with hx | hx
    · exact hxs x hx
    · refine ih (fun y hy => ?_) x hx
      obtain ⟨z, hz, hy⟩ := List.mem_flatMap.1 hy
      exact hI z (hxs z hz) y hy

theorem levels_congr (hI : ∀ x, I x → ∀ y ∈ extend x, I y)
    (heq : ∀ x, I x → extend x = extend' x) (rounds : Nat) {xs : List α} (hxs : ∀ x ∈ xs, I x) :
    levels extend rounds xs = levels extend' rounds xs := by
  induction rounds generalizing xs with
  | zero => rfl
  | succ rounds ih =>
    have hmap : xs.flatMap extend = xs.flatMap extend' :=
      List.flatMap_congr fun x hx => heq x (hxs x hx)
    rw [levels, levels, ← hmap, ih]
    intro y hy
    obtain ⟨z, hz, hy⟩ := List.mem_flatMap.1 hy
    exact hI z (hxs z hz) y hy

/-- Levels may be explored element by element: what comes of the first ones can wait until the
others have been looked at. -/
theorem levels_append (weight : α → Nat) (hI : ∀ x, I x → ∀ y ∈ extend x, I y)
    (hlt : ∀ x, I x → ∀ y ∈ extend x, weight y < weight x) {rounds : Nat} {xs : List α}
    (hxs : ∀ x ∈ xs, I x) (hweight : ∀ x ∈ xs, weight x < rounds) (ys : List α) :
    levels extend rounds (xs ++ ys) = xs ++ levels extend rounds (ys ++ xs.flatMap extend) := by
  induction rounds generalizing xs ys with
  | zero =>
    cases xs with
    | nil => rfl
    | cons x xs => exact absurd (hweight x List.mem_cons_self) (Nat.not_lt_zero _)
  | succ rounds ih =>
    have hnext : levels extend rounds (xs.flatMap extend ++ ys.flatMap extend) =
        xs.flatMap extend ++
          levels extend rounds (ys.flatMap extend ++ (xs.flatMap extend).flatMap extend) := by
      refine ih (fun y hy => ?_) (fun y hy => ?_) (ys.flatMap extend)
      · obtain ⟨x, hx, hy⟩ := List.mem_flatMap.1 hy
        exact hI x (hxs x hx) y hy
      · obtain ⟨x, hx, hy⟩ := List.mem_flatMap.1 hy
        have hle := hlt x (hxs x hx) y hy
        have hx := hweight x hx
        omega
    rw [levels, levels, List.flatMap_append, List.flatMap_append, hnext]
    simp only [List.append_assoc]

/-- With enough rounds, nothing is left to extend. -/
theorem mem_levels_of_extend (weight : α → Nat) (hI : ∀ x, I x → ∀ y ∈ extend x, I y)
    (hlt : ∀ x, I x → ∀ y ∈ extend x, weight y < weight x) {rounds : Nat} {xs : List α}
    (hxs : ∀ x ∈ xs, I x) (hweight : ∀ x ∈ xs, weight x < rounds) {x y : α}
    (hx : x ∈ levels extend rounds xs) (hy : y ∈ extend x) : y ∈ levels extend rounds xs := by
  induction rounds generalizing xs with
  | zero => exact nomatch hx
  | succ rounds ih =>
    have hnext : ∀ z ∈ xs.flatMap extend, I z ∧ weight z < rounds := by
      intro z hz
      obtain ⟨w, hw, hz⟩ := List.mem_flatMap.1 hz
      have hzw := hlt w (hxs w hw) z hz
      have hw' := hweight w hw
      exact ⟨hI w (hxs w hw) z hz, by omega⟩
    rw [levels]
    rcases List.mem_append.1 hx with hx | hx
    · have hy : y ∈ xs.flatMap extend := List.mem_flatMap.2 ⟨x, hx, hy⟩
      have hrounds := (hnext y hy).2
      obtain ⟨rounds, rfl⟩ := Nat.exists_eq_succ_of_ne_zero (Nat.ne_zero_of_lt hrounds)
      exact List.mem_append_right _ (List.mem_append_left _ hy)
    · exact List.mem_append_right _
        (ih (fun z hz => (hnext z hz).1) (fun z hz => (hnext z hz).2) hx)

/-- Keys of a list stay apart if extending keeps them apart and tells where it came from. -/
theorem nodup_map_flatMap {β κ κ' : Type} {xs : List α} {f : α → List β} {key : α → κ}
    {key' : β → κ'} (hxs : (xs.map key).Nodup) (hf : ∀ x ∈ xs, ((f x).map key').Nodup)
    (hkey : ∀ x ∈ xs, ∀ x' ∈ xs, ∀ y ∈ f x, ∀ y' ∈ f x', key' y = key' y' → key x = key x') :
    ((xs.flatMap f).map key').Nodup := by
  rw [List.map_flatMap, List.nodup_flatMap]
  refine ⟨hf, ?_⟩
  rw [List.Nodup, List.pairwise_map] at hxs
  refine hxs.imp_of_mem fun {x x'} hx hx' hne => ?_
  rw [Function.onFun, List.disjoint_left]
  intro k hk hk'
  obtain ⟨y, hy, rfl⟩ := List.mem_map.1 hk
  obtain ⟨y', hy', heq⟩ := List.mem_map.1 hk'
  exact hne (hkey x hx x' hx' y hy y' hy' heq.symm)

theorem nodup_levels {κ : Type} {key : α → κ} (length : α → Nat)
    (hI : ∀ x, I x → ∀ y ∈ extend x, I y) (hlength : ∀ x, ∀ y ∈ extend x, length y = length x + 1)
    (hextend : ∀ x, ((extend x).map key).Nodup)
    (hkey : ∀ x, I x → ∀ x', I x' → ∀ y ∈ extend x, ∀ y' ∈ extend x', key y = key y' →
      key x = key x')
    (hkeyLength : ∀ x x', key x = key x' → length x = length x')
    (rounds : Nat) {xs : List α} {n : Nat} (hxs : ∀ x ∈ xs, I x ∧ length x = n)
    (hnodup : (xs.map key).Nodup) : ((levels extend rounds xs).map key).Nodup := by
  induction rounds generalizing xs n with
  | zero => exact List.nodup_nil
  | succ rounds ih =>
    have hnext : ∀ y ∈ xs.flatMap extend, I y ∧ length y = n + 1 := by
      intro y hy
      obtain ⟨x, hx, hy⟩ := List.mem_flatMap.1 hy
      exact ⟨hI x (hxs x hx).1 y hy, by rw [hlength x y hy, (hxs x hx).2]⟩
    have hlater : ∀ y ∈ levels extend rounds (xs.flatMap extend), n + 1 ≤ length y := by
      refine forall_levels (fun x hx y hy => ?_) rounds fun y hy => (hnext y hy).2.ge
      rw [hlength x y hy]
      omega
    rw [levels, List.map_append, List.nodup_append]
    refine ⟨hnodup, ih hnext (nodup_map_flatMap hnodup (fun x _ => hextend x)
      fun x hx x' hx' => hkey x (hxs x hx).1 x' (hxs x' hx').1), ?_⟩
    intro k hk k' hk' heq
    obtain ⟨x, hx, rfl⟩ := List.mem_map.1 hk
    obtain ⟨y, hy, rfl⟩ := List.mem_map.1 hk'
    have hle := hlater y hy
    have hx := (hxs x hx).2
    have hlength := hkeyLength x y heq
    omega

end Levels

/-! ### Parts -/

/-- Matches go forward within an input of `size` tokens, and those that stop where they start are of
patterns that can match without taking a token. -/
def Readings.Forward (g : Grammar) (size : Nat) (read : Readings ν) : Prop :=
  ∀ id i, i ≤ size → ∀ y ∈ read id i, i ≤ y.2 ∧ y.2 ≤ size ∧ (y.2 = i → g.Nullable id)

/-- No tree is listed twice. -/
def Readings.Distinct (read : Readings ν) : Prop := ∀ id i, ((read id i).map Prod.fst).Nodup

section Parts

variable {g : Grammar} {size i : Nat} {read read' : Readings ν}

theorem prefixes_nil (read : Readings ν) (i : Nat) : read.prefixes [] i = [([], i)] := rfl

theorem prefixes_append_singleton (read : Readings ν) (children : List PatternId)
    (child : PatternId) (i : Nat) : read.prefixes (children ++ [child]) i =
      (read.prefixes children i).flatMap (read.extendPrefix child) := by
  rw [Readings.prefixes, List.foldl_append]
  rfl

theorem prefixes_forward (hread : read.Forward g size) (hi : i ≤ size)
    {children : List PatternId} : ∀ x ∈ read.prefixes children i,
      i ≤ x.2 ∧ x.2 ≤ size ∧ (x.2 = i → ∀ c ∈ children, g.Nullable c) := by
  induction children using List.reverseRecOn with
  | nil =>
    intro x hx
    obtain rfl := List.mem_singleton.1 hx
    exact ⟨le_rfl, hi, fun _ _ hc => nomatch hc⟩
  | append_singleton children child ih =>
    intro x hx
    rw [prefixes_append_singleton] at hx
    obtain ⟨before, hbefore, hx⟩ := List.mem_flatMap.1 hx
    obtain ⟨y, hy, rfl⟩ := List.mem_map.1 hx
    obtain ⟨hle, hsize, hnullable⟩ := ih before hbefore
    obtain ⟨hle', hsize', hnullable'⟩ := hread child before.2 hsize y hy
    refine ⟨hle.trans hle', hsize', fun (hstop : y.2 = i) c hc => ?_⟩
    have hbefore : before.2 = i := by omega
    rcases List.mem_append.1 hc with hc | hc
    · exact hnullable hbefore c hc
    · rw [List.mem_singleton.1 hc]
      exact hnullable' (by omega)

theorem prefixes_nodup (hread : read.Distinct) (children : List PatternId) (i : Nat) :
    ((read.prefixes children i).map Prod.fst).Nodup := by
  induction children using List.reverseRecOn with
  | nil => simp [prefixes_nil]
  | append_singleton children child ih =>
    rw [prefixes_append_singleton]
    refine nodup_map_flatMap ih (fun x _ => ?_) ?_
    · have hmap : (read.extendPrefix child x).map Prod.fst =
          ((read child x.2).map Prod.fst).map fun t => x.1 ++ [t] := by
        simp [Readings.extendPrefix, Function.comp_def]
      rw [hmap]
      exact (hread child x.2).map fun t t' h => by simpa using h
    · intro x _ x' _ y hy y' hy' heq
      obtain ⟨z, -, rfl⟩ := List.mem_map.1 hy
      obtain ⟨z', -, rfl⟩ := List.mem_map.1 hy'
      exact (List.append_inj' heq rfl).1

theorem prefixes_congr {children : List PatternId}
    (heq : ∀ before child later, children = before ++ child :: later →
      ∀ x ∈ read.prefixes before i, read child x.2 = read' child x.2) :
    read.prefixes children i = read'.prefixes children i := by
  induction children using List.reverseRecOn with
  | nil => rfl
  | append_singleton children child ih =>
    have hbefore := ih fun before child' later h =>
      heq before child' (later ++ [child]) (by rw [h]; simp)
    rw [prefixes_append_singleton, prefixes_append_singleton, ← hbefore]
    refine List.flatMap_congr fun x hx => ?_
    rw [Readings.extendPrefix, Readings.extendPrefix, heq children child [] rfl x hx]

/-! ### Repetitions -/

/-- The repetition stays within the input and has made progress with each item. -/
structure Chain.Forward (size i : Nat) (c : Chain ν) : Prop where
  mark_le : c.mark ≤ c.stop
  stop_le : c.stop ≤ size
  past : c.items ≠ [] → i < c.mark
  first : c.items = [] → c = .start i

theorem Chain.forward_start (hi : i ≤ size) : (start i : Chain ν).Forward size i :=
  ⟨le_rfl, hi, fun h => absurd rfl h, fun _ => rfl⟩

/-- Only the first item starts where the repetition does. -/
theorem Chain.Forward.le_mark {c : Chain ν} (h : c.Forward size i) : i ≤ c.mark := by
  by_cases hitems : c.items = []
  · rw [h.first hitems, start]
  · exact (h.past hitems).le

theorem Chain.Forward.items_ne_nil {c : Chain ν} (h : c.Forward size i)
    (hafter : c.afterItem = true) : c.items ≠ [] := by
  intro hitems
  rw [h.first hitems] at hafter
  cases hafter

/-- A repetition is extended by a separator, or by an item that makes progress. -/
theorem Chain.extend_cases {item : PatternId} {separator : Option PatternId} {c d : Chain ν}
    (hd : d ∈ c.extend read item separator) :
    (∃ s, c.nextSeparator? separator = some s ∧ ∃ y ∈ read s c.stop, d = c.withSeparator y) ∨
      c.nextSeparator? separator = none ∧
        ∃ y ∈ read item c.stop, c.mark < y.2 ∧ d = c.withItem y := by
  unfold extend at hd
  split at hd
  · rename_i s hs
    obtain ⟨y, hy, rfl⟩ := List.mem_map.1 hd
    exact .inl ⟨s, hs, y, hy, rfl⟩
  · rename_i hs
    obtain ⟨y, hy, rfl⟩ := List.mem_map.1 hd
    obtain ⟨hy, hlt⟩ := List.mem_filter.1 hy
    exact .inr ⟨hs, y, hy, by simpa using hlt, rfl⟩

theorem Chain.nextSeparator?_eq_some {separator : Option PatternId} {c : Chain ν} {s : PatternId}
    (h : c.nextSeparator? separator = some s) : c.afterItem = true ∧ separator = some s := by
  simpa [nextSeparator?] using h

theorem Chain.Forward.extend (hread : read.Forward g size) {item : PatternId}
    {separator : Option PatternId} {c : Chain ν} (h : c.Forward size i) :
    ∀ d ∈ c.extend read item separator, d.Forward size i := by
  intro d hd
  rcases Chain.extend_cases hd with ⟨s, hs, y, hy, rfl⟩ | ⟨-, y, hy, hlt, rfl⟩
  · obtain ⟨hle, hsize, -⟩ := hread s c.stop h.stop_le y hy
    obtain ⟨hafter, -⟩ := Chain.nextSeparator?_eq_some hs
    exact ⟨h.mark_le.trans hle, hsize, h.past, fun hitems => absurd hitems (h.items_ne_nil hafter)⟩
  · obtain ⟨hle, hsize, -⟩ := hread item c.stop h.stop_le y hy
    refine ⟨le_rfl, hsize, fun _ => h.le_mark.trans_lt hlt, fun hitems => ?_⟩
    simp [withItem] at hitems

/-- How far a repetition can still come. -/
def Chain.weight (size : Nat) (c : Chain ν) : Nat := 2 * (size - c.mark) + c.afterItem.toNat

theorem Chain.weight_lt (hread : read.Forward g size) {item : PatternId}
    {separator : Option PatternId} {c : Chain ν} (h : c.Forward size i) :
    ∀ d ∈ c.extend read item separator, d.weight size < c.weight size := by
  intro d hd
  rcases Chain.extend_cases hd with ⟨s, hs, y, hy, rfl⟩ | ⟨-, y, hy, hlt, rfl⟩
  · obtain ⟨hafter, -⟩ := Chain.nextSeparator?_eq_some hs
    simp [weight, withSeparator, hafter]
  · obtain ⟨-, hsize, -⟩ := hread item c.stop h.stop_le y hy
    have htoNat : (c.withItem y).afterItem.toNat = 1 := rfl
    have hmark : (c.withItem y).mark = y.2 := rfl
    rw [weight, weight, htoNat, hmark]
    omega

theorem chains_forward (hread : read.Forward g size) (hi : i ≤ size) {item : PatternId}
    {separator : Option PatternId} :
    ∀ c ∈ read.chains item separator size i, c.Forward size i :=
  forall_levels (fun _ hc => hc.extend hread) _ fun c hc => by
    rw [List.mem_singleton.1 hc]
    exact Chain.forward_start hi

/-- A repetition that can be extended is one of those that are explored further. -/
theorem mem_chains_of_extend (hread : read.Forward g size) (hi : i ≤ size) {item : PatternId}
    {separator : Option PatternId} {c d : Chain ν} (hc : c ∈ read.chains item separator size i)
    (hd : d ∈ c.extend read item separator) : d ∈ read.chains item separator size i := by
  have hI : ∀ x : Chain ν, x.Forward size i → ∀ y ∈ x.extend read item separator,
      y.Forward size i := fun x hx => hx.extend hread
  refine mem_levels_of_extend (Chain.weight size) hI (fun x hx => Chain.weight_lt hread hx)
    (List.forall_mem_singleton.2 (Chain.forward_start hi))
    (List.forall_mem_singleton.2 ?_) hc hd
  exact Nat.lt_succ_self _

/-- What tells repetitions of one item apart. -/
def Chain.key (c : Chain ν) : List (Tree ν) × List (Tree ν) := (c.items, c.separators)

/-- Between any two items there is a separator, and there may be one after the last. -/
def Chain.Balanced (separator : Option PatternId) (c : Chain ν) : Prop :=
  separator.isSome = true → c.items.length = c.separators.length + c.afterItem.toNat

theorem Chain.Balanced.extend {item : PatternId} {separator : Option PatternId} {c : Chain ν}
    (h : c.Balanced separator) : ∀ d ∈ c.extend read item separator, d.Balanced separator := by
  intro d hd hsome
  have hc := h hsome
  rcases Chain.extend_cases hd with ⟨s, hs, y, -, rfl⟩ | ⟨hs, y, -, -, rfl⟩
  · obtain ⟨hafter, -⟩ := Chain.nextSeparator?_eq_some hs
    simpa [withSeparator, hafter] using hc
  · have hafter : c.afterItem = false := by
      obtain ⟨s, rfl⟩ := Option.isSome_iff_exists.1 hsome
      simpa [nextSeparator?] using hs
    simpa [withItem, hafter] using hc

/-- Exploring repetitions in order finds each of them once. -/
theorem chains_nodup (hread : read.Distinct) (item : PatternId) (separator : Option PatternId)
    (size i : Nat) : ((read.chains item separator size i).map Chain.key).Nodup := by
  refine nodup_levels (I := Chain.Balanced separator)
    (fun c => c.items.length + c.separators.length) (fun c hc => hc.extend) ?_ ?_ ?_ ?_ _
    (fun c hc => by
      rw [List.mem_singleton.1 hc]
      exact ⟨fun _ => rfl, rfl⟩) (List.nodup_singleton _)
  · intro c d hd
    rcases Chain.extend_cases hd with ⟨s, -, y, -, rfl⟩ | ⟨-, y, -, -, rfl⟩
    · simp [Chain.withSeparator, Nat.add_assoc]
    · simp [Chain.withItem, Nat.add_right_comm]
  · intro c
    unfold Chain.extend
    split
    · rename_i s _
      have hmap : ((read s c.stop).map c.withSeparator).map Chain.key =
          ((read s c.stop).map Prod.fst).map fun t => (c.items, c.separators ++ [t]) := by
        simp [Chain.key, Chain.withSeparator, Function.comp_def]
      rw [hmap]
      exact (hread s c.stop).map fun t t' h => by simpa using h
    · have hmap (ys : List (Tree ν × Nat)) : (ys.map c.withItem).map Chain.key =
          (ys.map Prod.fst).map fun t => (c.items ++ [t], c.separators) := by
        simp [Chain.key, Chain.withItem, Function.comp_def]
      rw [hmap]
      refine List.Nodup.map (fun t t' h => by simpa using h) ?_
      exact (hread item c.stop).sublist (List.filter_sublist.map _)
  · intro c hc c' hc' d hd d' hd' heq
    have hbalanced := hc.extend d hd
    have hbalanced' := hc'.extend d' hd'
    simp only [Chain.key, Prod.mk.injEq] at heq
    obtain ⟨hitems, hseparators⟩ := heq
    rcases Chain.extend_cases hd with ⟨s, hs, y, -, rfl⟩ | ⟨hs, y, -, -, rfl⟩ <;>
      rcases Chain.extend_cases hd' with ⟨s', hs', y', -, rfl⟩ | ⟨hs', y', -, -, rfl⟩
    · rw [Chain.key, Chain.key, ← (List.append_inj' hseparators rfl).1]
      exact congrArg (·, c.separators) hitems
    -- as many items and separators cannot end both with an item and with a separator
    · obtain ⟨-, rfl⟩ := Chain.nextSeparator?_eq_some hs
      have hlength := hbalanced rfl
      have hlength' := hbalanced' rfl
      rw [hitems, hseparators] at hlength
      simp only [Chain.withSeparator, Chain.withItem, Bool.toNat_false, Bool.toNat_true]
        at hlength hlength'
      omega
    · obtain ⟨-, rfl⟩ := Chain.nextSeparator?_eq_some hs'
      have hlength := hbalanced rfl
      have hlength' := hbalanced' rfl
      rw [hitems, hseparators] at hlength
      simp only [Chain.withSeparator, Chain.withItem, Bool.toNat_false, Bool.toNat_true]
        at hlength hlength'
      omega
    · rw [Chain.key, Chain.key, ← (List.append_inj' hitems rfl).1]
      exact congrArg (c.items, ·) hseparators
  · intro c c' heq
    simp only [Chain.key, Prod.mk.injEq] at heq
    rw [heq.1, heq.2]

theorem chains_congr (hread : read.Forward g size) (hi : i ≤ size) {item : PatternId}
    {separator : Option PatternId} (hitem : ∀ j, i ≤ j → j ≤ size → read item j = read' item j)
    (hseparator : ∀ s, separator = some s → ∀ j, i < j → j ≤ size → read s j = read' s j) :
    read.chains item separator size i = read'.chains item separator size i := by
  refine levels_congr (I := Chain.Forward size i) (fun _ hc => hc.extend hread) (fun c hc => ?_) _
    fun c hc => ?_
  · unfold Chain.extend
    split
    · rename_i s hs
      obtain ⟨hafter, rfl⟩ := Chain.nextSeparator?_eq_some hs
      have hlt := hc.past (hc.items_ne_nil hafter)
      rw [hseparator s rfl c.stop (hlt.trans_le hc.mark_le) hc.stop_le]
    · rw [hitem c.stop (hc.le_mark.trans hc.mark_le) hc.stop_le]
  · rw [List.mem_singleton.1 hc]
    exact Chain.forward_start hi

end Parts

/-! ### Patterns -/

theorem select_ordered_cases (xss : List (List α)) :
    ChoiceMode.ordered.select xss = [] ∨ ChoiceMode.ordered.select xss ∈ xss := by
  cases hfind : xss.find? fun xs => !xs.isEmpty with
  | none => exact .inl (by simp only [ChoiceMode.select, hfind, Option.getD_none])
  | some xs =>
    have hselect : ChoiceMode.ordered.select xss = xs := by
      simp only [ChoiceMode.select, hfind, Option.getD_some]
    exact .inr (hselect ▸ List.mem_of_find?_eq_some hfind)

theorem mem_select {mode : ChoiceMode} {xss : List (List α)} {x : α} (hx : x ∈ mode.select xss) :
    ∃ xs ∈ xss, x ∈ xs := by
  cases mode with
  | ordered =>
    rcases select_ordered_cases xss with hselect | hselect
    · rw [hselect] at hx
      cases hx
    · exact ⟨_, hselect, hx⟩
  | parallel => exact List.mem_flatten.1 hx

section Pattern

variable {g : Grammar} {tokens : Array τ} {read read' : Readings ν} {id : PatternId} {p : Pattern}
variable {i : Nat}

theorem Pattern.readings_forward (hp : g.pattern? id = some p)
    (hread : read.Forward g tokens.size) (hi : i ≤ tokens.size) :
    ∀ y ∈ p.readings g tokens read i,
      i ≤ y.2 ∧ y.2 ≤ tokens.size ∧ (y.2 = i → g.Nullable id) := by
  intro y hy
  -- the matches of a construct around one child stop where those of the child do
  have hwrapped {wrapper : Wrapper} {child : PatternId}
      (hkind : p.kind.wrapped? g = some (wrapper, child)) :
      i ≤ y.2 ∧ y.2 ≤ tokens.size ∧ (y.2 = i → g.Nullable id) := by
    rw [readings_wrapped hkind] at hy
    obtain ⟨x, hx, rfl⟩ := List.mem_map.1 hy
    obtain ⟨hle, hsize, hnullable⟩ := hread child i hi x hx
    exact ⟨hle, hsize, fun hstop => .wrapped hp hkind (hnullable hstop)⟩
  have hmark {marker : Marker} (hkind : p.kind.mark? = some marker) :
      i ≤ y.2 ∧ y.2 ≤ tokens.size ∧ (y.2 = i → g.Nullable id) := by
    rw [readings_mark hkind] at hy
    obtain rfl := List.mem_singleton.1 hy
    exact ⟨le_rfl, hi, fun _ => .mark hp hkind⟩
  cases hkind : p.kind with
  | consume terminal =>
    simp only [readings, hkind] at hy
    split at hy
    · rename_i token htoken
      split at hy
      · obtain rfl := List.mem_singleton.1 hy
        obtain ⟨hlt, -⟩ := Array.getElem?_eq_some_iff.1 htoken
        exact ⟨Nat.le_succ i, hlt, fun hstop => absurd hstop (Nat.succ_ne_self i)⟩
      · cases hy
    · cases hy
  | sequence children =>
    simp only [readings, hkind] at hy
    obtain ⟨x, hx, rfl⟩ := List.mem_map.1 hy
    obtain ⟨hle, hsize, hnullable⟩ := prefixes_forward hread hi x hx
    exact ⟨hle, hsize, fun hstop => .sequence hp hkind (hnullable hstop)⟩
  | choice alternatives mode names =>
    simp only [readings, hkind] at hy
    obtain ⟨xs, hxs, hy⟩ := mem_select hy
    obtain ⟨⟨alternative, index⟩, hmem, rfl⟩ := List.mem_map.1 hxs
    obtain ⟨x, hx, rfl⟩ := List.mem_map.1 hy
    obtain ⟨hle, hsize, hnullable⟩ := hread alternative i hi x hx
    exact ⟨hle, hsize, fun hstop => .choice hp hkind (List.fst_mem_of_mem_zipIdx hmem)
      (hnullable hstop)⟩
  | many item separator =>
    simp only [readings, hkind] at hy
    obtain ⟨c, hc, rfl⟩ := List.mem_map.1 hy
    have hc := List.mem_of_mem_filter (List.mem_reverse.1 hc)
    have hforward := chains_forward hread hi c hc
    exact ⟨hforward.le_mark.trans hforward.mark_le, hforward.stop_le, fun _ => .many hp hkind⟩
  | option item =>
    simp only [readings, hkind] at hy
    rcases List.mem_append.1 hy with hy | hy
    · obtain ⟨x, hx, rfl⟩ := List.mem_map.1 hy
      obtain ⟨hle, hsize, -⟩ := hread item i hi x hx
      exact ⟨hle, hsize, fun _ => .option hp hkind⟩
    · obtain rfl := List.mem_singleton.1 hy
      exact ⟨le_rfl, hi, fun _ => .option hp hkind⟩
  | thunk rule =>
    cases hbody : g.ruleBody? rule with
    | none => simp [readings, hkind, hbody] at hy
    | some body =>
      refine hwrapped (show p.kind.wrapped? g = some (.thunk, body) from ?_)
      rw [hkind, PatternKind.wrapped?, hbody]
      rfl
  | indent | group | conditional => exact hwrapped (by rw [hkind]; rfl)
  | literal | line => exact hmark (by rw [hkind]; rfl)

theorem Pattern.readings_distinct (p : Pattern) (g : Grammar) (tokens : Array τ)
    (hread : read.Distinct) (i : Nat) : ((p.readings g tokens read i).map Prod.fst).Nodup := by
  have hmap {f : Tree ν → Tree ν} (hf : Function.Injective f) (child : PatternId) :
      (((read child i).map fun y => (f y.1, y.2)).map Prod.fst).Nodup := by
    have heq : ((read child i).map fun y => (f y.1, y.2)).map Prod.fst =
        ((read child i).map Prod.fst).map f := by
      simp [Function.comp_def]
    rw [heq]
    exact (hread child i).map hf
  cases hkind : p.kind with
  | consume terminal =>
    simp only [readings, hkind]
    split
    · split
      · exact List.nodup_singleton _
      · exact List.nodup_nil
    · exact List.nodup_nil
  | sequence children =>
    simp only [readings, hkind]
    have heq : ((read.prefixes children i).map fun x => (Tree.sequence p x.1, x.2)).map Prod.fst =
        ((read.prefixes children i).map Prod.fst).map (Tree.sequence p) := by
      simp [Function.comp_def]
    rw [heq]
    exact (prefixes_nodup hread children i).map fun ts ts' h => by injection h
  | choice alternatives mode names =>
    simp only [readings, hkind]
    have heach : ∀ xs ∈ read.alternatives p alternatives i, (xs.map Prod.fst).Nodup := by
      intro xs hxs
      obtain ⟨x, -, rfl⟩ := List.mem_map.1 hxs
      exact hmap (fun t t' h => by injection h) x.1
    cases mode with
    | ordered =>
      rcases select_ordered_cases (read.alternatives p alternatives i) with hselect | hselect
      · rw [hselect]
        exact List.nodup_nil
      · exact heach _ hselect
    | parallel =>
      show ((read.alternatives p alternatives i).flatten.map Prod.fst).Nodup
      rw [Readings.alternatives, ← List.flatMap_def]
      have hindices : (alternatives.zipIdx.map Prod.snd).Nodup := by
        rw [List.zipIdx_map_snd]
        exact List.nodup_range'
      refine nodup_map_flatMap hindices
        (fun x _ => hmap (fun t t' h => by injection h) x.1) ?_
      intro x _ x' _ y hy y' hy' heq
      obtain ⟨z, -, rfl⟩ := List.mem_map.1 hy
      obtain ⟨z', -, rfl⟩ := List.mem_map.1 hy'
      injection heq
  | many item separator =>
    simp only [readings, hkind, List.map_map]
    have heq : (Prod.fst ∘ fun c : Chain ν => (Tree.many p c.items c.separators, c.stop)) =
        (fun k => Tree.many p k.1 k.2) ∘ Chain.key := rfl
    rw [heq, ← List.map_map]
    refine List.Nodup.map (fun k k' h => ?_) ?_
    · injection h with _ hitems hseparators
      exact Prod.ext hitems hseparators
    · rw [List.map_reverse, List.nodup_reverse]
      exact (chains_nodup hread item separator tokens.size i).sublist (List.filter_sublist.map _)
  | option item =>
    simp only [readings, hkind, List.map_append]
    refine List.Nodup.append (hmap (fun t t' h => by injection h) item) (List.nodup_singleton _) ?_
    intro t ht ht'
    obtain ⟨y, hy, rfl⟩ := List.mem_map.1 ht
    obtain ⟨x, -, rfl⟩ := List.mem_map.1 hy
    simp at ht'
  | thunk rule =>
    simp only [readings, hkind]
    split
    · exact hmap (fun t t' h => by injection h) _
    · exact List.nodup_nil
  | indent child | group child | conditional child =>
    simp only [readings, hkind]
    exact hmap (fun t t' h => by injection h) child
  | literal | line =>
    simp only [readings, hkind]
    exact List.nodup_singleton _

/-- What a pattern matches only depends on what is matched further on, and at its own position by
those that it may call there. -/
theorem Pattern.readings_congr (hp : g.pattern? id = some p)
    (hread : read.Forward g tokens.size) (hi : i ≤ tokens.size)
    (heq : ∀ child j, j ≤ tokens.size → i < j ∨ i = j ∧ g.LeftCall id child →
      read child j = read' child j) :
    p.readings g tokens read i = p.readings g tokens read' i := by
  have hwrapped {wrapper : Wrapper} {child : PatternId}
      (hkind : p.kind.wrapped? g = some (wrapper, child)) :
      p.readings g tokens read i = p.readings g tokens read' i := by
    rw [readings_wrapped hkind, readings_wrapped hkind,
      heq child i hi (.inr ⟨rfl, .wrapped hp hkind⟩)]
  cases hkind : p.kind with
  | consume | literal | line => simp only [readings, hkind]
  | sequence children =>
    simp only [readings, hkind]
    congr 1
    refine prefixes_congr fun before child later hchildren x hx => ?_
    obtain ⟨hle, hsize, hnullable⟩ := prefixes_forward hread hi x hx
    refine heq child x.2 hsize ?_
    rcases hle.lt_or_eq with hlt | hstop
    · exact .inl hlt
    · exact .inr ⟨hstop, .sequence hp (hchildren ▸ hkind) (hnullable hstop.symm)⟩
  | choice alternatives mode names =>
    simp only [readings, hkind]
    congr 1
    refine List.map_congr_left fun x hx => ?_
    rw [heq x.1 i hi (.inr ⟨rfl, .choice hp hkind (List.fst_mem_of_mem_zipIdx hx)⟩)]
  | many item separator =>
    simp only [readings, hkind]
    rw [chains_congr hread hi (fun j hle hsize => heq item j hsize ?_)
      (fun s _ j hlt hsize => heq s j hsize (.inl hlt))]
    rcases hle.lt_or_eq with hlt | hij
    · exact .inl hlt
    · exact .inr ⟨hij, .many hp hkind⟩
  | option item =>
    simp only [readings, hkind]
    rw [heq item i hi (.inr ⟨rfl, .option hp hkind⟩)]
  | thunk rule =>
    cases hbody : g.ruleBody? rule with
    | none => simp only [readings, hkind, hbody]
    | some body =>
      refine hwrapped (show p.kind.wrapped? g = some (.thunk, body) from ?_)
      rw [hkind, PatternKind.wrapped?, hbody]
      rfl
  | indent | group | conditional => exact hwrapped (by rw [hkind]; rfl)

end Pattern

/-! ### Without left recursion -/

/-- The matches are those that the patterns make of each other's matches. -/
def Readings.Solves (g : Grammar) (tokens : Array τ) (read : Readings ν) : Prop :=
  ∀ id i, i ≤ tokens.size → read id i =
    match g.pattern? id with
    | some p => p.readings g tokens read i
    | none => []

/-- Calls lead to smaller and smaller weights. -/
def Grammar.Weighted (g : Grammar) (size : Nat) (weight : PatternId → Nat → Nat) : Prop :=
  ∀ ⦃id child i j⦄, child < g.patterns.size → j ≤ size → i < j ∨ i = j ∧ g.LeftCall id child →
    weight child j < weight id i

section

variable {g : Grammar} {tokens : Array τ} {weight : PatternId → Nat → Nat}

/-- Without left recursion, calls cannot go on for ever. -/
theorem Grammar.Ranked.exists_weighted {rank : PatternId → Nat} (hrank : g.Ranked rank)
    (size : Nat) : ∃ weight, g.Weighted size weight := by
  let bound := (Finset.range g.patterns.size).sup rank
  have hbound : ∀ id < g.patterns.size, rank id ≤ bound :=
    fun id hid => Finset.le_sup (Finset.mem_range.2 hid)
  refine ⟨fun id i => (size - i) * (bound + 1) + rank id, ?_⟩
  intro id child i j hchild hj hcall
  have hle := hbound child hchild
  rcases hcall with hlt | ⟨rfl, hcall⟩
  · -- one token less outweighs any rank
    have hmul : (size - j) * (bound + 1) + (bound + 1) ≤ (size - i) * (bound + 1) := by
      rw [← Nat.succ_mul]
      exact Nat.mul_le_mul_right _ (by omega)
    dsimp only
    omega
  · have hlt := hrank hcall
    dsimp only
    omega

theorem Grammar.readings_forward (g : Grammar) (tokens : Array τ) (depth : Nat) :
    (g.readings tokens depth).Forward g tokens.size := by
  induction depth with
  | zero => exact fun _ _ _ _ hy => nomatch hy
  | succ depth ih =>
    intro id i hi y hy
    unfold readings at hy
    split at hy
    · rename_i p hp
      exact p.readings_forward hp ih hi y hy
    · cases hy

theorem Grammar.readings_distinct (g : Grammar) (tokens : Array τ) (depth : Nat) :
    (g.readings tokens depth).Distinct := by
  induction depth with
  | zero => exact fun _ _ => List.nodup_nil
  | succ depth ih =>
    intro id i
    unfold readings
    split
    · exact Pattern.readings_distinct _ g tokens ih i
    · exact List.nodup_nil

theorem Grammar.readings_none {id : PatternId} (hp : g.pattern? id = none) (tokens : Array τ)
    (depth i : Nat) : g.readings tokens depth id i = [] := by
  cases depth with
  | zero => rfl
  | succ depth => simp only [readings, hp]

/-- Whatever makes matches of matches as the patterns do agrees with the readings, beyond the
weight. -/
theorem Grammar.Weighted.readings_eq (hweight : g.Weighted tokens.size weight)
    (steps : Nat → Readings ν)
    (hsteps : ∀ depth id p i, g.pattern? id = some p → i ≤ tokens.size →
      steps (depth + 1) id i = p.readings g tokens (steps depth) i)
    (hnone : ∀ depth id i, g.pattern? id = none → i ≤ tokens.size → steps depth id i = [])
    {depth depth' : Nat} {id : PatternId} {i : Nat} (hi : i ≤ tokens.size)
    (h : weight id i < depth) (h' : weight id i < depth') :
    g.readings tokens depth id i = steps depth' id i := by
  induction depth generalizing depth' id i with
  | zero => exact absurd h (Nat.not_lt_zero _)
  | succ depth ih =>
    obtain ⟨depth', rfl⟩ := Nat.exists_eq_succ_of_ne_zero (Nat.ne_zero_of_lt h')
    cases hp : g.pattern? id with
    | none => rw [readings_none hp, hnone _ _ _ hp hi]
    | some p =>
      rw [hsteps depth' id p i hp hi]
      simp only [readings, hp]
      refine Pattern.readings_congr hp (g.readings_forward tokens depth) hi
        fun child j hj hcall => ?_
      by_cases hchild : child < g.patterns.size
      · have hlt := hweight hchild hj hcall
        exact ih hj (by omega) (by omega)
      · have hp' : g.pattern? child = none := Array.getElem?_eq_none (Nat.not_lt.1 hchild)
        rw [readings_none hp', hnone _ _ _ hp' hj]

/-- A solution is what is read to any depth beyond the weight. -/
theorem Readings.Solves.eq_readings {read : Readings ν} (hread : read.Solves g tokens)
    (hweight : g.Weighted tokens.size weight) {depth : Nat} {id : PatternId} {i : Nat}
    (hi : i ≤ tokens.size) (hdepth : weight id i < depth) :
    g.readings tokens depth id i = read id i := by
  refine hweight.readings_eq (fun _ => read) ?_ ?_ hi hdepth hdepth
  · intro _ id p i hp hi
    rw [hread id i hi]
    simp only [hp]
  · intro _ id i hp hi
    rw [hread id i hi]
    simp only [hp]

/-- Without left recursion, the matches of all patterns are determined by each other. -/
theorem Grammar.Weighted.exists_solution (hweight : g.Weighted tokens.size weight) :
    ∃ read : Readings ν, read.Solves g tokens ∧ read.Forward g tokens.size ∧ read.Distinct := by
  refine ⟨fun id i => g.readings tokens (weight id i + 1) id i, fun id i hi => ?_,
    fun id i hi => g.readings_forward tokens _ id i hi,
    fun id i => g.readings_distinct tokens _ id i⟩
  cases hp : g.pattern? id with
  | none => exact readings_none hp tokens _ i
  | some p =>
    simp only [readings, hp]
    refine Pattern.readings_congr hp (g.readings_forward tokens _) hi fun child j hj hcall => ?_
    by_cases hchild : child < g.patterns.size
    · refine hweight.readings_eq (g.readings tokens)
        (fun depth id p i hp _ => by simp only [readings, hp])
        (fun depth id i hp _ => readings_none hp tokens depth i) hj (hweight hchild hj hcall)
        (Nat.lt_succ_self _)
    · have hp' : g.pattern? child = none := Array.getElem?_eq_none (Nat.not_lt.1 hchild)
      rw [readings_none hp']
      simp only [hp']

/-- Solutions agree within the input. -/
theorem Readings.Solves.unique {read read' : Readings ν} (hread : read.Solves g tokens)
    (hread' : read'.Solves g tokens) (hweight : g.Weighted tokens.size weight) {id : PatternId}
    {i : Nat} (hi : i ≤ tokens.size) : read id i = read' id i :=
  (hread.eq_readings hweight hi (Nat.lt_succ_self _)).symm.trans
    (hread'.eq_readings hweight hi (Nat.lt_succ_self _))

end

end ReversibleGrammar
