/-
What the expressions of lexers match.

An expression at the start of a text is a word that ends there, a name, or a text between two
others.  For each of them it is said which texts it matches, and how far.

* `search?_lazy_iff`, `search?_quoted_iff` — a text up to the first end, and up to a quote;
* `search?_keyword`, `search?_name` — a word that ends, and a name as far as it goes;
* `search?_captured` — what an expression that is captured matches.
-/
import Mathlib.Data.List.Infix
import Mathlib.Data.List.TakeWhile
import ReversibleGrammar.Proofs.Lexing.Regex

namespace ReversibleGrammar

/-! ### Lists of characters -/

section

variable {p : Char → Bool} {cs w rest : List Char}

theorem holds_of_mem_take {n : Nat} (hn : n ≤ (cs.takeWhile p).length) :
    ∀ c ∈ cs.take n, p c = true := by
  intro c hc
  have htake : cs.take n = (cs.takeWhile p).take n := by
    conv_lhs => rw [← List.takeWhile_append_dropWhile (p := p) (l := cs)]
    exact List.take_append_of_le_length hn
  rw [htake] at hc
  exact List.mem_takeWhile_imp (List.mem_of_mem_take hc)

/-- A text of characters of a set, and no such character after it. -/
theorem takeWhile_append_of_head? (hw : ∀ c ∈ w, p c = true) (hrest : rest.head?.any p = false) :
    (w ++ rest).takeWhile p = w := by
  rw [List.takeWhile_append_of_pos hw]
  cases rest with
  | nil => simp
  | cons c rest =>
    rw [List.takeWhile_cons_of_neg, List.append_nil]
    rw [List.head?_cons, Option.any_some] at hrest
    simp [hrest]

theorem any_head?_dropWhile (p : Char → Bool) (cs : List Char) :
    (cs.dropWhile p).head?.any p = false := by
  have hnot := List.head?_dropWhile_not p cs
  cases hhead : (cs.dropWhile p).head? with
  | none => rfl
  | some c =>
    rw [hhead] at hnot
    exact hnot

theorem takeWhile_eq_nil_iff_head? : cs.takeWhile p = [] ↔ cs.head?.any p = false := by
  cases cs with
  | nil => simp
  | cons c cs => by_cases hc : p c = true <;> simp [hc]

theorem take_length_takeWhile (p : Char → Bool) (cs : List Char) :
    cs.take (cs.takeWhile p).length = cs.takeWhile p :=
  (List.prefix_iff_eq_take.1 (List.takeWhile_prefix p)).symm

theorem drop_length_takeWhile (p : Char → Bool) (cs : List Char) :
    cs.drop (cs.takeWhile p).length = cs.dropWhile p := by
  conv_lhs => arg 2; rw [← List.takeWhile_append_dropWhile (p := p) (l := cs)]
  exact List.drop_left

end

namespace CharSet

/-- The characters of one of the sets. -/
def among (sets : List CharSet) : CharSet := sets.foldl .union .none

theorem holds_among (sets : List CharSet) (c : Char) :
    (among sets).holds c = sets.any (CharSet.holds · c) := by
  have hfoldl (sets : List CharSet) (set : CharSet) :
      (sets.foldl .union set).holds c = (set.holds c || sets.any (CharSet.holds · c)) := by
    induction sets generalizing set with
    | nil => simp
    | cons s sets ih => rw [List.foldl_cons, ih, CharSet.holds, List.any_cons, Bool.or_assoc]
  exact (hfoldl sets .none).trans (Bool.false_or _)

theorem holds_single_comm (d c : Char) : (CharSet.single d).holds c = (c == d) :=
  (Cursor.holds_single d c).trans Bool.beq_comm

end CharSet

namespace Cursor

/-- The character before is the last one taken. -/
theorem before_advance {c : Cursor} {n : Nat} (hn : n < c.rest.length) :
    (c.advance (n + 1)).before = c.rest[n]? := by
  induction n generalizing c with
  | zero =>
    cases hrest : c.rest with
    | nil => simp [hrest] at hn
    | cons d rest => simp [advance, hrest]
  | succ n ih =>
    cases hrest : c.rest with
    | nil => simp [hrest] at hn
    | cons d rest =>
      rw [hrest, List.length_cons] at hn
      have hone : (c.advance 1).rest = rest := by rw [rest_advance, hrest, List.drop_one]; rfl
      rw [advance_succ c (n + 1) (by rw [hrest, List.length_cons]; omega),
        ih (by rw [hone]; omega), hone]
      rfl

end Cursor

namespace Regex

/-! ### Between two texts -/

section

variable {opening closing w : List Char} {set : CharSet} {cs : List Char} {m : Match}

theorem search?_between_eq_none {min : Nat} {greedy : Bool} (h : ¬ opening <+: cs) :
    (between opening (loop (.set set) min none greedy) closing).anchored.search? 1 cs = none := by
  rw [search?_between, if_neg fun hbegins => h (List.isPrefixOf_iff_prefix.1 hbegins)]

/-- Before its closing text, the text holds none. -/
def EndsFirst (closing w : List Char) : Prop :=
  ∀ n < w.length, ¬ closing <+: (w ++ closing).drop n

theorem search?_lazy (hw : ∀ c ∈ w, set.holds c = true) (hfirst : EndsFirst closing w)
    (opening rest : List Char) :
    (between opening (loop (.set set) 0 none false) closing).anchored.search? 1
      (opening ++ w ++ closing ++ rest) =
        some ⟨opening.length + w.length + closing.length, [String.ofList w]⟩ := by
  have hdrop : (opening ++ w ++ closing ++ rest).drop opening.length = w ++ (closing ++ rest) := by
    simp
  have hopening : opening.isPrefixOf (opening ++ w ++ closing ++ rest) = true := by
    simp [List.isPrefixOf_iff_prefix]
  have hfind : ((counts false 0 ((w ++ (closing ++ rest)).takeWhile set.holds).length).find?
      fun n => closing.isPrefixOf ((w ++ (closing ++ rest)).drop n)) = some w.length := by
    refine List.find?_range'_eq_some.2 ⟨?_, ?_, fun j _ hj => ?_⟩
    · rw [List.drop_left]
      exact List.isPrefixOf_iff_prefix.2 (List.prefix_append _ _)
    · rw [List.takeWhile_append_of_pos hw, List.length_append, List.mem_range'_1]
      omega
    · rw [Bool.not_eq_true', Bool.eq_false_iff, ne_eq, List.isPrefixOf_iff_prefix]
      intro hbegins
      have hle : j ≤ (w ++ closing).length := by
        rw [List.length_append]
        omega
      rw [← List.append_assoc, List.drop_append_of_le_length hle] at hbegins
      refine hfirst j hj (List.prefix_of_prefix_length_le hbegins (List.prefix_append _ _) ?_)
      rw [List.length_drop, List.length_append]
      omega
  rw [search?_between, if_pos hopening, hdrop, hfind, Option.map_some, List.take_left]

/-- A text between two others, up to the first end. -/
theorem search?_lazy_iff :
    (between opening (loop (.set set) 0 none false) closing).anchored.search? 1 cs = some m ↔
      ∃ w rest, cs = opening ++ w ++ closing ++ rest ∧ (∀ c ∈ w, set.holds c = true) ∧
        EndsFirst closing w ∧
          m = ⟨opening.length + w.length + closing.length, [String.ofList w]⟩ := by
  constructor
  swap
  · rintro ⟨w, rest, rfl, hw, hfirst, rfl⟩
    exact search?_lazy hw hfirst opening rest
  intro h
  rw [search?_between] at h
  split at h
  swap
  · cases h
  rename_i hopening
  obtain ⟨after, rfl⟩ := List.isPrefixOf_iff_prefix.1 hopening
  rw [List.drop_left] at h
  obtain ⟨n, hfind, rfl⟩ := Option.map_eq_some_iff.1 h
  obtain ⟨hclosing, hmem, hbefore⟩ := List.find?_range'_eq_some.1 hfind
  have hn : n ≤ (after.takeWhile set.holds).length := by
    have := List.mem_range'_1.1 hmem
    omega
  have hlength : (after.take n).length = n := by
    have := (List.takeWhile_sublist set.holds (l := after)).length_le
    rw [List.length_take]
    omega
  obtain ⟨rest, hrest⟩ := List.isPrefixOf_iff_prefix.1 hclosing
  have hafter : after = after.take n ++ closing ++ rest := by
    rw [List.append_assoc, hrest, List.take_append_drop]
  refine ⟨after.take n, rest, ?_, holds_of_mem_take hn, fun j hj hstarts => ?_, ?_⟩
  · rw [List.append_assoc, List.append_assoc, ← List.append_assoc (after.take n), ← hafter]
  · -- the text and the end come next, so that the end would have been found earlier
    rw [hlength] at hj
    have hnext : after.take n ++ closing <+: after := ⟨rest, hafter.symm⟩
    have hfound := List.isPrefixOf_iff_prefix.2 (hstarts.trans (hnext.drop j))
    have hnot := hbefore j (Nat.zero_le j) hj
    rw [hfound] at hnot
    cases hnot
  · rw [hlength]

variable {d : Char}

theorem search?_quoted (hd : set.holds d = false) (hw : ∀ c ∈ w, set.holds c = true)
    (opening rest : List Char) :
    (between opening (loop (.set set) 0 none true) [d]).anchored.search? 1
      (opening ++ w ++ d :: rest) =
        some ⟨opening.length + w.length + 1, [String.ofList w]⟩ := by
  have htake : (w ++ d :: rest).takeWhile set.holds = w := takeWhile_append_of_head? hw hd
  have hopening : opening.isPrefixOf (opening ++ (w ++ d :: rest)) = true := by
    simp [List.isPrefixOf_iff_prefix]
  obtain ⟨ns, hns⟩ := exists_counts_true (Nat.zero_le w.length)
  rw [List.append_assoc, search?_between, if_pos hopening, List.drop_left, htake, hns,
    List.find?_cons_of_pos (by simp), Option.map_some, List.take_left]
  rfl

/-- A text between two others, up to a character that it cannot hold. -/
theorem search?_quoted_iff (hd : set.holds d = false) :
    (between opening (loop (.set set) 0 none true) [d]).anchored.search? 1 cs = some m ↔
      ∃ w rest, cs = opening ++ w ++ d :: rest ∧ (∀ c ∈ w, set.holds c = true) ∧
        m = ⟨opening.length + w.length + 1, [String.ofList w]⟩ := by
  constructor
  swap
  · rintro ⟨w, rest, rfl, hw, rfl⟩
    exact search?_quoted hd hw opening rest
  intro h
  rw [search?_between] at h
  split at h
  swap
  · cases h
  rename_i hopening
  obtain ⟨after, rfl⟩ := List.isPrefixOf_iff_prefix.1 hopening
  rw [List.drop_left] at h
  obtain ⟨n, hfind, rfl⟩ := Option.map_eq_some_iff.1 h
  have hclosing := List.find?_some hfind
  have hn := (mem_counts.1 (List.mem_of_find?_eq_some hfind)).2
  have hlength : (after.take n).length = n := by
    have := (List.takeWhile_sublist set.holds (l := after)).length_le
    rw [List.length_take]
    omega
  obtain ⟨rest, hrest⟩ := List.isPrefixOf_iff_prefix.1 hclosing
  refine ⟨after.take n, rest, ?_, holds_of_mem_take hn, ?_⟩
  · rw [List.append_assoc, show d :: rest = [d] ++ rest from rfl, hrest, List.take_append_drop]
  · rw [hlength]
    rfl

end

/-! ### Words -/

/-- A word that ends there: as many word characters come next as it has. -/
theorem search?_keyword {ds : List Char} (hne : ds ≠ [])
    (hds : ∀ d ∈ ds, Text.isWord d = true) (cs : List Char) :
    (concat (text ds) (assert .wordBoundary)).anchored.search? 0 cs =
      if cs.takeWhile Text.isWord = ds then some ⟨ds.length, []⟩ else none := by
  rw [search?_anchored, matchAt?, ends, ends_text, Cursor.skip]
  have hiff : cs.takeWhile Text.isWord = ds ↔
      ds.isPrefixOf cs = true ∧ (cs.drop ds.length).head?.any Text.isWord = false := by
    rw [List.isPrefixOf_iff_prefix]
    constructor
    · rintro rfl
      refine ⟨List.takeWhile_prefix _, ?_⟩
      rw [drop_length_takeWhile]
      exact any_head?_dropWhile _ _
    · rintro ⟨⟨rest, rfl⟩, hrest⟩
      rw [List.drop_left] at hrest
      exact takeWhile_append_of_head? hds hrest
  by_cases hbegins : ds.isPrefixOf cs = true
  swap
  · rw [if_neg hbegins, if_neg fun h => hbegins (hiff.1 h).1]
    rfl
  obtain ⟨rest, rfl⟩ := List.isPrefixOf_iff_prefix.1 hbegins
  obtain ⟨n, hn⟩ : ∃ n, ds.length = n + 1 :=
    Nat.exists_eq_succ_of_ne_zero (Nat.ne_of_gt (List.length_pos_iff.2 hne))
  let d := (⟨0, none, ds ++ rest, []⟩ : Cursor).advance ds.length
  have hindex : d.index = ds.length := by
    rw [Cursor.index_advance (by simp), Nat.zero_add]
  have hbehind : d.wordBehind = true := by
    have hlast : d.before = ds[n]? := by
      rw [show d = (⟨0, none, ds ++ rest, []⟩ : Cursor).advance (n + 1) by rw [← hn],
        Cursor.before_advance (by simp; omega), List.getElem?_append_left (by omega)]
    have hlt : n < ds.length := by omega
    rw [Cursor.wordBehind, hlast, List.getElem?_eq_getElem hlt]
    exact hds _ (List.getElem_mem hlt)
  have hahead : d.wordAhead = rest.head?.any Text.isWord := by
    rw [Cursor.wordAhead, Cursor.rest_advance, List.drop_left]
  have hassert : (assert .wordBoundary).ends d =
      if rest.head?.any Text.isWord = false then [d] else [] := by
    rw [ends, Cursor.satisfies, hbehind, hahead]
    cases rest.head?.any Text.isWord <;> rfl
  rw [if_pos hbegins, List.flatMap_singleton, hassert]
  rw [List.drop_left] at hiff
  by_cases hrest : rest.head?.any Text.isWord = false
  · have hone : distinct [d] = [d] := distinct_of_nodup (List.nodup_singleton d.index)
    rw [if_pos hrest, if_pos (hiff.2 ⟨hbegins, hrest⟩), hone]
    simp [hindex]
  · rw [if_neg hrest, if_neg fun h => hrest (hiff.1 h).2]
    rfl

/-- All of an expression is captured. -/
theorem search?_captured (r : Regex) (cs : List Char) :
    (concat empty (group 1 r)).anchored.search? 1 cs =
      (r.ends (.start cs)).head?.map fun c => ⟨c.index, [String.ofList (cs.take c.index)]⟩ := by
  rw [search?_anchored, matchAt?, ends_empty_concat, ends, List.head?_map, Option.map_map]
  refine Option.map_congr fun c _ => ?_
  simp [Cursor.captured, Cursor.capture]

/-- A name, as far as it goes. -/
theorem search?_name {start part : CharSet}
    (hsub : ∀ c, start.holds c = true → part.holds c = true) (cs : List Char) :
    (concat empty (group 1 (concat (concat empty (.set start))
      (loop (.set part) 0 none true)))).anchored.search? 1 cs =
      if cs.head?.any start.holds then
        some ⟨(cs.takeWhile part.holds).length, [String.ofList (cs.takeWhile part.holds)]⟩
      else none := by
  rw [search?_captured, ends, ends_empty_concat, ends]
  cases cs with
  | nil => rfl
  | cons c cs =>
    by_cases hc : start.holds c = true
    swap
    · simp [Cursor.take, Cursor.start, hc, distinct_nil]
    have htake : (Cursor.start (c :: cs)).take start = [⟨1, some c, cs, []⟩] := by
      simp [Cursor.take, Cursor.start, hc]
    obtain ⟨ns, hns⟩ := exists_counts_true (Nat.zero_le ((⟨1, some c, cs, []⟩ : Cursor).run part))
    have hindex : ((⟨1, some c, cs, []⟩ : Cursor).advance
        ((⟨1, some c, cs, []⟩ : Cursor).run part)).index = (cs.takeWhile part.holds).length + 1 := by
      rw [Cursor.index_advance (Cursor.run_le _ _), Nat.add_comm]
      rfl
    rw [htake, List.flatMap_singleton, ends_loop,
      distinct_of_nodup (nodup_places true 0 (Cursor.run_le _ _)), hns, List.map_cons,
      List.head?_cons, Option.map_some, hindex, List.take_succ_cons, take_length_takeWhile]
    simp [hc, hsub c hc]

/-- A repetition that takes every character of the set. -/
theorem search?_blanks (set : CharSet) (cs : List Char) :
    (concat empty (loop (.set set) 1 none true)).anchored.search? 0 cs =
      if cs.takeWhile set.holds = [] then none
      else some ⟨(cs.takeWhile set.holds).length, []⟩ := by
  rw [search?_anchored, matchAt?, ends_empty_concat, ends_loop]
  by_cases hnil : cs.takeWhile set.holds = []
  · rw [if_pos hnil, Cursor.run, hnil]
    rfl
  · obtain ⟨ns, hns⟩ := exists_counts_true (List.length_pos_iff.2 hnil)
    rw [if_neg hnil, Cursor.run, hns, List.map_cons, List.head?_cons, Option.map_some,
      Cursor.index_advance (List.takeWhile_sublist _).length_le, Nat.zero_add]
    rfl

end Regex

end ReversibleGrammar
