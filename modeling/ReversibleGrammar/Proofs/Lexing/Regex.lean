/-
How far regular expressions match.

An expression ends at each place once, so that concatenations with a text or around one
expression lose nothing to repeated places.  A repetition of one set of characters ends
after each number of characters, the greatest first if it is greedy.

* `nodup_ends` — no two ends are at one place;
* `Cursor.advance`, `Cursor.run` — the place after some characters, and how many characters
  of a set come next;
* `ends_loop` — the repetition of a set;
* `Regex.followed`, `Regex.between` — a text after an expression, and a captured repetition
  between two texts;
* `search?_text`, `search?_between` — where they match at the start of a text.
-/
import Mathlib.Data.List.Nodup
import ReversibleGrammar.Regex.Match

namespace ReversibleGrammar

/-! ### Distinct ends -/

theorem distinctFrom_sublist (seen : Std.TreeSet Nat) (cs : List Cursor) :
    (distinctFrom seen cs).Sublist cs := by
  induction cs generalizing seen with
  | nil => exact .slnil
  | cons c cs ih =>
    rw [distinctFrom]
    split
    · exact .cons c (ih seen)
    · exact .cons_cons c (ih _)

theorem nodup_distinctFrom (seen : Std.TreeSet Nat) (cs : List Cursor) :
    ((distinctFrom seen cs).map Cursor.index).Nodup ∧
      ∀ c ∈ distinctFrom seen cs, seen.contains c.index = false := by
  induction cs generalizing seen with
  | nil => exact ⟨List.nodup_nil, List.forall_mem_nil _⟩
  | cons c cs ih =>
    rw [distinctFrom]
    split
    · exact ih seen
    · rename_i hnew
      obtain ⟨hnodup, hseen⟩ := ih (seen.insert c.index)
      have hsplit : ∀ d ∈ distinctFrom (seen.insert c.index) cs,
          c.index ≠ d.index ∧ seen.contains d.index = false := by
        intro d hd
        simpa [Std.TreeSet.contains_insert, not_or] using hseen d hd
      refine ⟨?_, List.forall_mem_cons.2 ⟨eq_false_of_ne_true hnew, fun d hd => (hsplit d hd).2⟩⟩
      rw [List.map_cons, List.nodup_cons]
      refine ⟨fun hmem => ?_, hnodup⟩
      obtain ⟨d, hd, heq⟩ := List.mem_map.1 hmem
      exact (hsplit d hd).1 heq.symm

theorem distinctFrom_of_nodup {seen : Std.TreeSet Nat} {cs : List Cursor}
    (hnodup : (cs.map Cursor.index).Nodup)
    (hseen : ∀ c ∈ cs, seen.contains c.index = false) : distinctFrom seen cs = cs := by
  induction cs generalizing seen with
  | nil => rfl
  | cons c cs ih =>
    rw [List.map_cons, List.nodup_cons] at hnodup
    obtain ⟨hc, hcs⟩ := List.forall_mem_cons.1 hseen
    rw [distinctFrom, if_neg (by simp [hc]), ih hnodup.2 fun d hd => ?_]
    have hne : c.index ≠ d.index := fun heq => hnodup.1 (List.mem_map.2 ⟨d, hd, heq.symm⟩)
    simp [Std.TreeSet.contains_insert, hne, hcs d hd]

theorem distinct_of_nodup {cs : List Cursor} (h : (cs.map Cursor.index).Nodup) :
    distinct cs = cs :=
  distinctFrom_of_nodup h fun _ _ => by simp

theorem nodup_distinct (cs : List Cursor) : ((distinct cs).map Cursor.index).Nodup :=
  (nodup_distinctFrom ∅ cs).1

namespace Regex

/-- No two ends of an expression are at one place. -/
theorem nodup_ends (r : Regex) (c : Cursor) : ((r.ends c).map Cursor.index).Nodup := by
  induction r generalizing c with
  | empty => exact List.nodup_singleton _
  | set chars =>
    rw [ends, Cursor.take]
    split
    · split
      · exact List.nodup_singleton _
      · exact List.nodup_nil
    · exact List.nodup_nil
  | assert condition =>
    rw [ends]
    split
    · exact List.nodup_singleton _
    · exact List.nodup_nil
  | group index content ih =>
    rw [ends, List.map_map]
    exact ih c
  | concat | alternate => exact nodup_distinct _
  | loop content min max greedy =>
    unfold ends
    split
    · exact nodup_distinct _
    · split <;> exact nodup_distinct _

@[simp] theorem ends_empty_concat (r : Regex) (c : Cursor) :
    (concat empty r).ends c = r.ends c := by
  rw [ends, ends, List.flatMap_singleton, distinct_of_nodup (r.nodup_ends c)]

end Regex

/-! ### Places further on -/

namespace Cursor

/-- The place after the next characters, as far as there are so many. -/
def advance (c : Cursor) : Nat → Cursor
  | 0 => c
  | n + 1 =>
    match c.rest with
    | d :: rest => advance ⟨c.index + 1, some d, rest, c.captures⟩ n
    | [] => c

/-- How many characters of the set come next. -/
def run (set : CharSet) (c : Cursor) : Nat := (c.rest.takeWhile set.holds).length

variable {set : CharSet} {c : Cursor} {n : Nat}

theorem run_le (set : CharSet) (c : Cursor) : c.run set ≤ c.rest.length :=
  (List.takeWhile_sublist _).length_le

@[simp] theorem advance_zero (c : Cursor) : c.advance 0 = c := by rw [advance]

theorem advance_succ (c : Cursor) (n : Nat) (hn : n < c.rest.length) :
    c.advance (n + 1) = (c.advance 1).advance n := by
  cases hrest : c.rest with
  | nil => simp [hrest] at hn
  | cons d rest => simp [advance, hrest]

@[simp] theorem rest_advance (c : Cursor) (n : Nat) : (c.advance n).rest = c.rest.drop n := by
  induction n generalizing c with
  | zero => simp
  | succ n ih =>
    rw [advance]
    split
    · rename_i d rest hrest
      rw [ih, hrest, List.drop_succ_cons]
    · rename_i hrest
      rw [hrest, List.drop_nil]

@[simp] theorem captures_advance (c : Cursor) (n : Nat) : (c.advance n).captures = c.captures := by
  induction n generalizing c with
  | zero => simp
  | succ n ih =>
    rw [advance]
    split
    · rw [ih]
    · rfl

theorem index_advance (hn : n ≤ c.rest.length) : (c.advance n).index = c.index + n := by
  induction n generalizing c with
  | zero => simp
  | succ n ih =>
    rw [advance]
    split
    · rename_i d rest hrest
      rw [ih (by simpa [hrest] using hn)]
      show c.index + 1 + n = c.index + (n + 1)
      omega
    · rename_i hrest
      simp [hrest] at hn

/-- Taking a character of the set goes on by one, if one comes next. -/
theorem take_eq (set : CharSet) (c : Cursor) :
    c.take set = if c.run set = 0 then [] else [c.advance 1] := by
  cases hrest : c.rest with
  | nil => simp [take, run, hrest]
  | cons d rest => by_cases hd : set.holds d = true <;> simp [take, run, advance, hrest, hd]

theorem advance_add (c : Cursor) {m : Nat} (hm : m ≤ c.rest.length) (n : Nat) :
    c.advance (m + n) = (c.advance m).advance n := by
  induction m generalizing c with
  | zero => simp
  | succ m ih =>
    rw [show m + 1 + n = m + n + 1 by omega]
    cases hrest : c.rest with
    | nil => simp [hrest] at hm
    | cons d rest =>
      simp only [advance, hrest]
      exact ih _ (by simpa [hrest] using hm)

theorem run_advance (h : n ≤ c.run set) : (c.advance n).run set = c.run set - n := by
  have hdrop : ∀ cs : List Char, n ≤ (cs.takeWhile set.holds).length →
      ((cs.drop n).takeWhile set.holds).length = (cs.takeWhile set.holds).length - n := by
    clear h
    intro cs
    induction cs generalizing n with
    | nil => simp
    | cons d cs ih =>
      intro hn
      cases n with
      | zero => simp
      | succ n =>
        by_cases hd : set.holds d = true
        · rw [List.takeWhile_cons_of_pos hd, List.length_cons] at hn ⊢
          rw [List.drop_succ_cons, ih (by omega)]
          omega
        · simp [hd] at hn
  rw [run, rest_advance, hdrop _ h, run]

end Cursor

/-! ### Repetitions of a set -/

/-- The numbers from `min` to `max`, in the order in which a repetition prefers them. -/
def counts (greedy : Bool) (min max : Nat) : List Nat :=
  let ns := List.range' min (max + 1 - min)
  if greedy then ns.reverse else ns

theorem counts_add (greedy : Bool) (m min max : Nat) :
    counts greedy (m + min) (m + max) = (counts greedy min max).map (m + ·) := by
  have hrange : List.range' (m + min) (m + max + 1 - (m + min)) =
      (List.range' min (max + 1 - min)).map (m + ·) := by
    rw [List.map_add_range', show m + max + 1 - (m + min) = max + 1 - min by omega]
  cases greedy <;> simp [counts, hrange]

theorem mem_counts {greedy : Bool} {min max n : Nat} :
    n ∈ counts greedy min max ↔ min ≤ n ∧ n ≤ max := by
  have hrange : n ∈ List.range' min (max + 1 - min) ↔ min ≤ n ∧ n ≤ max := by
    rw [List.mem_range'_1]
    omega
  cases greedy <;> simp [counts, hrange]

theorem counts_of_lt (greedy : Bool) {min max : Nat} (h : max < min) :
    counts greedy min max = [] := by
  rw [counts, show max + 1 - min = 0 by omega]
  cases greedy <;> rfl

@[simp] theorem counts_zero_zero (greedy : Bool) : counts greedy 0 0 = [0] := by
  cases greedy <;> rfl

/-- Nothing is preferred least if the repetition is greedy, and most otherwise. -/
theorem counts_zero_succ (greedy : Bool) (max : Nat) :
    counts greedy 0 (max + 1) =
      if greedy then counts greedy 1 (max + 1) ++ [0] else 0 :: counts greedy 1 (max + 1) := by
  cases greedy <;> simp [counts, List.range'_succ]

/-- A greedy repetition prefers to go as far as it can. -/
theorem exists_counts_true {min max : Nat} (h : min ≤ max) :
    ∃ ns, counts true min max = max :: ns := by
  refine ⟨(List.range' min (max - min)).reverse, ?_⟩
  rw [counts, show max + 1 - min = max - min + 1 by omega, List.range'_concat,
    show min + 1 * (max - min) = max by omega]
  simp

theorem counts_true_succ {min max : Nat} (h : min ≤ max + 1) :
    counts true min (max + 1) = (max + 1) :: counts true min max := by
  rw [counts, counts, show max + 1 + 1 - min = max + 1 - min + 1 by omega, List.range'_concat,
    show min + 1 * (max + 1 - min) = max + 1 by omega]
  simp

section

variable {set : CharSet} {c : Cursor}

theorem nodup_places (greedy : Bool) (min : Nat) {max : Nat} (hmax : max ≤ c.rest.length) :
    (((counts greedy min max).map c.advance).map Cursor.index).Nodup := by
  have hindex : ((List.range' min (max + 1 - min)).map c.advance).map Cursor.index =
      List.range' (c.index + min) (max + 1 - min) := by
    rw [List.map_map, ← List.map_add_range']
    refine List.map_congr_left fun n hn => Cursor.index_advance ?_
    have := List.mem_range'_1.1 hn
    omega
  cases greedy <;> simp only [counts, Bool.false_eq_true, if_true, if_false, List.map_reverse,
    List.nodup_reverse, hindex] <;> exact List.nodup_range'

theorem map_counts_advance (greedy : Bool) {m : Nat} (hm : m ≤ c.rest.length) (min max : Nat) :
    (counts greedy (m + min) (m + max)).map c.advance =
      (counts greedy min max).map (c.advance m).advance := by
  rw [counts_add, List.map_map]
  exact List.map_congr_left fun n _ => c.advance_add hm n

/-- If a character of the set comes next, the places after it are those from there on. -/
theorem next_places {k : Nat} (hrun : c.run set = k + 1) (greedy : Bool) :
    1 ≤ c.rest.length ∧ (c.advance 1).run set = k ∧
      (counts greedy 1 (k + 1)).map c.advance = (counts greedy 0 k).map (c.advance 1).advance := by
  have hlength : 1 ≤ c.rest.length := by
    have := c.run_le set
    omega
  refine ⟨hlength, ?_, ?_⟩
  · rw [Cursor.run_advance (by omega), hrun, Nat.add_sub_cancel]
  · rw [← map_counts_advance greedy hlength, Nat.add_zero, Nat.add_comm]

@[simp] theorem Walk.found_empty : Walk.empty.found = [] := rfl

@[simp] theorem Walk.roundsAt_empty (j : Nat) : Walk.empty.roundsAt j = [] := by
  simp [Walk.empty, Walk.roundsAt]

@[simp] theorem Walk.found_enter (w : Walk) (left : Nat) (c : Cursor) :
    (w.enter left c).found = w.found := rfl

@[simp] theorem Walk.found_stop (w : Walk) (c : Cursor) : (w.stop c).found = c :: w.found := rfl

/-- The places that a walk through a set finds, the last one first. -/
theorem found_walkOn (greedy : Bool) {depth : Nat} {w : Walk} (hdepth : c.run set < depth)
    (hnew : ∀ j, c.index ≤ j → w.roundsAt j = []) :
    (walkOn (Cursor.take set) greedy depth c w).found =
      ((counts greedy 0 (c.run set)).map c.advance).reverse ++ w.found := by
  induction depth generalizing c w with
  | zero => exact absurd hdepth (Nat.not_lt_zero _)
  | succ depth ih =>
    have hentered : w.entered 0 c = false := by simp [Walk.entered, hnew c.index (Nat.le_refl _)]
    have hlater (j : Nat) (hj : c.index + 1 ≤ j) : (w.enter 0 c).roundsAt j = [] := by
      have hne : c.index ≠ j := by omega
      have := hnew j (by omega)
      simp only [Walk.roundsAt] at this
      simp [Walk.enter, Walk.roundsAt, Std.TreeMap.getD_insert, hne, this]
    simp only [walkOn, hentered, Bool.false_eq_true, if_false, Cursor.take_eq]
    cases hrun : c.run set with
    | zero => cases greedy <;> simp
    | succ k =>
      obtain ⟨hlength, hrun', hplaces⟩ := next_places hrun greedy
      have hwalk (w' : Walk) (hw' : ∀ j, c.index + 1 ≤ j → w'.roundsAt j = []) :=
        ih (c := c.advance 1) (w := w') (by omega) (by rwa [Cursor.index_advance hlength])
      rw [hrun', ← hplaces] at hwalk
      cases greedy with
      | true => simp [hwalk _ hlater, counts_zero_succ]
      | false =>
        have hstop : ∀ j, c.index + 1 ≤ j → ((w.enter 0 c).stop c).roundsAt j = [] := hlater
        simp [hwalk _ hstop, counts_zero_succ]

/-- What comes after the first round of a walk through a set. -/
theorem found_rounds (greedy : Bool) (c : Cursor) {w : Walk} (hnew : ∀ j, w.roundsAt j = []) :
    ((c.take set).foldl (fun w d => walkFirst (Cursor.take set) greedy c d w) w).found =
      ((counts greedy 1 (c.run set)).map c.advance).reverse ++ w.found := by
  rw [Cursor.take_eq]
  cases hrun : c.run set with
  | zero => simp [counts_of_lt]
  | succ k =>
    obtain ⟨hlength, hrun', hplaces⟩ := next_places hrun greedy
    have hne : (c.advance 1).index ≠ c.index := by
      rw [Cursor.index_advance hlength]
      omega
    have hdepth : (c.advance 1).run set < (c.advance 1).rest.length + 2 := by
      have := (c.advance 1).run_le set
      omega
    rw [if_neg (Nat.succ_ne_zero k), List.foldl_cons, List.foldl_nil, walkFirst, if_neg hne,
      found_walkOn greedy hdepth fun j _ => hnew j, hrun', hplaces]

theorem oneOrMore_take (greedy : Bool) (c : Cursor) :
    oneOrMore (Cursor.take set) greedy c = (counts greedy 1 (c.run set)).map c.advance := by
  rw [oneOrMore, Walk.ends, found_rounds greedy c Walk.roundsAt_empty, Walk.found_empty,
    List.append_nil, List.reverse_reverse]
  exact distinct_of_nodup (nodup_places greedy 1 (c.run_le set))

theorem zeroOrMore_take (greedy : Bool) (c : Cursor) :
    zeroOrMore (Cursor.take set) greedy c = (counts greedy 0 (c.run set)).map c.advance := by
  have hnodup := nodup_places (c := c) greedy 0 (c.run_le set)
  have hsplit : (counts greedy 0 (c.run set)).map c.advance =
      if greedy then (counts greedy 1 (c.run set)).map c.advance ++ [c]
      else c :: (counts greedy 1 (c.run set)).map c.advance := by
    cases c.run set with
    | zero => cases greedy <;> simp [counts_of_lt]
    | succ k => cases greedy <;> simp [counts_zero_succ]
  rw [hsplit] at hnodup ⊢
  cases greedy with
  | true =>
    simp only [zeroOrMore, Walk.ends, if_true, Walk.found_stop,
      found_rounds true c Walk.roundsAt_empty]
    simpa using distinct_of_nodup hnodup
  | false =>
    have hstop : ∀ j, (Walk.empty.stop c).roundsAt j = [] := Walk.roundsAt_empty
    simp only [zeroOrMore, Walk.ends, Bool.false_eq_true, if_false, Walk.found_stop,
      found_rounds false c hstop]
    simpa using distinct_of_nodup hnodup

/-- As many rounds as are asked for, if there are so many. -/
theorem exactly_take (m : Nat) (c : Cursor) :
    exactly (Cursor.take set) m [c] = if m ≤ c.run set then [c.advance m] else [] := by
  have hnil (m : Nat) : exactly (Cursor.take set) m [] = [] := by
    induction m with
    | zero => rfl
    | succ m ih => rw [exactly, List.flatMap_nil, distinct_nil, ih]
  induction m generalizing c with
  | zero => simp [exactly]
  | succ m ih =>
    rw [exactly, List.flatMap_singleton, Cursor.take_eq]
    cases hrun : c.run set with
    | zero => simp [distinct_nil, hnil]
    | succ k =>
      have hlength : 1 ≤ c.rest.length := (next_places hrun true).1
      have hone : distinct [c.advance 1] = [c.advance 1] :=
        distinct_of_nodup (List.nodup_singleton _)
      rw [if_neg (Nat.succ_ne_zero k), hone, ih, (next_places hrun true).2.1,
        ← c.advance_add hlength, Nat.add_comm 1 m]
      simp

/-- A repetition of a set ends after each number of characters. -/
theorem ends_loop (set : CharSet) (min : Nat) (greedy : Bool) (c : Cursor) :
    (Regex.loop (.set set) min none greedy).ends c =
      (counts greedy min (c.run set)).map c.advance := by
  cases min with
  | zero => exact zeroOrMore_take greedy c
  | succ m =>
    simp only [Regex.ends, exactly_take]
    by_cases hm : m ≤ c.run set
    · have hlength : m ≤ c.rest.length := Nat.le_trans hm (c.run_le set)
      have hmax : m + (c.run set - m) = c.run set := by omega
      have hplaces := map_counts_advance greedy hlength 1 (c.run set - m)
      rw [hmax] at hplaces
      rw [if_pos hm, List.flatMap_singleton, oneOrMore_take, Cursor.run_advance hm, ← hplaces]
      exact distinct_of_nodup (nodup_places greedy (m + 1) (c.run_le set))
    · rw [if_neg hm, counts_of_lt greedy (by omega)]
      rfl

end

/-! ### Texts, and repetitions between them -/

namespace Cursor

/-- The place after a text, if it comes next. -/
def skip (ds : List Char) (c : Cursor) : List Cursor :=
  if ds.isPrefixOf c.rest then [c.advance ds.length] else []

@[simp] theorem skip_nil (c : Cursor) : c.skip [] = [c] := by simp [skip]

theorem holds_single (d e : Char) : (CharSet.single d).holds e = (d == e) := by
  rw [Bool.eq_iff_iff]
  simp only [CharSet.single, CharSet.holds, Bool.and_eq_true, decide_eq_true_eq, beq_iff_eq]
  exact ⟨fun h => Char.le_antisymm h.1 h.2, fun h => h ▸ ⟨Char.le_refl d, Char.le_refl d⟩⟩

theorem skip_cons (d : Char) (ds : List Char) (c : Cursor) :
    c.skip (d :: ds) = (c.take (.single d)).flatMap (skip ds) := by
  cases hrest : c.rest with
  | nil => simp [skip, take, hrest]
  | cons e rest =>
    by_cases hd : d = e
    · simp [skip, take, hrest, holds_single, hd, advance]
    · simp [skip, take, hrest, holds_single, hd]

end Cursor

namespace Regex

/-- The text after the expression. -/
def followed (r : Regex) (ds : List Char) : Regex :=
  ds.foldl (fun r d => .concat r (.set (.single d))) r

theorem ends_concat_set (r : Regex) (set : CharSet) (c : Cursor) :
    (concat r (.set set)).ends c = (r.ends c).flatMap (Cursor.take set) := by
  have hsublist (cs : List Cursor) :
      ((cs.flatMap (Cursor.take set)).map Cursor.index).Sublist
        ((cs.map Cursor.index).map (· + 1)) := by
    induction cs with
    | nil => exact .slnil
    | cons e cs ih =>
      rw [List.flatMap_cons, List.map_append, List.map_cons, List.map_cons]
      cases hrest : e.rest with
      | nil => simpa [Cursor.take, hrest] using ih.cons (e.index + 1)
      | cons d rest =>
        by_cases hd : set.holds d = true
        · simpa [Cursor.take, hrest, hd] using ih
        · simpa [Cursor.take, hrest, hd] using ih.cons (e.index + 1)
  have hnodup : ((r.ends c).map Cursor.index).map (· + 1) |>.Nodup :=
    (r.nodup_ends c).map fun m n h => Nat.succ.inj h
  exact distinct_of_nodup (hnodup.sublist (hsublist _))

theorem ends_followed (r : Regex) (ds : List Char) (c : Cursor) :
    (r.followed ds).ends c = (r.ends c).flatMap (Cursor.skip ds) := by
  induction ds generalizing r with
  | nil =>
    rw [funext Cursor.skip_nil, List.flatMap_singleton']
    rfl
  | cons d ds ih =>
    have hfollowed : r.followed (d :: ds) = (concat r (.set (.single d))).followed ds := rfl
    rw [hfollowed, ih, ends_concat_set, List.flatMap_assoc]
    exact List.flatMap_congr fun e _ => (e.skip_cons d ds).symm

/-- A text. -/
def text (ds : List Char) : Regex := empty.followed ds

theorem ends_text (ds : List Char) (c : Cursor) : (text ds).ends c = c.skip ds := by
  rw [text, ends_followed, ends, List.flatMap_singleton]

/-- A captured expression between two texts. -/
def between (opening : List Char) (body : Regex) (closing : List Char) : Regex :=
  (concat (text opening) (group 1 (concat empty body))).followed closing

theorem ends_between (opening closing : List Char) (body : Regex) (c : Cursor) :
    (between opening body closing).ends c = (c.skip opening).flatMap fun d =>
      ((body.ends d).map (Cursor.capture 1 d)).flatMap (Cursor.skip closing) := by
  have hopened : (concat (text opening) (group 1 (concat empty body))).ends c =
      (c.skip opening).flatMap fun d => (body.ends d).map (Cursor.capture 1 d) := by
    have hgroup : (group 1 (concat empty body)).ends = fun d =>
        (body.ends d).map (Cursor.capture 1 d) := by
      funext d
      rw [ends, ends_empty_concat]
    rw [ends, ends_text, hgroup, Cursor.skip]
    split
    · rw [List.flatMap_singleton]
      refine distinct_of_nodup ?_
      rw [List.map_map]
      exact body.nodup_ends _
    · rfl
  rw [between, ends_followed, hopened, List.flatMap_assoc]

/-! ### At the start of a text -/

/-- The expression at the start of the text. -/
def anchored (r : Regex) : Regex := concat (concat empty (assert .textStart)) r

theorem search?_anchored (r : Regex) (groups : Nat) (cs : List Char) :
    r.anchored.search? groups cs = r.matchAt? groups 0 none cs := by
  have hends : r.anchored.ends ⟨0, none, cs, []⟩ = r.ends ⟨0, none, cs, []⟩ := by
    have hstart : (concat empty (assert .textStart)).ends ⟨0, none, cs, []⟩ =
        [⟨0, none, cs, []⟩] := by
      rw [ends_empty_concat]
      rfl
    rw [anchored, ends, hstart, List.flatMap_singleton]
    exact distinct_of_nodup (r.nodup_ends _)
  have hanchored : r.anchored.isAnchored = true := rfl
  rw [search?, if_pos hanchored, matchAt?, matchAt?, hends]

theorem search?_text (ds cs : List Char) :
    (text ds).anchored.search? 0 cs = if ds.isPrefixOf cs then some ⟨ds.length, []⟩ else none := by
  rw [search?_anchored, matchAt?, ends_text, Cursor.skip]
  split
  · rename_i hprefix
    have hlength : ds.length ≤ cs.length := (List.isPrefixOf_iff_prefix.1 hprefix).length_le
    simp [Cursor.index_advance (c := ⟨0, none, cs, []⟩) hlength]
  · rfl

theorem search?_set (set : CharSet) (cs : List Char) :
    (concat empty (.set set)).anchored.search? 0 cs =
      if cs.head?.any set.holds then some ⟨1, []⟩ else none := by
  rw [search?_anchored, matchAt?, ends_empty_concat, ends]
  cases cs with
  | nil => rfl
  | cons c cs => by_cases hc : set.holds c = true <;> simp [Cursor.take, hc]

theorem head?_flatMap_ite {α β : Type} (p : α → Bool) (g : α → β) (xs : List α) :
    (xs.flatMap fun x => if p x then [g x] else []).head? = (xs.find? p).map g := by
  induction xs with
  | nil => rfl
  | cons x xs ih => cases hx : p x <;> simp [hx, ih]

/-- The preferred number of characters after which the closing text comes next. -/
theorem search?_between (opening closing : List Char) (set : CharSet) (min : Nat) (greedy : Bool)
    (cs : List Char) :
    (between opening (loop (.set set) min none greedy) closing).anchored.search? 1 cs =
      if opening.isPrefixOf cs then
        ((counts greedy min (((cs.drop opening.length).takeWhile set.holds).length)).find? fun n =>
          closing.isPrefixOf ((cs.drop opening.length).drop n)).map fun n =>
            ⟨opening.length + n + closing.length,
              [String.ofList ((cs.drop opening.length).take n)]⟩
      else none := by
  rw [search?_anchored, matchAt?, ends_between, Cursor.skip]
  split
  · rename_i hprefix
    have hlength : opening.length ≤ cs.length := (List.isPrefixOf_iff_prefix.1 hprefix).length_le
    let d := (⟨0, none, cs, []⟩ : Cursor).advance opening.length
    have hrest : d.rest = cs.drop opening.length := Cursor.rest_advance _ _
    have hindex : d.index = opening.length := by
      rw [Cursor.index_advance hlength, Nat.zero_add]
    have hcaptures : d.captures = [] := Cursor.captures_advance _ _
    have hskip (n : Nat) : (Cursor.capture 1 d (d.advance n)).skip closing =
        if closing.isPrefixOf ((cs.drop opening.length).drop n) then
          [(Cursor.capture 1 d (d.advance n)).advance closing.length] else [] := by
      have hafter : (Cursor.capture 1 d (d.advance n)).rest = (cs.drop opening.length).drop n :=
        (Cursor.rest_advance d n).trans (congrArg (List.drop n) hrest)
      rw [Cursor.skip, hafter]
    rw [List.flatMap_singleton, ends_loop, List.flatMap_map, List.flatMap_map,
      List.flatMap_congr fun n _ => hskip n, head?_flatMap_ite, Option.map_map, Cursor.run, hrest]
    refine Option.map_congr fun n hn => ?_
    have hclosing : closing.length ≤ (d.rest.drop n).length := by
      have := List.find?_some hn
      rw [hrest]
      exact (List.isPrefixOf_iff_prefix.1 this).length_le
    have hn : (d.advance n).index = opening.length + n := by
      have hle := (mem_counts.1 (List.mem_of_find?_eq_some hn)).2
      have := (List.takeWhile_sublist set.holds (l := cs.drop opening.length)).length_le
      rw [Cursor.index_advance (by rw [hrest]; omega), hindex]
    have hstop : ((Cursor.capture 1 d (d.advance n)).advance closing.length).index =
        opening.length + n + closing.length := by
      rw [Cursor.index_advance (by simpa [Cursor.capture] using hclosing), ← hn]
      rfl
    have hcaptured : (Cursor.capture 1 d (d.advance n)).captures =
        [⟨1, opening.length, opening.length + n⟩] := by
      rw [Cursor.capture, hn, hindex, Cursor.captures_advance, hcaptures]
    simp [Function.comp_apply, hstop, Cursor.captured, hcaptured]
  · rfl

/-- A captured repetition that takes every character of the set. -/
theorem search?_run (set : CharSet) (cs : List Char) :
    (between [] (loop (.set set) 1 none true) []).anchored.search? 1 cs =
      if cs.takeWhile set.holds = [] then none
      else some ⟨(cs.takeWhile set.holds).length, [String.ofList (cs.takeWhile set.holds)]⟩ := by
  have htake : cs.take (cs.takeWhile set.holds).length = cs.takeWhile set.holds :=
    (List.prefix_iff_eq_take.1 (List.takeWhile_prefix set.holds)).symm
  simp only [search?_between, List.length_nil, List.drop_zero, List.isPrefixOf_nil_left, if_true,
    Nat.zero_add, Nat.add_zero]
  by_cases hnil : cs.takeWhile set.holds = []
  · rw [if_pos hnil, hnil]
    rfl
  · obtain ⟨ns, hns⟩ := exists_counts_true (List.length_pos_iff.2 hnil)
    rw [if_neg hnil, hns, List.find?_cons_of_pos rfl, Option.map_some, htake]

end Regex

end ReversibleGrammar
