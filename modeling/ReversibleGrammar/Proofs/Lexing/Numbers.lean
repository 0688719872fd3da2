/-
What the expressions of numbers match.

A number may have a sign, and its digits go as far as they can; with a point and more digits it has a
fraction.

* `Regex.integer`, `Regex.float` — the expressions; `ends_integer`, `ends_float` — where they end;
* `Regex.IsInteger` — a number without a fraction;
* `search?_integer_iff`, `search?_float_iff` — which texts they match, and how far.
-/
import ReversibleGrammar.Proofs.Lexing.Texts

namespace ReversibleGrammar

/-- The ten digits. -/
def CharSet.decimal : CharSet := among [.range '0' '9']

theorem CharSet.holds_decimal (c : Char) : decimal.holds c = c.isDigit := by
  rw [decimal, holds_among, List.any_cons, List.any_nil, Bool.or_false, Bool.eq_iff_iff]
  simp [CharSet.holds, Char.isDigit, Char.le_def, UInt32.le_iff_toNat_le]

namespace Regex

open CharSet (decimal)

/-! ### Places -/

/-- A sign that may be missing. -/
def plusMinus : Regex := loop (alternate (text ['+']) (text ['-'])) 0 (some 1) true

def digits : Regex := loop (.set decimal) 1 none true

def integer : Regex := concat (concat empty plusMinus) digits

def float : Regex := concat (concat integer (.set (.single '.'))) digits

/-- How many characters the sign of a number takes. -/
def signLength (cs : List Char) : Nat := if cs.head?.any (· ∈ ['+', '-']) then 1 else 0

/-- The digits that come next, after a sign. -/
def numeral (cs : List Char) : List Char := (cs.drop (signLength cs)).takeWhile decimal.holds

theorem signLength_eq_zero {c : Char} (hc : c ∉ ['+', '-']) (cs : List Char) :
    signLength (c :: cs) = 0 := by
  rw [signLength, List.head?_cons, Option.any_some, decide_eq_false hc]
  rfl

/-- An expression that may be missing is tried first. -/
theorem ends_optional (r : Regex) (c : Cursor) :
    (loop r 0 (some 1) true).ends c = distinct (r.ends c ++ [c]) := by
  have hstops (cs : List Cursor) (w : Walk) :
      (cs.foldl (fun w d => w.stop d) w).found = cs.reverse ++ w.found := by
    induction cs generalizing w with
    | nil => rfl
    | cons d cs ih => rw [List.foldl_cons, ih, Walk.found_stop, List.reverse_cons,
        List.append_assoc, List.singleton_append]
  have hentered : Walk.empty.entered 1 c = false := by simp [Walk.entered]
  have hnodup := distinct_of_nodup (nodup_distinct (r.ends c ++ [c]))
  simpa [ends, exactly, walkAtMost, hentered, Walk.ends, hstops] using hnodup

theorem ends_plusMinus (c : Cursor) :
    plusMinus.ends c = if signLength c.rest = 0 then [c] else [c.advance 1, c] := by
  have hone (d : Cursor) : distinct [d] = [d] := distinct_of_nodup (List.nodup_singleton d.index)
  rw [plusMinus, ends_optional, ends, ends_text, ends_text]
  cases hrest : c.rest with
  | nil => simp [Cursor.skip, signLength, hrest, distinct_nil, hone]
  | cons d rest =>
    have htwo : distinct [c.advance 1, c] = [c.advance 1, c] := by
      refine distinct_of_nodup ?_
      have hindex : (c.advance 1).index = c.index + 1 := Cursor.index_advance (by simp [hrest])
      simp [hindex]
    by_cases hplus : d = '+'
    · simp [Cursor.skip, signLength, hrest, hplus, hone, htwo]
    · by_cases hminus : d = '-'
      · simp [Cursor.skip, signLength, hrest, hminus, hone, htwo]
      · simp [Cursor.skip, signLength, hrest, hplus, hminus, Ne.symm hplus, Ne.symm hminus,
          distinct_nil, hone]

/-- A sign is no digit. -/
theorem run_decimal_eq_zero {c : Cursor} (h : signLength c.rest ≠ 0) : c.run decimal = 0 := by
  rw [Cursor.run]
  cases hrest : c.rest with
  | nil => rfl
  | cons d rest =>
    have hd : d ∈ ['+', '-'] := by
      by_contra hd
      exact h (by rw [signLength, hrest, List.head?_cons, Option.any_some, decide_eq_false hd]; rfl)
    have hdecimal : decimal.holds d = false := by
      simp only [List.mem_cons, List.not_mem_nil, or_false] at hd
      rcases hd with rfl | rfl <;> decide
    rw [List.takeWhile_cons_of_neg (by simp [hdecimal])]
    rfl

theorem ends_integer (c : Cursor) : integer.ends c =
    (counts true 1 (numeral c.rest).length).map (c.advance (signLength c.rest)).advance := by
  have hrun : (c.advance (signLength c.rest)).run decimal = (numeral c.rest).length := by
    rw [Cursor.run, Cursor.rest_advance, numeral]
  have hdigits (d : Cursor) : digits.ends d = (counts true 1 (d.run decimal)).map d.advance :=
    ends_loop decimal 1 true d
  have hone (d : Cursor) : distinct (digits.ends d) = digits.ends d :=
    distinct_of_nodup (digits.nodup_ends d)
  rw [← hrun, ← hdigits, integer, ends, ends_empty_concat, ends_plusMinus]
  split
  · rename_i hzero
    rw [hzero, Cursor.advance_zero, List.flatMap_singleton, hone]
  · rename_i hsign
    have hnone : digits.ends c = [] := by rw [hdigits, run_decimal_eq_zero hsign]; rfl
    have hlength : signLength c.rest = 1 := by
      rw [signLength] at hsign ⊢
      split at hsign
      · rename_i h
        rw [if_pos h]
      · exact absurd rfl hsign
    rw [List.flatMap_cons, List.flatMap_singleton, hnone, List.append_nil, hone, hlength]

/-- Before a character of one set comes none of another. -/
theorem take_eq_nil_of_run {set set' : CharSet} {c : Cursor}
    (hapart : ∀ d, set.holds d = true → set'.holds d = false) (hrun : 0 < c.run set) :
    c.take set' = [] := by
  rw [Cursor.take]
  split
  · rename_i d rest hrest
    have hd : set.holds d = true := by
      by_contra hd
      rw [Cursor.run, hrest, List.takeWhile_cons_of_neg hd] at hrun
      exact Nat.lt_irrefl 0 hrun
    rw [hapart d hd, if_neg (by decide)]
  · rfl

theorem point_of_decimal {d : Char} (hd : decimal.holds d = true) :
    (CharSet.single '.').holds d = false := by
  rw [CharSet.holds_single_comm]
  refine beq_false_of_ne ?_
  rintro rfl
  exact absurd hd (by decide)

/-- A fraction needs all the digits before its point. -/
theorem ends_float (c : Cursor) : float.ends c =
    if numeral c.rest = [] then []
    else ((c.advance (signLength c.rest + (numeral c.rest).length)).take (.single '.')).flatMap
      digits.ends := by
  let d := c.advance (signLength c.rest)
  have hsign : signLength c.rest ≤ c.rest.length := by
    rw [signLength]
    cases hrest : c.rest with
    | nil => simp
    | cons e rest =>
      rw [List.length_cons]
      split <;> omega
  have hrun : d.run decimal = (numeral c.rest).length := by
    rw [Cursor.run, Cursor.rest_advance, numeral]
  have hpoint : (concat integer (.set (.single '.'))).ends c =
      if numeral c.rest = [] then [] else (d.advance (d.run decimal)).take (.single '.') := by
    rw [ends_concat_set, ends_integer, ← hrun]
    split
    · rename_i hnil
      rw [hrun, hnil]
      rfl
    · rename_i hne
      obtain ⟨n, hn⟩ : ∃ n, d.run decimal = n + 1 :=
        Nat.exists_eq_succ_of_ne_zero fun hzero => hne (List.length_eq_zero_iff.1 (hrun ▸ hzero))
      have hbefore : ((counts true 1 n).map d.advance).flatMap (Cursor.take (.single '.')) = [] := by
        rw [List.flatMap_eq_nil_iff]
        intro e he
        obtain ⟨j, hj, rfl⟩ := List.mem_map.1 he
        have hle := (mem_counts.1 hj).2
        refine take_eq_nil_of_run (fun _ => point_of_decimal) ?_
        rw [Cursor.run_advance (by omega)]
        omega
      rw [hn, counts_true_succ (Nat.le_add_left 1 n), List.map_cons, List.flatMap_cons, hbefore,
        List.append_nil]
  have hdistinct (e : Cursor) : distinct ((e.take (.single '.')).flatMap digits.ends) =
      (e.take (.single '.')).flatMap digits.ends := by
    rw [Cursor.take_eq]
    split
    · rfl
    · rw [List.flatMap_singleton, distinct_of_nodup (digits.nodup_ends _)]
  rw [float, ends, hpoint, c.advance_add hsign, ← hrun]
  split
  · rfl
  · exact hdistinct _

/-! ### Texts -/

/-- A number without a fraction. -/
def IsInteger (w : List Char) : Prop :=
  ∃ sign ds, w = sign ++ ds ∧ sign ∈ [[], ['+'], ['-']] ∧ ds ≠ [] ∧
    ∀ c ∈ ds, decimal.holds c = true

section

variable {w rest cs : List Char} {m : Match}

theorem numeral_append (hw : IsInteger w) (hrest : rest.head?.any decimal.holds = false) :
    numeral (w ++ rest) ≠ [] ∧
      signLength (w ++ rest) + (numeral (w ++ rest)).length = w.length := by
  obtain ⟨sign, ds, rfl, hsign, hne, hds⟩ := hw
  have hlength : signLength (sign ++ ds ++ rest) = sign.length := by
    obtain ⟨d, ds, rfl⟩ := List.exists_cons_of_ne_nil hne
    have hd := hds d List.mem_cons_self
    simp only [List.mem_cons, List.not_mem_nil, or_false] at hsign
    rcases hsign with rfl | rfl | rfl
    · rw [signLength, List.nil_append, List.cons_append, List.head?_cons, Option.any_some, if_neg]
      · rfl
      · rw [decide_eq_true_eq]
        intro hmem
        simp only [List.mem_cons, List.not_mem_nil, or_false] at hmem
        rcases hmem with rfl | rfl <;> exact absurd hd (by decide)
    · rfl
    · rfl
  have hnumeral : numeral (sign ++ ds ++ rest) = ds := by
    rw [numeral, hlength, List.append_assoc, List.drop_left, takeWhile_append_of_head? hds hrest]
  rw [hnumeral, hlength, List.length_append]
  exact ⟨hne, rfl⟩

theorem exists_integer (h : numeral cs ≠ []) :
    ∃ w rest, cs = w ++ rest ∧ IsInteger w ∧ rest.head?.any decimal.holds = false := by
  refine ⟨cs.take (signLength cs) ++ numeral cs, (cs.drop (signLength cs)).dropWhile decimal.holds,
    ?_, ⟨_, _, rfl, ?_, h, fun c => List.mem_takeWhile_imp⟩, any_head?_dropWhile _ _⟩
  · rw [numeral, List.append_assoc, List.takeWhile_append_dropWhile, List.take_append_drop]
  · cases cs with
    | nil => exact List.mem_cons_self
    | cons c cs =>
      by_cases hc : c ∈ ['+', '-']
      · simp only [signLength, List.head?_cons, Option.any_some, decide_eq_true hc, if_true,
          List.take_succ_cons, List.take_zero]
        simpa using hc
      · rw [signLength_eq_zero hc, List.take_zero]
        exact List.mem_cons_self

/-- No number starts with something else than a sign or a digit. -/
theorem numeral_eq_nil {c : Char} (hsign : c ∉ ['+', '-']) (hdigit : decimal.holds c = false)
    (cs : List Char) : numeral (c :: cs) = [] := by
  rw [numeral, signLength_eq_zero hsign, List.drop_zero, List.takeWhile_cons_of_neg (by simp [hdigit])]

/-- The place after a number. -/
theorem start_advance_append (w rest : List Char) :
    ((Cursor.start (w ++ rest)).advance w.length).index = w.length ∧
      ((Cursor.start (w ++ rest)).advance w.length).rest = rest := by
  constructor
  · rw [Cursor.index_advance (by simp [Cursor.start])]
    exact Nat.zero_add _
  · rw [Cursor.rest_advance]
    exact List.drop_left

theorem search?_integer (hw : IsInteger w) (hrest : rest.head?.any decimal.holds = false) :
    (concat empty (group 1 integer)).anchored.search? 1 (w ++ rest) =
      some ⟨w.length, [String.ofList w]⟩ := by
  obtain ⟨hne, hlength⟩ := numeral_append hw hrest
  obtain ⟨ns, hns⟩ := exists_counts_true (List.length_pos_iff.2 hne)
  have hplace : ((Cursor.start (w ++ rest)).advance (signLength (w ++ rest))).advance
      (numeral (w ++ rest)).length = (Cursor.start (w ++ rest)).advance w.length := by
    have hle : signLength (w ++ rest) ≤ (w ++ rest).length := by
      rw [List.length_append]
      omega
    rw [← hlength]
    exact (Cursor.advance_add _ hle _).symm
  rw [search?_captured, ends_integer, show (Cursor.start (w ++ rest)).rest = w ++ rest from rfl,
    hns, List.map_cons, List.head?_cons, Option.map_some, hplace, (start_advance_append w rest).1,
    List.take_left]

theorem search?_integer_eq_none (h : numeral cs = []) :
    (concat empty (group 1 integer)).anchored.search? 1 cs = none := by
  rw [search?_captured, ends_integer, show (Cursor.start cs).rest = cs from rfl, h]
  rfl

theorem search?_integer_iff :
    (concat empty (group 1 integer)).anchored.search? 1 cs = some m ↔
      ∃ w rest, cs = w ++ rest ∧ IsInteger w ∧ rest.head?.any decimal.holds = false ∧
        m = ⟨w.length, [String.ofList w]⟩ := by
  constructor
  · intro h
    by_cases hnil : numeral cs = []
    · rw [search?_integer_eq_none hnil] at h
      cases h
    · obtain ⟨w, rest, rfl, hw, hrest⟩ := exists_integer hnil
      rw [search?_integer hw hrest] at h
      exact ⟨w, rest, rfl, hw, hrest, (Option.some.inj h).symm⟩
  · rintro ⟨w, rest, rfl, hw, hrest, rfl⟩
    exact search?_integer hw hrest

/-- A fraction of the digits after the point, if it comes next and there are digits. -/
theorem search?_float (hw : IsInteger w) (hrest : rest.head?.any decimal.holds = false) :
    (concat empty (group 1 float)).anchored.search? 1 (w ++ rest) =
      if rest.head? = some '.' ∧ rest.tail.head?.any decimal.holds then
        some ⟨w.length + 1 + (rest.tail.takeWhile decimal.holds).length,
          [String.ofList (w ++ '.' :: rest.tail.takeWhile decimal.holds)]⟩
      else none := by
  obtain ⟨hne, hlength⟩ := numeral_append hw hrest
  obtain ⟨hindex, hafter⟩ := start_advance_append w rest
  rw [search?_captured, ends_float, show (Cursor.start (w ++ rest)).rest = w ++ rest from rfl,
    if_neg hne, hlength]
  generalize hplace : (Cursor.start (w ++ rest)).advance w.length = d at hindex hafter ⊢
  rw [Cursor.take, hafter]
  cases rest with
  | nil => rfl
  | cons c rest =>
    by_cases hc : c = '.'
    swap
    · have hpoint : (CharSet.single '.').holds c = false := by
        rw [CharSet.holds_single_comm]
        exact beq_false_of_ne hc
      simp [hpoint, hc]
    subst hc
    have hpoint : (CharSet.single '.').holds '.' = true := by decide
    let e : Cursor := ⟨d.index + 1, some '.', rest, d.captures⟩
    have hdigits : digits.ends e = (counts true 1 (e.run decimal)).map e.advance :=
      ends_loop decimal 1 true e
    simp only [hpoint, if_true, List.flatMap_singleton]
    rw [show digits.ends ⟨d.index + 1, some '.', rest, d.captures⟩ = digits.ends e from rfl, hdigits]
    by_cases hdecimal : rest.head?.any decimal.holds = true
    · have hrun : 1 ≤ e.run decimal := by
        refine List.length_pos_iff.2 fun hnil => ?_
        rw [takeWhile_eq_nil_iff_head?.1 hnil] at hdecimal
        cases hdecimal
      obtain ⟨ns, hns⟩ := exists_counts_true hrun
      have hstop : (e.advance (e.run decimal)).index =
          w.length + 1 + (rest.takeWhile decimal.holds).length := by
        rw [Cursor.index_advance (e.run_le decimal), ← hindex]
        rfl
      have htake : (w ++ '.' :: rest).take (w.length + 1 +
          (rest.takeWhile decimal.holds).length) = w ++ '.' :: rest.takeWhile decimal.holds := by
        rw [Nat.add_assoc, List.take_length_add_append, Nat.add_comm 1, List.take_succ_cons,
          take_length_takeWhile]
      rw [hns, List.map_cons, List.head?_cons, Option.map_some, hstop, htake,
        if_pos ⟨rfl, hdecimal⟩]
      rfl
    · have hrun : e.run decimal = 0 :=
        List.length_eq_zero_iff.2 (takeWhile_eq_nil_iff_head?.2 (eq_false_of_ne_true hdecimal))
      rw [hrun, if_neg fun h => hdecimal h.2]
      rfl

theorem search?_float_eq_none (h : numeral cs = []) :
    (concat empty (group 1 float)).anchored.search? 1 cs = none := by
  rw [search?_captured, ends_float, show (Cursor.start cs).rest = cs from rfl, if_pos h]
  rfl

theorem search?_float_iff :
    (concat empty (group 1 float)).anchored.search? 1 cs = some m ↔
      ∃ w ds rest, cs = w ++ '.' :: ds ++ rest ∧ IsInteger w ∧ ds ≠ [] ∧
        (∀ c ∈ ds, decimal.holds c = true) ∧ rest.head?.any decimal.holds = false ∧
          m = ⟨w.length + 1 + ds.length, [String.ofList (w ++ '.' :: ds)]⟩ := by
  have hpoint (rest : List Char) : ('.' :: rest).head?.any decimal.holds = false := by
    rw [List.head?_cons, Option.any_some]
    decide
  constructor
  · intro h
    by_cases hnil : numeral cs = []
    · rw [search?_float_eq_none hnil] at h
      cases h
    · obtain ⟨w, rest, rfl, hw, hrest⟩ := exists_integer hnil
      rw [search?_float hw hrest] at h
      split at h
      swap
      · cases h
      rename_i hnext
      obtain ⟨rest, rfl⟩ := List.head?_eq_some_iff.1 hnext.1
      refine ⟨w, rest.takeWhile decimal.holds, rest.dropWhile decimal.holds, ?_, hw, ?_,
        fun c => List.mem_takeWhile_imp, any_head?_dropWhile _ _, (Option.some.inj h).symm⟩
      · rw [List.append_assoc, List.cons_append, List.takeWhile_append_dropWhile]
      · rw [ne_eq, takeWhile_eq_nil_iff_head?]
        intro hnone
        have hany := hnext.2
        rw [List.tail_cons, hnone] at hany
        cases hany
  · rintro ⟨w, ds, rest, rfl, hw, hne, hds, hrest, rfl⟩
    have htake : (ds ++ rest).takeWhile decimal.holds = ds := takeWhile_append_of_head? hds hrest
    have hnext : (ds ++ rest).head?.any decimal.holds = true := by
      obtain ⟨d, ds, rfl⟩ := List.exists_cons_of_ne_nil hne
      exact hds d List.mem_cons_self
    rw [List.append_assoc, List.cons_append, search?_float hw (hpoint _), if_pos ⟨rfl, hnext⟩,
      List.tail_cons, htake]

end

end Regex

end ReversibleGrammar
