/-
Sets of results, as lists.

* `ResultSet.Faithful` — what is seen is what is listed;
* `mem_insertAll` — inserting adds what is inserted and nothing else;
* `toList_insertAll` — what is new goes to the end, in order;
* `forall₂_ofList` — results that correspond one to one are sorted out alike.
-/
import ReversibleGrammar.Recognizer.Result
import ReversibleGrammar.Proofs.Listwise

namespace ReversibleGrammar

namespace ResultSet

/-- What is seen is what is listed. -/
def Faithful (s : ResultSet) : Prop := ∀ r, s.seen.contains r = true ↔ r ∈ s.toList

theorem faithful_empty : empty.Faithful := fun r => by simp [empty, toList]

theorem toList_insert_subset (s : ResultSet) (r : ResultId) {x : ResultId}
    (hx : x ∈ (s.insert r).toList) : x ∈ s.toList ∨ x = r := by
  unfold insert at hx
  split at hx
  split at hx
  · exact .inl hx
  · simpa [toList] using hx

/-- Insertion lists nothing that is neither listed nor inserted. -/
theorem toList_insertAll_subset (s : ResultSet) (rs : List ResultId) {x : ResultId}
    (hx : x ∈ (s.insertAll rs).toList) : x ∈ s.toList ∨ x ∈ rs := by
  induction rs generalizing s with
  | nil => exact .inl hx
  | cons r rs ih =>
    rcases ih (s.insert r) hx with hx | hx
    · rcases toList_insert_subset s r hx with hx | rfl
      · exact .inl hx
      · exact .inr List.mem_cons_self
    · exact .inr (List.mem_cons_of_mem r hx)

theorem toList_ofList_subset (rs : List ResultId) {x : ResultId}
    (hx : x ∈ (ofList rs).toList) : x ∈ rs := by
  rcases toList_insertAll_subset empty rs hx with hx | hx
  · simp [empty, toList] at hx
  · exact hx

namespace Faithful

variable {s : ResultSet}

theorem toList_insert (hs : s.Faithful) (r : ResultId) :
    (s.insert r).toList = if r ∈ s.toList then s.toList else s.toList ++ [r] := by
  unfold insert
  split
  rename_i order seen
  by_cases hr : r ∈ (ResultSet.mk order seen).toList
  · rw [if_pos ((hs r).2 hr), if_pos hr]
  · rw [if_neg (fun h => hr ((hs r).1 h)), if_neg hr]
    simp [toList]

theorem insert (hs : s.Faithful) (r : ResultId) : (s.insert r).Faithful := by
  intro x
  rw [hs.toList_insert r]
  unfold ResultSet.insert
  split
  rename_i order seen
  by_cases hr : r ∈ (ResultSet.mk order seen).toList
  · rw [if_pos ((hs r).2 hr), if_pos hr]
    exact hs x
  · rw [if_neg (fun h => hr ((hs r).1 h)), if_neg hr]
    have hx := hs x
    simp only [Std.TreeSet.contains_insert, Bool.or_eq_true, List.mem_append,
      List.mem_singleton, beq_iff_eq, Std.LawfulEqCmp.compare_eq_iff_eq] at hx ⊢
    rw [hx]
    constructor
    · rintro (rfl | h)
      · exact .inr rfl
      · exact .inl h
    · rintro (h | rfl)
      · exact .inr h
      · exact .inl rfl

theorem mem_insert (hs : s.Faithful) (r : ResultId) {x : ResultId} :
    x ∈ (s.insert r).toList ↔ x ∈ s.toList ∨ x = r := by
  rw [hs.toList_insert r]
  split
  · rename_i hr
    constructor
    · exact .inl
    · rintro (h | rfl)
      · exact h
      · exact hr
  · simp

theorem insertAll (hs : s.Faithful) (rs : List ResultId) : (s.insertAll rs).Faithful := by
  induction rs generalizing s with
  | nil => exact hs
  | cons r rs ih => exact ih (hs.insert r)

/-- What is new goes to the end, in order. -/
theorem toList_insertAll (hs : s.Faithful) {rs : List ResultId} (h : (s.toList ++ rs).Nodup) :
    (s.insertAll rs).toList = s.toList ++ rs := by
  induction rs generalizing s with
  | nil => rw [List.append_nil]; rfl
  | cons r rs ih =>
    show ((s.insert r).insertAll rs).toList = _
    have hr : r ∉ s.toList := fun hmem =>
      (List.nodup_append.1 h).2.2 r hmem r List.mem_cons_self rfl
    have hinsert : (s.insert r).toList = s.toList ++ [r] := by rw [hs.toList_insert, if_neg hr]
    have hassoc : s.toList ++ r :: rs = (s.insert r).toList ++ rs := by rw [hinsert]; simp
    rw [hassoc] at h ⊢
    exact ih (hs.insert r) h

theorem not_holds (hs : s.Faithful) {r : ResultId} (h : r ∉ s.toList) : s.holds r = false :=
  Bool.eq_false_iff.2 fun hholds => h ((hs r).1 hholds)

theorem mem_insertAll (hs : s.Faithful) (rs : List ResultId) {x : ResultId} :
    x ∈ (s.insertAll rs).toList ↔ x ∈ s.toList ∨ x ∈ rs := by
  induction rs generalizing s with
  | nil => simp [ResultSet.insertAll]
  | cons r rs ih =>
    show x ∈ ((s.insert r).insertAll rs).toList ↔ _
    rw [ih (hs.insert r), hs.mem_insert r, List.mem_cons, or_assoc]

end Faithful

theorem faithful_ofList (rs : List ResultId) : (ofList rs).Faithful :=
  faithful_empty.insertAll rs

theorem mem_ofList (rs : List ResultId) {x : ResultId} : x ∈ (ofList rs).toList ↔ x ∈ rs := by
  rw [ofList, faithful_empty.mem_insertAll]
  simp [empty, toList]

/-! ### Sets side by side -/

/-- Related results are equal to results of one set exactly if they are to those of the other. -/
def OneToOne (R : ResultId → ResultId → Prop) : Prop :=
  ∀ {r r' q q'}, R r r' → R q q' → (r = q ↔ r' = q')

section

variable {R : ResultId → ResultId → Prop}

theorem OneToOne.mem_iff (hR : OneToOne R) {rs rs' : List ResultId} (h : List.Forall₂ R rs rs')
    {r r' : ResultId} (hr : R r r') : r ∈ rs ↔ r' ∈ rs' :=
  mem_iff_of_forall₂ (fun _ _ hq => hR hr hq) h

theorem OneToOne.insertAll (hR : OneToOne R) {rs rs' : List ResultId} (h : List.Forall₂ R rs rs')
    {s s' : ResultSet} (hs : s.Faithful) (hs' : s'.Faithful)
    (hlists : List.Forall₂ R s.toList s'.toList) :
    List.Forall₂ R (s.insertAll rs).toList (s'.insertAll rs').toList := by
  induction h generalizing s s' with
  | nil => exact hlists
  | @cons r r' rs rs' hr _ ih =>
    refine ih (hs.insert r) (hs'.insert r') ?_
    rw [hs.toList_insert, hs'.toList_insert]
    by_cases hmem : r ∈ s.toList
    · rwa [if_pos hmem, if_pos ((hR.mem_iff hlists hr).1 hmem)]
    · rw [if_neg hmem, if_neg fun hmem' => hmem ((hR.mem_iff hlists hr).2 hmem')]
      exact List.rel_append hlists (.cons hr .nil)

/-- Results that correspond one to one are sorted out alike. -/
theorem OneToOne.forall₂_ofList (hR : OneToOne R) {rs rs' : List ResultId}
    (h : List.Forall₂ R rs rs') : List.Forall₂ R (ofList rs).toList (ofList rs').toList :=
  hR.insertAll h faithful_empty faithful_empty .nil

end

theorem isEmpty_ofList (rs : List ResultId) : (ofList rs).isEmpty = rs.isEmpty := by
  have hnil : (ofList rs).toList = [] ↔ rs = [] := by
    simp only [List.eq_nil_iff_forall_not_mem, mem_ofList]
  rw [Bool.eq_iff_iff, List.isEmpty_iff, ← hnil]
  simp [isEmpty, toList]

end ResultSet

end ReversibleGrammar
