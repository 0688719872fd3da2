/-
What a sequence makes of the fields of its children.

The shape of a sequence has the fields of all of its children.  As long as only one
child has a field, that field is found in the whole as it is in the child; a null
field is as good as a missing one.

* `get?_merge` — a field of fields written over others;
* `getD_mergeShapes` — a field that one child alone has;
* `Shape.AgreesOn` — two shapes have the same fields under some keys;
* `fieldOf_eq_ok`, `fieldOf_under` — how a field is found by its name.
-/
import ReversibleGrammar.Proofs.Listwise
import ReversibleGrammar.Shaping.Extract
import ReversibleGrammar.Shaping.Inject

namespace ReversibleGrammar

namespace Fields

theorem get?_of_forall_ne {key : String} {fields : Fields} (h : ∀ field ∈ fields, field.1 ≠ key) :
    get? key fields = none := by
  induction fields with
  | nil => rfl
  | cons field rest ih =>
    obtain ⟨hne, hrest⟩ := List.forall_mem_cons.1 h
    rw [get?, if_neg hne, ih hrest]

theorem ne_of_get?_eq_none {key : String} {fields : Fields} (h : get? key fields = none) :
    ∀ field ∈ fields, field.1 ≠ key := by
  induction fields with
  | nil => exact List.forall_mem_nil _
  | cons field rest ih =>
    rw [get?] at h
    by_cases heq : field.1 = key
    · rw [if_pos heq] at h
      cases h
    · rw [if_neg heq] at h
      exact List.forall_mem_cons.2 ⟨heq, ih h⟩

theorem Sorted.tail {field : String × Shape} {rest : Fields} (h : Sorted (field :: rest)) :
    Sorted rest := (List.pairwise_cons.1 h).2

theorem Sorted.head_ne {field : String × Shape} {rest : Fields} (h : Sorted (field :: rest)) :
    ∀ other ∈ rest, other.1 ≠ field.1 := by
  intro other hother heq
  have hlt := (List.pairwise_cons.1 h).1 other hother
  rw [heq] at hlt
  exact String.lt_irrefl _ hlt

/-- What is written over fields counts, and what is not stays. -/
theorem get?_merge {fields more : Fields} (h : more.Sorted) (key : String) :
    get? key (fields.merge more) = (get? key more).or (get? key fields) := by
  induction more generalizing fields with
  | nil => rfl
  | cons field rest ih =>
    rw [merge, List.foldl_cons]
    show get? key (merge (fields.insert field.1 field.2) rest) = _
    rw [ih h.tail, get?]
    by_cases heq : field.1 = key
    · have hnone : get? key rest = none := get?_of_forall_ne fun other hother => by
        rw [← heq]
        exact h.head_ne other hother
      rw [hnone, if_pos heq, heq, get?_insert_self]
      rfl
    · rw [if_neg heq, get?_insert_of_ne (Ne.symm heq)]

theorem sorted_merge {fields more : Fields} (h : fields.Sorted) : (fields.merge more).Sorted := by
  induction more generalizing fields with
  | nil => exact h
  | cons field rest ih => exact ih (sorted_insert h)

/-- Without its null fields an object has the same fields, where a missing one is null. -/
theorem getD_filter_isNull {fields : Fields} (h : fields.Sorted) (key : String) :
    (Shape.object (fields.filter fun field => !field.2.isNull)).getD key =
      (Shape.object fields).getD key := by
  show (get? key _).getD .null = (get? key _).getD .null
  induction fields with
  | nil => rfl
  | cons field rest ih =>
    have ih := ih h.tail
    rw [List.filter_cons, get?]
    by_cases heq : field.1 = key
    · rw [if_pos heq]
      cases hnull : field.2.isNull with
      | true =>
        -- the field is dropped, and there is no other under its key
        have hnone : get? key rest = none := get?_of_forall_ne fun other hother => by
          rw [← heq]
          exact h.head_ne other hother
        have hvalue : field.2 = .null := by
          cases hshape : field.2 <;> rw [hshape] at hnull <;> first | rfl | cases hnull
        rw [if_neg (by simp), ih, hnone, hvalue]
        rfl
      | false => rw [if_pos (by simp), get?, if_pos heq]
    · rw [if_neg heq]
      split
      · rw [get?, if_neg heq, ih]
      · exact ih

end Fields

/-- The fields of an object; other shapes have none. -/
def Shape.fields : Shape → Fields
  | .object fields => fields
  | _ => []

/-- The fields of a shape are in order. -/
def Shape.Ordered (shape : Shape) : Prop := shape.fields.Sorted

theorem Shape.get?_eq (shape : Shape) (key : String) :
    shape.get? key = Fields.get? key shape.fields := by
  cases shape <;> rfl

/-- All fields of several shapes, later ones over earlier ones. -/
def allFields (fields : Fields) (shapes : List Shape) : Fields :=
  shapes.foldl (fun merged shape => merged.merge shape.fields) fields

theorem mergeShapes_eq (shapes : List Shape) :
    mergeShapes shapes = (allFields [] shapes).filter fun field => !field.2.isNull := by
  refine congrArg (fun step : Fields → Shape → Fields =>
    (shapes.foldl step []).filter fun field => !field.2.isNull) ?_
  funext merged shape
  cases shape <;> rfl

theorem sorted_allFields {fields : Fields} (h : fields.Sorted) (shapes : List Shape) :
    (allFields fields shapes).Sorted := by
  induction shapes generalizing fields with
  | nil => exact h
  | cons shape shapes ih => exact ih (Fields.sorted_merge h)

theorem sorted_mergeShapes (shapes : List Shape) : (mergeShapes shapes).Sorted := by
  have hall : (allFields [] shapes).Sorted := sorted_allFields List.Pairwise.nil shapes
  rw [mergeShapes_eq]
  exact hall.sublist List.filter_sublist

/-- A field that none of the shapes has is left as it is. -/
theorem get?_allFields_of_none {fields : Fields} {shapes : List Shape} {key : String}
    (hordered : ∀ shape ∈ shapes, shape.Ordered) (h : ∀ shape ∈ shapes, shape.get? key = none) :
    Fields.get? key (allFields fields shapes) = Fields.get? key fields := by
  induction shapes generalizing fields with
  | nil => rfl
  | cons shape shapes ih =>
    obtain ⟨hshape, hshapes⟩ := List.forall_mem_cons.1 hordered
    obtain ⟨hnone, hnones⟩ := List.forall_mem_cons.1 h
    rw [Shape.get?_eq] at hnone
    show Fields.get? key (allFields (fields.merge shape.fields) shapes) = _
    rw [ih hshapes hnones, Fields.get?_merge hshape, hnone]
    rfl

/-- A field that one of the shapes alone has is found in the whole. -/
theorem getD_mergeShapes {before later : List Shape} {shape : Shape} {key : String}
    (hordered : ∀ s ∈ before ++ shape :: later, s.Ordered)
    (hbefore : ∀ s ∈ before, s.get? key = none) (hlater : ∀ s ∈ later, s.get? key = none) :
    (Shape.object (mergeShapes (before ++ shape :: later))).getD key = shape.getD key := by
  obtain ⟨hordered, hshapes⟩ := List.forall_mem_append.1 hordered
  obtain ⟨hshape, hshapes⟩ := List.forall_mem_cons.1 hshapes
  have hsorted : (allFields [] (before ++ shape :: later)).Sorted :=
    sorted_allFields List.Pairwise.nil _
  rw [mergeShapes_eq, Fields.getD_filter_isNull hsorted]
  show (Fields.get? key _).getD .null = _
  rw [allFields, List.foldl_append, List.foldl_cons]
  show (Fields.get? key (allFields ((allFields [] before).merge shape.fields) later)).getD .null = _
  rw [get?_allFields_of_none hshapes hlater, Fields.get?_merge hshape,
    get?_allFields_of_none hordered hbefore, ← Shape.get?_eq]
  simp [Shape.getD]

/-- The whole has no field that none of the shapes has. -/
theorem get?_mergeShapes_of_none {shapes : List Shape} {key : String}
    (hordered : ∀ s ∈ shapes, s.Ordered) (h : ∀ s ∈ shapes, s.get? key = none) :
    Fields.get? key (mergeShapes shapes) = none := by
  have hnone : Fields.get? key (allFields [] shapes) = none := get?_allFields_of_none hordered h
  rw [mergeShapes_eq]
  exact Fields.get?_of_forall_ne fun field hfield =>
    Fields.ne_of_get?_eq_none hnone field (List.mem_of_mem_filter hfield)

/-! ### Fields by name -/

/-- Under these keys the two shapes have the same fields, where a missing field is null. -/
def Shape.AgreesOn (keys : String → Prop) (s s' : Shape) : Prop :=
  ∀ key, keys key → s.getD key = s'.getD key

theorem Shape.AgreesOn.refl (keys : String → Prop) (s : Shape) : s.AgreesOn keys s :=
  fun _ _ => rfl

theorem Shape.AgreesOn.trans {keys keys' : String → Prop} {s s' s'' : Shape}
    (h : s.AgreesOn keys s') (h' : s'.AgreesOn keys' s'') (hle : ∀ key, keys' key → keys key) :
    s.AgreesOn keys' s'' :=
  fun key hkey => (h key (hle key hkey)).trans (h' key hkey)

/-- A field that is not null is found by its name. -/
theorem fieldOf_eq_ok {name : String} {shape value : Shape} (hname : name ≠ mergeName)
    (h : shape.getD name = value) (hvalue : value ≠ .null) : shape.fieldOf name = .ok value := by
  rw [Shape.fieldOf, if_neg hname]
  rw [Shape.getD] at h
  cases hget : shape.get? name with
  | none =>
    rw [hget] at h
    exact absurd h.symm hvalue
  | some found =>
    rw [hget] at h
    obtain rfl : found = value := h
    rfl

theorem under_eq {name : String} (hname : name ≠ mergeName) (shape : Shape) :
    Shape.under name shape = .object [(name, shape)] := if_neg hname

theorem under_mergeName (shape : Shape) : Shape.under mergeName shape = shape := if_pos rfl

/-- What stands under a name is found by it. -/
theorem fieldOf_under (name : String) (shape : Shape) :
    (Shape.under name shape).fieldOf name = .ok shape := by
  by_cases hname : name = mergeName
  · rw [Shape.under, Shape.fieldOf, if_pos hname, if_pos hname]
  · rw [Shape.under, Shape.fieldOf, if_neg hname, if_neg hname]
    simp [Shape.get?, Fields.get?]

end ReversibleGrammar
