/-
Shapes: plain data in the form of JSON values.

A shape is what a derivation looks like when only its named parts are kept.
Objects keep their fields in increasing order of the key, each key once; that
order is the one that texts show.

* `get?_insert_self`, `get?_insert_of_ne` — what writing a field changes;
* `sorted_insert` — writing a field keeps the order of the keys;
* `equals` — equality of shapes, where the two zeros are one number while
  an integer and a double never are.
-/
import ReversibleGrammar.Decimal.Double

namespace ReversibleGrammar

/-- A number of a shape: whole numbers stay apart from doubles. -/
inductive Number where
  | integer (value : Int)
  | double (value : Decimal.Double)
  deriving DecidableEq, Repr, Inhabited

/-- Plain data. -/
inductive Shape where
  | null
  | bool (value : Bool)
  | number (value : Number)
  | text (value : String)
  | list (items : List Shape)
  | object (fields : List (String × Shape))
  deriving Inhabited, Repr

/-- Fields of an object, by increasing key. -/
abbrev Fields := List (String × Shape)

namespace Fields

/-- The value of the first field called `key`. -/
def get? (key : String) : Fields → Option Shape
  | [] => none
  | (name, value) :: rest => if name = key then some value else get? key rest

/-- The fields with `key` bound to `value`, at its place in the order of keys. -/
def insert (key : String) (value : Shape) : Fields → Fields
  | [] => [(key, value)]
  | (name, old) :: rest =>
    if key < name then (key, value) :: (name, old) :: rest
    else if key = name then (key, value) :: rest
    else (name, old) :: insert key value rest

/-- All of `more` written over `fields`. -/
def merge (fields more : Fields) : Fields :=
  more.foldl (fun merged field => merged.insert field.1 field.2) fields

/-- Keys increase strictly. -/
def Sorted (fields : Fields) : Prop :=
  fields.Pairwise fun a b => a.1 < b.1

@[simp] theorem get?_nil (key : String) : get? key [] = none := rfl

@[simp] theorem get?_insert_self (key : String) (value : Shape) (fields : Fields) :
    get? key (fields.insert key value) = some value := by
  induction fields with
  | nil => simp [insert, get?]
  | cons field rest ih =>
    obtain ⟨name, old⟩ := field
    by_cases hlt : key < name
    · simp [insert, hlt, get?]
    · by_cases heq : key = name
      · simp [insert, heq, get?]
      · simp [insert, hlt, heq, get?, Ne.symm heq, ih]

theorem get?_insert_of_ne {key other : String} (h : other ≠ key) (value : Shape)
    (fields : Fields) : get? other (fields.insert key value) = get? other fields := by
  induction fields with
  | nil => simp [insert, get?, Ne.symm h]
  | cons field rest ih =>
    obtain ⟨name, old⟩ := field
    by_cases hlt : key < name
    · simp [insert, hlt, get?, Ne.symm h]
    · by_cases heq : key = name
      · subst heq
        simp [insert, get?, Ne.symm h]
      · simp only [insert, hlt, heq, if_false, get?, ih]

theorem mem_insert {key : String} {value : Shape} {fields : Fields} {field : String × Shape}
    (h : field ∈ fields.insert key value) : field = (key, value) ∨ field ∈ fields := by
  induction fields with
  | nil => simpa [insert] using h
  | cons first rest ih =>
    obtain ⟨name, old⟩ := first
    by_cases hlt : key < name
    · simpa [insert, hlt] using h
    · by_cases heq : key = name
      · subst heq
        simp only [insert, hlt, if_true, if_false] at h
        rcases List.mem_cons.1 h with h | h
        · exact Or.inl h
        · exact Or.inr (List.mem_cons_of_mem _ h)
      · simp only [insert, hlt, heq, if_false] at h
        rcases List.mem_cons.1 h with h | h
        · exact Or.inr (h ▸ List.mem_cons_self)
        · exact (ih h).imp_right (List.mem_cons_of_mem _)

/-- Writing a field keeps the order of the keys. -/
theorem sorted_insert {key : String} {value : Shape} {fields : Fields} (h : Sorted fields) :
    Sorted (fields.insert key value) := by
  induction fields with
  | nil => simp [insert, Sorted]
  | cons first rest ih =>
    obtain ⟨name, old⟩ := first
    obtain ⟨hfirst, hrest⟩ := List.pairwise_cons.1 h
    by_cases hlt : key < name
    · simp only [insert, hlt, if_true]
      refine List.pairwise_cons.2 ⟨fun b hb => ?_, h⟩
      rcases List.mem_cons.1 hb with rfl | hb
      · exact hlt
      · exact String.lt_trans hlt (hfirst b hb)
    · by_cases heq : key = name
      · subst heq
        simp only [insert, hlt, if_true, if_false]
        exact List.pairwise_cons.2 ⟨hfirst, hrest⟩
      · simp only [insert, hlt, heq, if_false]
        refine List.pairwise_cons.2 ⟨fun b hb => ?_, ih hrest⟩
        rcases mem_insert hb with rfl | hb
        · exact Decidable.byContradiction fun hn =>
            heq (String.le_antisymm (String.not_lt.1 hn) (String.not_lt.1 hlt))
        · exact hfirst b hb

end Fields

namespace Shape

/-- The object of fields given in any order; of fields with one key the last counts. -/
def ofFields (fields : List (String × Shape)) : Shape := .object (Fields.merge [] fields)

/-- The field `key` of an object; other shapes have none. -/
def get? (key : String) : Shape → Option Shape
  | object fields => Fields.get? key fields
  | _ => none

/-- The field `key` of an object, null if there is none. -/
def getD (key : String) (shape : Shape) : Shape := (shape.get? key).getD null

/-- Is the null shape. -/
def isNull : Shape → Bool
  | null => true
  | _ => false

end Shape

/-- Equal as numbers, where an integer never equals a double. -/
def Number.equals : Number → Number → Bool
  | .integer a, .integer b => a == b
  | .double a, .double b => a.equals b
  | _, _ => false

mutual

/-- Equality of shapes; doubles are compared as numbers. -/
def Shape.equals : Shape → Shape → Bool
  | .null, .null => true
  | .bool a, .bool b => a == b
  | .number a, .number b => a.equals b
  | .text a, .text b => a == b
  | .list as, .list bs => Shape.listEquals as bs
  | .object as, .object bs => Shape.fieldsEqual as bs
  | _, _ => false

/-- Equality of lists of shapes. -/
def Shape.listEquals : List Shape → List Shape → Bool
  | [], [] => true
  | a :: as, b :: bs => a.equals b && Shape.listEquals as bs
  | _, _ => false

/-- Equality of the fields of two objects. -/
def Shape.fieldsEqual : List (String × Shape) → List (String × Shape) → Bool
  | [], [] => true
  | (name, a) :: as, (other, b) :: bs => name == other && a.equals b && Shape.fieldsEqual as bs
  | _, _ => false

end

end ReversibleGrammar
