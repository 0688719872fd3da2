/-
Storage that gives equal values equal numbers.

A value is stored once and then stands for its number, so that comparing two
values of any size is comparing two numbers.

* `Interner.Faithful` — the numbers are those of the stored values, exactly;
* `faithful_intern` — storing a value keeps that;
* `get?_intern` — a number keeps its value for good;
* `intern_eq_iff` — after storing, two values have one number exactly if they are equal.
-/
import Std.Data.TreeMap

namespace ReversibleGrammar

/-- Values in the order of their first storing, and the number of each. -/
structure Interner (α : Type) [Ord α] where
  values : Array α
  numbers : Std.TreeMap α Nat

namespace Interner

variable {α : Type} [Ord α]

/-- Nothing stored. -/
def empty : Interner α := ⟨#[], {}⟩

/-- The number of stored values. -/
def size (s : Interner α) : Nat := s.values.size

/-- The value with a number. -/
def get? (s : Interner α) (n : Nat) : Option α := s.values[n]?

/-- The value with a number, or the default value for a number not given out. -/
def get [Inhabited α] (s : Interner α) (n : Nat) : α := s.values.getD n default

/-- Stores a value and gives its number. -/
def intern (s : Interner α) (a : α) : Nat × Interner α :=
  match s with
  | ⟨values, numbers⟩ =>
    match numbers[a]? with
    | some n => (n, ⟨values, numbers⟩)
    | none =>
      let n := values.size
      (n, ⟨values.push a, numbers.insert a n⟩)

/-- The numbers are those of the stored values. -/
def Faithful (s : Interner α) : Prop :=
  ∀ (a : α) (n : Nat), s.numbers[a]? = some n ↔ s.values[n]? = some a

theorem intern_of_some {s : Interner α} {a : α} {n : Nat} (h : s.numbers[a]? = some n) :
    s.intern a = (n, s) := by
  cases s
  simp only [intern, h]

theorem intern_of_none {s : Interner α} {a : α} (h : s.numbers[a]? = none) :
    s.intern a = (s.values.size, ⟨s.values.push a, s.numbers.insert a s.values.size⟩) := by
  cases s
  simp only [intern, h]

theorem faithful_empty [Std.TransOrd α] : (empty : Interner α).Faithful := by
  intro a n
  simp [empty]

theorem get?_intern_self (s : Interner α) (hs : s.Faithful) (a : α) :
    (s.intern a).2.get? (s.intern a).1 = some a := by
  cases hn : s.numbers[a]? with
  | none => simp [intern_of_none hn, get?]
  | some n =>
    rw [intern_of_some hn]
    exact (hs a n).1 hn

/-- A number keeps its value. -/
theorem get?_intern (s : Interner α) (a : α) {n : Nat} {b : α} (h : s.get? n = some b) :
    (s.intern a).2.get? n = some b := by
  unfold get? at *
  cases hn : s.numbers[a]? with
  | some m => rwa [intern_of_some hn]
  | none =>
    rw [intern_of_none hn]
    have hlt : n < s.values.size := (Array.getElem?_eq_some_iff.1 h).1
    rw [← h]
    exact Array.getElem?_push_lt hlt |>.trans (Array.getElem?_eq_getElem hlt).symm

variable [Std.TransOrd α] [Std.LawfulEqOrd α]

/-- Storing a value keeps the numbers true. -/
theorem faithful_intern {s : Interner α} (hs : s.Faithful) (a : α) : (s.intern a).2.Faithful := by
  cases hn : s.numbers[a]? with
  | some m => rwa [intern_of_some hn]
  | none =>
    rw [intern_of_none hn]
    intro b n
    have hfresh : ∀ m : Nat, s.values[m]? ≠ some a := fun m hm => by
      rw [(hs a m).2 hm] at hn
      cases hn
    show (s.numbers.insert a s.values.size)[b]? = some n ↔ (s.values.push a)[n]? = some b
    rw [Std.TreeMap.getElem?_insert, Array.getElem?_push]
    by_cases hab : a = b
    · subst hab
      simp only [Std.ReflCmp.compare_self, if_true, Option.some.injEq]
      constructor
      · rintro rfl
        simp
      · intro h
        by_cases hsize : n = s.values.size
        · exact hsize.symm
        · simp [hsize] at h
          exact absurd h (hfresh n)
    · have hcmp : compare a b ≠ .eq := fun h => hab (Std.LawfulEqCmp.eq_of_compare h)
      simp only [hcmp, if_false]
      by_cases hsize : n = s.values.size
      · subst hsize
        constructor
        · intro h
          have := (hs b _).1 h
          simp at this
        · intro h
          simp at h
          exact absurd h hab
      · simp [hsize, hs b n]

/-- Two values have one number exactly if they are equal. -/
theorem intern_eq_iff {s : Interner α} (hs : s.Faithful) (a b : α) :
    (s.intern a).1 = ((s.intern a).2.intern b).1 ↔ a = b := by
  have ha := get?_intern_self s hs a
  have hf := faithful_intern hs a
  have hb := get?_intern_self (s.intern a).2 hf b
  have ha' := get?_intern (s.intern a).2 b ha
  constructor
  · intro h
    rw [h, hb] at ha'
    exact (Option.some.inj ha').symm
  · rintro rfl
    have hfa := faithful_intern hf a
    exact Option.some.inj (((hfa a _).2 ha').symm.trans ((hfa a _).2 hb))

end Interner

end ReversibleGrammar
