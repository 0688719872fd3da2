/-
Lists and answers, element by element.

* `map_eq_ok_iff`, `map_eq_error_iff`, `bind_eq_ok_iff`, `mapError_eq_ok_iff` — what an answer says
  about the step before it;
* `mapM_eq_ok_iff` — a `mapM` succeeds exactly if each element does;
* `exists_of_forall₂_of_mem` — related lists have related elements;
* `exists_forall₂`, `exists_parts` — what exists for each element, in a list.
-/
import Mathlib

namespace ReversibleGrammar

theorem map_eq_ok_iff {f : α → β} {x : Except ε α} {b : β} :
    x.map f = .ok b ↔ ∃ a, x = .ok a ∧ f a = b := by
  cases x <;> simp [Except.map]

theorem map_eq_error_iff {f : α → β} {x : Except ε α} {e : ε} :
    x.map f = .error e ↔ x = .error e := by
  cases x <;> simp [Except.map]

theorem toOption_eq_some_iff {x : Except ε α} {a : α} : x.toOption = some a ↔ x = .ok a := by
  cases x <;> simp [Except.toOption]

theorem exists_ok_of_toOption_map {f : α → β} {x : Except ε α} {b : β}
    (h : (x.map f).toOption = some b) : ∃ a, x = .ok a ∧ f a = b := by
  cases x with
  | error e => cases h
  | ok a => exact ⟨a, rfl, Option.some.inj h⟩

theorem bind_eq_ok_iff {f : α → Except ε β} {x : Except ε α} {b : β} :
    x >>= f = .ok b ↔ ∃ a, x = .ok a ∧ f a = .ok b := by
  cases x <;> simp [bind, Except.bind]

theorem mapError_eq_ok_iff {f : ε → ε'} {x : Except ε α} {a : α} :
    x.mapError f = .ok a ↔ x = .ok a := by
  cases x <;> simp [Except.mapError]

/-- A `mapM` succeeds exactly if each of its elements does. -/
theorem mapM_eq_ok_iff {f : α → Except ε β} {xs : List α} {ys : List β} :
    xs.mapM f = .ok ys ↔ List.Forall₂ (fun x y => f x = .ok y) xs ys := by
  constructor
  · intro h
    induction xs generalizing ys with
    | nil =>
      rw [List.mapM_nil] at h
      cases h
      exact .nil
    | cons x xs ih =>
      rw [List.mapM_cons] at h
      cases hx : f x with
      | error e => simp [hx, bind, Except.bind] at h
      | ok y =>
        cases hxs : xs.mapM f with
        | error e => simp [hx, hxs, bind, Except.bind] at h
        | ok zs =>
          simp only [hx, hxs, bind, Except.bind, pure, Except.pure, Except.ok.injEq] at h
          subst h
          exact .cons hx (ih hxs)
  · intro h
    induction h with
    | nil => rfl
    | cons hx _ ih =>
      rw [List.mapM_cons, hx, ih]
      rfl

/-- A `mapM` fails with the error of an element. -/
theorem exists_of_mapM_eq_error {f : α → Except ε β} {xs : List α} {error : ε}
    (h : xs.mapM f = .error error) : ∃ x ∈ xs, f x = .error error := by
  induction xs with
  | nil => cases h
  | cons x xs ih =>
    rw [List.mapM_cons] at h
    cases hx : f x with
    | error e =>
      rw [hx] at h
      cases h
      exact ⟨x, List.mem_cons_self, hx⟩
    | ok y =>
      cases hxs : xs.mapM f with
      | error e =>
        simp only [hx, hxs, bind, Except.bind, Except.error.injEq] at h
        obtain ⟨x', hx', herror⟩ := ih (hxs.trans (congrArg Except.error h))
        exact ⟨x', List.mem_cons_of_mem x hx', herror⟩
      | ok ys => simp [hx, hxs, bind, Except.bind, pure, Except.pure] at h

/-- Related lists are related in any other way that follows for their elements. -/
theorem forall₂_imp_of_mem {R R' : α → β → Prop} {xs : List α} {ys : List β}
    (hR : ∀ x ∈ xs, ∀ y, R x y → R' x y) (h : List.Forall₂ R xs ys) : List.Forall₂ R' xs ys := by
  induction h with
  | nil => exact .nil
  | cons hx _ ih =>
    exact .cons (hR _ List.mem_cons_self _ hx) (ih fun x hx => hR x (List.mem_cons_of_mem _ hx))

/-- The same, where the elements on both sides are known. -/
theorem forall₂_imp_of_mem_mem {R R' : α → β → Prop} {xs : List α} {ys : List β}
    (hR : ∀ x ∈ xs, ∀ y ∈ ys, R x y → R' x y) (h : List.Forall₂ R xs ys) :
    List.Forall₂ R' xs ys := by
  induction h with
  | nil => exact .nil
  | cons hx _ ih =>
    refine .cons (hR _ List.mem_cons_self _ List.mem_cons_self hx) (ih fun x hx y hy => ?_)
    exact hR x (List.mem_cons_of_mem _ hx) y (List.mem_cons_of_mem _ hy)

/-- A `mapM` that succeeds still succeeds if each of its elements does. -/
theorem mapM_eq_ok_mono {f f' : α → Except ε β} {xs : List α} {ys : List β}
    (hf : ∀ x ∈ xs, ∀ y, f x = .ok y → f' x = .ok y) (h : xs.mapM f = .ok ys) :
    xs.mapM f' = .ok ys := by
  rw [mapM_eq_ok_iff] at h ⊢
  exact forall₂_imp_of_mem hf h

/-- A `mapM` over elements that are made into the same, but for errors and values. -/
theorem mapM_eq_mapM {f : α → Except ε β} {f' : α' → Except ε' β'} {onError : ε → ε'}
    {onValue : β → β'} {xs : List α} {xs' : List α'}
    (h : List.Forall₂ (fun x x' => f' x' = ((f x).map onValue).mapError onError) xs xs') :
    xs'.mapM f' = ((xs.mapM f).map (List.map onValue)).mapError onError := by
  induction h with
  | nil => rfl
  | @cons x x' xs xs' hx _ ih =>
    rw [List.mapM_cons, List.mapM_cons, hx, ih]
    cases f x with
    | error _ => rfl
    | ok _ => cases xs.mapM f <;> rfl

/-- The same, where errors stay as they are. -/
theorem mapM_eq_map_mapM {f : α → Except ε β} {f' : α' → Except ε β'} {onValue : β → β'}
    {xs : List α} {xs' : List α'}
    (h : List.Forall₂ (fun x x' => f' x' = (f x).map onValue) xs xs') :
    xs'.mapM f' = (xs.mapM f).map (List.map onValue) := by
  have hid {γ : Type _} (x : Except ε γ) : x.mapError id = x := by cases x <;> rfl
  rw [mapM_eq_mapM (h.imp fun x x' hx => hx.trans (hid _).symm), hid]

/-- If every element is made into something with a property, all of them are. -/
theorem exists_mapM_eq_ok {f : α → Except ε β} {P : β → Prop} {xs : List α}
    (h : ∀ x ∈ xs, ∃ y, f x = .ok y ∧ P y) : ∃ ys, xs.mapM f = .ok ys ∧ ∀ y ∈ ys, P y := by
  induction xs with
  | nil => exact ⟨[], rfl, by simp⟩
  | cons x xs ih =>
    obtain ⟨y, hy, hP⟩ := h x List.mem_cons_self
    obtain ⟨ys, hys, hall⟩ := ih fun x' hx' => h x' (List.mem_cons_of_mem x hx')
    refine ⟨y :: ys, ?_, List.forall_mem_cons.2 ⟨hP, hall⟩⟩
    rw [List.mapM_cons, hy, hys]
    rfl

/-- Each element on the right of related lists is related to one on the left. -/
theorem exists_of_forall₂_of_mem {R : α → β → Prop} {xs : List α} {ys : List β}
    (h : List.Forall₂ R xs ys) {y : β} (hy : y ∈ ys) : ∃ x ∈ xs, R x y := by
  induction h with
  | nil => cases hy
  | cons hxy _ ih =>
    rcases List.mem_cons.1 hy with rfl | hy
    · exact ⟨_, List.mem_cons_self, hxy⟩
    · obtain ⟨x, hx, hR⟩ := ih hy
      exact ⟨x, List.mem_cons_of_mem _ hx, hR⟩

/-- Where related elements are equal together, they are in related lists together. -/
theorem mem_iff_of_forall₂ {R : α → β → Prop} {x : α} {y : β}
    (hR : ∀ x' y', R x' y' → (x = x' ↔ y = y')) {xs : List α} {ys : List β}
    (h : List.Forall₂ R xs ys) : x ∈ xs ↔ y ∈ ys := by
  induction h with
  | nil => simp
  | cons hxy _ ih => rw [List.mem_cons, List.mem_cons, hR _ _ hxy, ih]

/-- Related lists with the same elements beside them. -/
theorem forall₂_zip {R : α → β → Prop} {xs : List α} {ys : List β} (h : List.Forall₂ R xs ys)
    (zs : List γ) :
    List.Forall₂ (fun x y => x.1 = y.1 ∧ R x.2 y.2) (zs.zip xs) (zs.zip ys) := by
  induction h generalizing zs with
  | nil => simp
  | cons hxy _ ih =>
    cases zs with
    | nil => exact .nil
    | cons z zs => exact .cons ⟨rfl, hxy⟩ (ih zs)

theorem exists_forall₂ {R : α → β → Prop} {xs : List α} (h : ∀ x ∈ xs, ∃ y, R x y) :
    ∃ ys, List.Forall₂ R xs ys := by
  induction xs with
  | nil => exact ⟨[], .nil⟩
  | cons x xs ih =>
    obtain ⟨y, hy⟩ := h x List.mem_cons_self
    obtain ⟨ys, hys⟩ := ih fun x' hx' => h x' (List.mem_cons_of_mem x hx')
    exact ⟨y :: ys, .cons hy hys⟩

/-- Two lists and what exists for their pairs, as one list. -/
theorem exists_parts {R : α → β → γ → Prop} {xs : List α} {ys : List β}
    (h : List.Forall₂ (fun x y => ∃ z, R x y z) xs ys) :
    ∃ parts : List (α × β × γ), parts.map (·.1) = xs ∧ parts.map (·.2.1) = ys ∧
      ∀ part ∈ parts, R part.1 part.2.1 part.2.2 := by
  induction h with
  | nil => exact ⟨[], rfl, rfl, List.forall_mem_nil _⟩
  | @cons x y xs ys hxy _ ih =>
    obtain ⟨z, hz⟩ := hxy
    obtain ⟨parts, rfl, rfl, hparts⟩ := ih
    exact ⟨(x, y, z) :: parts, rfl, rfl, List.forall_mem_cons.2 ⟨hz, hparts⟩⟩

end ReversibleGrammar
