/-
Which patterns a pattern may call at its own position.

* `Grammar.Nullable` — the pattern can match without taking a token;
* `Grammar.LeftCall` — the pattern may call the other one before it has taken a token;
* `Grammar.Ranked` — no pattern comes back to itself through such calls;
* `Grammar.checkRank` — finds that out, given a rank.
-/
import ReversibleGrammar.Proofs.Grammar.Built
import ReversibleGrammar.Proofs.Grammar.Derivation

namespace ReversibleGrammar

variable {g : Grammar}

/-- The pattern can match without taking a token. -/
inductive Grammar.Nullable (g : Grammar) : PatternId → Prop
  | sequence {id : PatternId} {p : Pattern} {children : List PatternId}
      (hp : g.pattern? id = some p) (hkind : p.kind = .sequence children)
      (h : ∀ c ∈ children, g.Nullable c) : g.Nullable id
  | choice {id alternative : PatternId} {p : Pattern} {alternatives : List PatternId}
      {mode : ChoiceMode} {names : Option (List String)} (hp : g.pattern? id = some p)
      (hkind : p.kind = .choice alternatives mode names) (hmem : alternative ∈ alternatives)
      (h : g.Nullable alternative) : g.Nullable id
  | many {id item : PatternId} {p : Pattern} {separator : Option PatternId}
      (hp : g.pattern? id = some p) (hkind : p.kind = .many item separator) : g.Nullable id
  | option {id item : PatternId} {p : Pattern} (hp : g.pattern? id = some p)
      (hkind : p.kind = .option item) : g.Nullable id
  | wrapped {id child : PatternId} {p : Pattern} {wrapper : Wrapper}
      (hp : g.pattern? id = some p) (hkind : p.kind.wrapped? g = some (wrapper, child))
      (h : g.Nullable child) : g.Nullable id
  | mark {id : PatternId} {p : Pattern} {marker : Marker} (hp : g.pattern? id = some p)
      (hkind : p.kind.mark? = some marker) : g.Nullable id

/-- The first pattern may call the second before it has taken a token. -/
inductive Grammar.LeftCall (g : Grammar) : PatternId → PatternId → Prop
  | sequence {id child : PatternId} {p : Pattern} {before later : List PatternId}
      (hp : g.pattern? id = some p) (hkind : p.kind = .sequence (before ++ child :: later))
      (h : ∀ c ∈ before, g.Nullable c) : g.LeftCall id child
  | choice {id alternative : PatternId} {p : Pattern} {alternatives : List PatternId}
      {mode : ChoiceMode} {names : Option (List String)} (hp : g.pattern? id = some p)
      (hkind : p.kind = .choice alternatives mode names) (hmem : alternative ∈ alternatives) :
      g.LeftCall id alternative
  | many {id item : PatternId} {p : Pattern} {separator : Option PatternId}
      (hp : g.pattern? id = some p) (hkind : p.kind = .many item separator) : g.LeftCall id item
  | option {id item : PatternId} {p : Pattern} (hp : g.pattern? id = some p)
      (hkind : p.kind = .option item) : g.LeftCall id item
  | wrapped {id child : PatternId} {p : Pattern} {wrapper : Wrapper}
      (hp : g.pattern? id = some p) (hkind : p.kind.wrapped? g = some (wrapper, child)) :
      g.LeftCall id child

/-- Calls without taking a token lead to smaller and smaller ranks, so that there is no left
recursion. -/
def Grammar.Ranked (g : Grammar) (rank : PatternId → Nat) : Prop :=
  ∀ ⦃id child⦄, g.LeftCall id child → rank child < rank id

/-! ### Checking a rank -/

/-- A pattern of the kind can match without taking a token, given which patterns can. -/
def PatternKind.nullable (g : Grammar) (nullable : PatternId → Bool) : PatternKind → Bool
  | consume _ => false
  | sequence children => children.all nullable
  | choice alternatives _ _ => alternatives.any nullable
  | many _ _ | option _ | literal _ | line _ => true
  | kind =>
    match kind.wrapped? g with
    | some (_, child) => nullable child
    | none => false

/-- The patterns that a pattern of the kind may call before it has taken a token. -/
def PatternKind.leftCalls (g : Grammar) (nullable : PatternId → Bool) :
    PatternKind → List PatternId
  | sequence children => children.takeWhile nullable ++ (children.dropWhile nullable).take 1
  | choice alternatives _ _ => alternatives
  | many item _ | option item => [item]
  | kind =>
    match kind.wrapped? g with
    | some (_, child) => [child]
    | none => []

/-- No pattern but those said to can match without taking a token, and ranks get smaller from call
to call. -/
def Grammar.checkRank (g : Grammar) (nullable : PatternId → Bool) (rank : PatternId → Nat) : Bool :=
  g.patterns.toList.zipIdx.all fun x =>
    (!x.1.kind.nullable g nullable || nullable x.2) &&
      (x.1.kind.leftCalls g nullable).all fun child => rank child < rank x.2

section

variable {nullable : PatternId → Bool} {rank : PatternId → Nat} {id : PatternId} {p : Pattern}

theorem Grammar.checkRank_pattern (h : g.checkRank nullable rank = true)
    (hp : g.pattern? id = some p) :
    (p.kind.nullable g nullable = true → nullable id = true) ∧
      ∀ child ∈ p.kind.leftCalls g nullable, rank child < rank id := by
  have hmem : (p, id) ∈ g.patterns.toList.zipIdx := by
    rw [List.mem_zipIdx_iff_getElem?, Array.getElem?_toList]
    exact hp
  have hcheck := List.all_eq_true.1 h _ hmem
  simp only [Bool.and_eq_true, Bool.or_eq_true, Bool.not_eq_true', List.all_eq_true,
    decide_eq_true_iff] at hcheck
  refine ⟨fun htrue => hcheck.1.resolve_left ?_, hcheck.2⟩
  rw [htrue]
  exact Bool.noConfusion

theorem Grammar.Nullable.of_check (h : g.checkRank nullable rank = true) (hid : g.Nullable id) :
    nullable id = true := by
  induction hid with
  | sequence hp hkind _ ih =>
    refine (checkRank_pattern h hp).1 ?_
    rw [hkind]
    exact List.all_eq_true.2 ih
  | choice hp hkind hmem _ ih =>
    refine (checkRank_pattern h hp).1 ?_
    rw [hkind]
    exact List.any_eq_true.2 ⟨_, hmem, ih⟩
  | many hp hkind | option hp hkind =>
    refine (checkRank_pattern h hp).1 ?_
    rw [hkind]
    rfl
  | @wrapped _ _ p _ hp hkind _ ih =>
    refine (checkRank_pattern h hp).1 ?_
    cases hk : p.kind <;> rw [hk] at hkind <;> simp_all [PatternKind.wrapped?, PatternKind.nullable]
  | @mark _ p _ hp hkind =>
    refine (checkRank_pattern h hp).1 ?_
    cases hk : p.kind <;> rw [hk] at hkind <;> simp_all [PatternKind.mark?, PatternKind.nullable]

theorem mem_takeWhile_append_take {α : Type} {q : α → Bool} {before later : List α}
    {x : α} (h : ∀ y ∈ before, q y = true) :
    x ∈ (before ++ x :: later).takeWhile q ++ ((before ++ x :: later).dropWhile q).take 1 := by
  rw [List.takeWhile_append_of_pos h, List.dropWhile_append_of_pos h]
  cases hx : q x <;> simp [hx]

/-- A rank that is checked shows that there is no left recursion. -/
theorem Grammar.ranked_of_check (h : g.checkRank nullable rank = true) : g.Ranked rank := by
  intro id child hcall
  cases hcall with
  | sequence hp hkind hbefore =>
    refine (checkRank_pattern h hp).2 child ?_
    rw [hkind]
    exact mem_takeWhile_append_take fun c hc => (hbefore c hc).of_check h
  | choice hp hkind hmem =>
    refine (checkRank_pattern h hp).2 child ?_
    rw [hkind]
    exact hmem
  | many hp hkind | option hp hkind =>
    refine (checkRank_pattern h hp).2 child ?_
    rw [hkind]
    exact List.mem_singleton_self child
  | @wrapped p _ hp hkind =>
    refine (checkRank_pattern h hp).2 child ?_
    cases hk : p.kind <;> rw [hk] at hkind <;>
      simp_all [PatternKind.wrapped?, PatternKind.leftCalls]

end

/-- At least one `a`, right-recursively. -/
def Grammar.runs : Grammar where
  patterns := #[{ id := 0, kind := .consume "a" }, { id := 1, kind := .thunk 0 },
    { id := 2, kind := .sequence [0, 1] }, { id := 3, kind := .choice [2, 0] .parallel none }]
  rules := #[⟨"runs", 3⟩]
  labels := #[]

theorem Grammar.built_runs : runs.Built :=
  ⟨[.consume "a", .rule "runs", .sequence [0, 1], .parallelChoice [2, 0], .define "runs" 3],
    by cbv⟩

/-- The rule is only called again after a token. -/
theorem Grammar.ranked_runs : runs.Ranked fun id => [0, 3, 1, 2].getD id 0 :=
  have h : runs.checkRank (fun _ => false) (fun id => [0, 3, 1, 2].getD id 0) = true := by decide
  ranked_of_check h

end ReversibleGrammar
