/-
The calls that a pattern makes.

A pattern calls its parts one after the other, and where it calls them depends on what
they match.  A part is called at most once at each end of what comes before it.

* `Pattern.calls` — the calls of a pattern at a position, in order;
* `Pattern.calls_forward` — they are made further on, or at the position of those that the
  pattern may call there.
-/
import ReversibleGrammar.Proofs.Grammar.Readings

namespace ReversibleGrammar

/-- A pattern, and the position at which it is called. -/
abbrev Call := PatternId × Nat

/-- The pattern of the part that comes next. -/
def Chain.nextPart {ν : Type} (item : PatternId) (separator : Option PatternId) (c : Chain ν) :
    PatternId :=
  (c.nextSeparator? separator).getD item

namespace Readings

variable {ν : Type} (read : Readings ν)

/-- The alternatives that a choice tries at a position; an ordered one stops at the first that
matches. -/
def tried (mode : ChoiceMode) (i : Nat) : List PatternId → List PatternId
  | [] => []
  | a :: later =>
    a :: if !(read a i).isEmpty && mode == .ordered then [] else tried mode i later

/-- The calls of patterns that follow each other, round by round.  The first one has been called at
the ends of `ws`, and is called at those of `xs`. -/
def callsAfter : List PatternId → List (List (Tree ν) × Nat) → List (List (Tree ν) × Nat) →
    List Call
  | [], _, _ => []
  | child :: later, ws, xs =>
    xs.map (fun x => (child, x.2)) ++
      callsAfter later [] ((ws ++ xs).flatMap (read.extendPrefix child))

end Readings

/-- The calls of a pattern at a position, given what the patterns match that it calls. -/
def Pattern.calls {ν : Type} (p : Pattern) (g : Grammar) (size : Nat) (read : Readings ν)
    (i : Nat) : List Call :=
  match p.kind with
  | .consume _ | .literal _ | .line _ => []
  | .sequence children => read.callsAfter children [] [([], i)]
  | .choice alternatives mode _ => (read.tried mode i alternatives).map fun a => (a, i)
  | .many item separator =>
    (read.chains item separator size i).map fun c => (c.nextPart item separator, c.stop)
  | .option item | .indent item | .group item | .conditional item _ _ _ => [(item, i)]
  | .thunk rule =>
    match g.ruleBody? rule with
    | some body => [(body, i)]
    | none => []

section

variable {ν : Type} {g : Grammar} {size i : Nat} {read : Readings ν} {id : PatternId} {p : Pattern}

theorem Pattern.calls_wrapped {wrapper : Wrapper} {child : PatternId}
    (h : p.kind.wrapped? g = some (wrapper, child)) (size : Nat) (read : Readings ν) (i : Nat) :
    p.calls g size read i = [(child, i)] := by
  unfold calls
  cases hkind : p.kind with
  | thunk rule =>
    rw [hkind] at h
    obtain ⟨body, hbody, heq⟩ := Option.map_eq_some_iff.1 h
    cases heq
    simp only [hbody]
  | indent | group | conditional =>
    rw [hkind] at h
    cases h
    rfl
  | _ => simp [hkind, PatternKind.wrapped?] at h

theorem Pattern.calls_mark {marker : Marker} (h : p.kind.mark? = some marker) (size : Nat)
    (read : Readings ν) (i : Nat) : p.calls g size read i = [] := by
  unfold calls
  cases hkind : p.kind with
  | literal | line => rfl
  | _ => simp [hkind, PatternKind.mark?] at h

theorem Readings.tried_sublist (mode : ChoiceMode) (i : Nat) (alternatives : List PatternId) :
    (read.tried mode i alternatives).Sublist alternatives := by
  induction alternatives with
  | nil => exact .slnil
  | cons a later ih =>
    rw [tried]
    refine .cons_cons a ?_
    split
    · exact List.nil_sublist _
    · exact ih

/-- A choice that is not ordered tries every alternative. -/
@[simp] theorem Readings.tried_parallel (i : Nat) (alternatives : List PatternId) :
    read.tried .parallel i alternatives = alternatives := by
  induction alternatives with
  | nil => rfl
  | cons a later ih => simp [tried, ih]

/-- Each call of a sequence is made at an end of its children before. -/
theorem Readings.mem_callsAfter (before : List PatternId) {later : List PatternId} {c : Call}
    (hc : c ∈ read.callsAfter later [] (read.prefixes before i)) :
    ∃ between after, later = between ++ c.1 :: after ∧
      ∃ x ∈ read.prefixes (before ++ between) i, c.2 = x.2 := by
  induction later generalizing before with
  | nil => cases hc
  | cons child later ih =>
    rcases List.mem_append.1 hc with hc | hc
    · obtain ⟨x, hx, rfl⟩ := List.mem_map.1 hc
      exact ⟨[], later, rfl, x, by rwa [List.append_nil], rfl⟩
    · rw [List.nil_append, ← prefixes_append_singleton] at hc
      obtain ⟨between, after, rfl, x, hx, hstop⟩ := ih (before ++ [child]) hc
      exact ⟨child :: between, after, rfl, x, by rwa [List.append_assoc] at hx, hstop⟩

/-- Calls are made of any pattern further on, and at the position of the pattern itself of those
that it may call there. -/
theorem Pattern.calls_forward (hp : g.pattern? id = some p) (hread : read.Forward g size)
    (hi : i ≤ size) : ∀ c ∈ p.calls g size read i,
      c.2 ≤ size ∧ (i < c.2 ∨ i = c.2 ∧ g.LeftCall id c.1) := by
  intro c hc
  have hwrapped {wrapper : Wrapper} {child : PatternId}
      (hkind : p.kind.wrapped? g = some (wrapper, child)) :
      c.2 ≤ size ∧ (i < c.2 ∨ i = c.2 ∧ g.LeftCall id c.1) := by
    rw [calls_wrapped hkind] at hc
    obtain rfl := List.mem_singleton.1 hc
    exact ⟨hi, .inr ⟨rfl, .wrapped hp hkind⟩⟩
  cases hkind : p.kind with
  | consume | literal | line =>
    simp only [calls, hkind] at hc
    cases hc
  | sequence children =>
    simp only [calls, hkind] at hc
    obtain ⟨before, later, hchildren, x, hx, hstop⟩ := Readings.mem_callsAfter [] hc
    obtain ⟨hle, hsize, hnullable⟩ := prefixes_forward hread hi x hx
    rw [hstop]
    refine ⟨hsize, ?_⟩
    rcases hle.lt_or_eq with hlt | hstop
    · exact .inl hlt
    · exact .inr ⟨hstop, .sequence hp (hchildren ▸ hkind) (hnullable hstop.symm)⟩
  | choice alternatives mode names =>
    simp only [calls, hkind] at hc
    obtain ⟨a, ha, rfl⟩ := List.mem_map.1 hc
    have ha := (Readings.tried_sublist mode i alternatives).subset ha
    exact ⟨hi, .inr ⟨rfl, .choice hp hkind ha⟩⟩
  | many item separator =>
    simp only [calls, hkind] at hc
    obtain ⟨d, hd, rfl⟩ := List.mem_map.1 hc
    have hforward := chains_forward hread hi d hd
    have hle : i ≤ d.stop := hforward.le_mark.trans hforward.mark_le
    refine ⟨hforward.stop_le, ?_⟩
    cases hnext : d.nextSeparator? separator with
    | some s =>
      -- a separator comes after an item, which has made progress
      obtain ⟨hafter, -⟩ := Chain.nextSeparator?_eq_some hnext
      have hlt := hforward.past (hforward.items_ne_nil hafter)
      exact .inl (hlt.trans_le hforward.mark_le)
    | none =>
      rcases hle.lt_or_eq with hlt | hstop
      · exact .inl hlt
      · refine .inr ⟨hstop, ?_⟩
        rw [Chain.nextPart, hnext]
        exact .many hp hkind
  | option item =>
    simp only [calls, hkind] at hc
    obtain rfl := List.mem_singleton.1 hc
    exact ⟨hi, .inr ⟨rfl, .option hp hkind⟩⟩
  | thunk rule =>
    cases hbody : g.ruleBody? rule with
    | none => simp [calls, hkind, hbody] at hc
    | some body =>
      refine hwrapped (show p.kind.wrapped? g = some (.thunk, body) from ?_)
      rw [hkind, PatternKind.wrapped?, hbody]
      rfl
  | indent | group | conditional => exact hwrapped (by rw [hkind]; rfl)

end

end ReversibleGrammar
