/-
Results of recognition: what matched, or why nothing did.

A fragment is one step of a match and refers to the fragments before it by
number.  It carries no pattern: a fragment is read back along a pattern later.
Sequences and repetitions grow by one part at a time, so each of their prefixes
is a fragment of its own.

* `Fragment.parts` — the numbers a fragment refers to;
* `Result` — an outcome, the position where it stops, and the recursion it met;
* `ResultSet` — results in the order of their discovery, each once.
-/
import Std.Data.TreeSet
import ReversibleGrammar.Recognizer.Recursion

namespace ReversibleGrammar

/-- Constructs around one child that change nothing about a match. -/
inductive Wrapper where
  | thunk
  | indent
  | group
  | conditional
  deriving DecidableEq, Repr, Inhabited

/-- Constructs that match nothing. -/
inductive Marker where
  | literal
  | line
  deriving DecidableEq, Repr, Inhabited

/-- The number of a stored fragment. -/
abbrev FragmentId := Nat

/-- One step of a match. -/
inductive Fragment where
  /-- A token, by the number of its value. -/
  | leaf (value : Nat)
  /-- A sequence before its first child. -/
  | sequenceStart
  /-- A sequence with one child more. -/
  | sequenceStep (before last : FragmentId)
  | choice (index : Nat) (chosen : FragmentId)
  /-- A repetition without items. -/
  | manyStart
  /-- A repetition with one item more. -/
  | manyItem (before item : FragmentId)
  /-- A repetition with one separator more. -/
  | manySeparator (before separator : FragmentId)
  | absent
  | present (item : FragmentId)
  | wrapped (wrapper : Wrapper) (child : FragmentId)
  | mark (marker : Marker)
  deriving DecidableEq, Repr, Inhabited

namespace Fragment

/-- The fragments that a fragment refers to. -/
def parts : Fragment → List FragmentId
  | sequenceStep before last => [before, last]
  | choice _ chosen => [chosen]
  | manyItem before item => [before, item]
  | manySeparator before separator => [before, separator]
  | present item => [item]
  | wrapped _ child => [child]
  | leaf _ | sequenceStart | manyStart | absent | mark _ => []

/-- Three numbers that tell fragments apart. -/
def code : Fragment → Nat × Nat × Nat
  | leaf value => (0, value, 0)
  | sequenceStart => (1, 0, 0)
  | sequenceStep before last => (2, before, last)
  | choice index chosen => (3, index, chosen)
  | manyStart => (4, 0, 0)
  | manyItem before item => (5, before, item)
  | manySeparator before separator => (6, before, separator)
  | absent => (7, 0, 0)
  | present item => (8, item, 0)
  | wrapped .thunk child => (9, child, 0)
  | wrapped .indent child => (10, child, 0)
  | wrapped .group child => (11, child, 0)
  | wrapped .conditional child => (12, child, 0)
  | mark .literal => (13, 0, 0)
  | mark .line => (14, 0, 0)

theorem code_inj {a b : Fragment} (h : a.code = b.code) : a = b := by
  cases a with
  | wrapped w c => cases w <;> cases b with
    | wrapped v d => cases v <;> simp_all [code]
    | mark m => cases m <;> simp [code] at h
    | _ => simp [code] at h
  | mark m => cases m <;> cases b with
    | wrapped v d => cases v <;> simp [code] at h
    | mark m => cases m <;> simp_all [code]
    | _ => simp [code] at h
  | _ =>
    cases b with
    | wrapped v d => cases v <;> simp [code] at h
    | mark m => cases m <;> simp [code] at h
    | _ => simp_all [code]

end Fragment

/-- Triples of numbers, compared from the left. -/
abbrev compareTriple : Nat × Nat × Nat → Nat × Nat × Nat → Ordering :=
  compareLex (compareOn (·.1)) (compareLex (compareOn (·.2.1)) (compareOn (·.2.2)))

theorem eq_of_compareTriple {s t : Nat × Nat × Nat} (h : compareTriple s t = .eq) : s = t := by
  obtain ⟨a, b, c⟩ := s
  obtain ⟨d, e, f⟩ := t
  have h : (compare a d).then ((compare b e).then (compare c f)) = .eq := h
  rw [Ordering.then_eq_eq, Ordering.then_eq_eq] at h
  simp only [Nat.compare_eq_eq] at h
  rw [h.1, h.2.1, h.2.2]

instance : Ord Fragment := ⟨fun a b => compareTriple a.code b.code⟩

instance : Std.TransOrd Fragment where
  eq_swap {a b} := @Std.OrientedCmp.eq_swap _ compareTriple _ a.code b.code
  isLE_trans {a b c} := @Std.TransCmp.isLE_trans _ compareTriple _ a.code b.code c.code

instance : Std.LawfulEqOrd Fragment where
  eq_of_compare h := Fragment.code_inj (eq_of_compareTriple h)

/-- Why a recognizer did not match. -/
inductive FailureKind where
  /-- A site was entered more often than it has tokens before it. -/
  | infiniteRecursion
  /-- A match stopped with this many tokens left. -/
  | tokensRemaining (count : Nat)
  /-- A token was expected after the last one. -/
  | tokensExhausted (expected : String)
  /-- The token at `found` has another type. -/
  | unexpectedToken (expected : String) (found : Nat)
  /-- No alternative of a labelled choice matched. -/
  | alternativeFailed (label : String)
  deriving DecidableEq, Repr, Inhabited

namespace FailureKind

/-- The numbers of the characters of a text. -/
def textCode (s : String) : List Nat := s.toList.map Char.toNat

theorem textCode_inj {s t : String} (h : textCode s = textCode t) : s = t := by
  have hmap : s.toList = t.toList :=
    List.map_inj_right (fun _ _ h => Char.toNat_inj.1 h) |>.1 h
  exact String.toList_inj.1 hmap

/-- Numbers that tell kinds of failure apart. -/
def code : FailureKind → List Nat
  | infiniteRecursion => [0]
  | tokensRemaining count => [1, count]
  | tokensExhausted expected => 2 :: textCode expected
  | unexpectedToken expected found => 3 :: found :: textCode expected
  | alternativeFailed label => 4 :: textCode label

theorem code_inj {a b : FailureKind} (h : a.code = b.code) : a = b := by
  cases a <;> cases b <;> simp [code] at h <;> try rfl
  · rw [h]
  · rw [textCode_inj h]
  · rw [h.1, textCode_inj h.2]
  · rw [textCode_inj h]

end FailureKind

instance : Ord FailureKind := ⟨compareOn FailureKind.code⟩

instance : Std.TransOrd FailureKind :=
  inferInstanceAs (Std.TransCmp (compareOn FailureKind.code))

instance : Std.LawfulEqOrd FailureKind where
  eq_of_compare {a b} h :=
    FailureKind.code_inj (@Std.LawfulEqCmp.eq_of_compare _ compare _ a.code b.code h)

/-- The number of a stored kind of failure. -/
abbrev FailureId := Nat

/-- What a recognizer came to. -/
inductive Outcome where
  | success (fragment : FragmentId)
  | failure (kind : FailureId)
  deriving DecidableEq, Repr, Inhabited

/-- An outcome, the position after the match or of the failure, and the map of the recursion
that was cut off, if any. -/
structure Result where
  outcome : Outcome
  stop : Nat
  map : MapId
  deriving DecidableEq, Repr, Inhabited

/-- A number for an outcome; successes have the even ones. -/
def Outcome.code : Outcome → Nat
  | success fragment => 2 * fragment
  | failure kind => 2 * kind + 1

theorem Outcome.code_inj : ∀ {a b : Outcome}, a.code = b.code → a = b
  | .success f, .success g, h => congrArg _ (Nat.eq_of_mul_eq_mul_left (by decide : 0 < 2) h)
  | .failure k, .failure l, h =>
    congrArg _ (Nat.eq_of_mul_eq_mul_left (by decide : 0 < 2) (Nat.succ.inj h))
  | .success f, .failure k, h => by simp only [code] at h; omega
  | .failure k, .success f, h => by simp only [code] at h; omega

/-- Three numbers that tell results apart. -/
def Result.code (r : Result) : Nat × Nat × Nat := (r.outcome.code, r.stop, r.map)

theorem Result.code_inj {a b : Result} (h : a.code = b.code) : a = b := by
  cases a
  cases b
  simp only [Result.code, Prod.mk.injEq] at h
  rw [Outcome.code_inj h.1, h.2.1, h.2.2]

instance : Ord Result := ⟨fun a b => compareTriple a.code b.code⟩

instance : Std.TransOrd Result where
  eq_swap {a b} := @Std.OrientedCmp.eq_swap _ compareTriple _ a.code b.code
  isLE_trans {a b c} := @Std.TransCmp.isLE_trans _ compareTriple _ a.code b.code c.code

instance : Std.LawfulEqOrd Result where
  eq_of_compare h := Result.code_inj (eq_of_compareTriple h)

/-- The number of a stored result. -/
abbrev ResultId := Nat

/-- Results in the order of their discovery, each once. -/
structure ResultSet where
  order : Array ResultId
  seen : Std.TreeSet ResultId

namespace ResultSet

/-- No results. -/
def empty : ResultSet := ⟨#[], {}⟩

instance : Inhabited ResultSet := ⟨empty⟩

/-- The results in order. -/
def toList (s : ResultSet) : List ResultId := s.order.toList

/-- There are none. -/
def isEmpty (s : ResultSet) : Bool := s.order.isEmpty

/-- Is among the results. -/
def holds (s : ResultSet) (r : ResultId) : Bool := s.seen.contains r

/-- Adds a result unless it is there. -/
def insert (s : ResultSet) (r : ResultId) : ResultSet :=
  match s with
  | ⟨order, seen⟩ => if seen.contains r then ⟨order, seen⟩ else ⟨order.push r, seen.insert r⟩

/-- Adds results in order. -/
def insertAll (s : ResultSet) (rs : List ResultId) : ResultSet := rs.foldl insert s

/-- The results of a list, each at its first place. -/
def ofList (rs : List ResultId) : ResultSet := empty.insertAll rs

end ResultSet

end ReversibleGrammar
