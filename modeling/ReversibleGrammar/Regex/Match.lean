/-
Matching of regular expressions, leftmost first.

An expression turns a place in the text into the places where it can end, in the
order of preference: the left side of an alternation before the right one, and
one more round of a greedy repetition before its end.  Only the first way to end
at a place counts, as what follows depends on the place alone.

A repetition is walked depth first and never enters one place twice.  A round
that matches nothing may only be the first, and nothing but the end follows it.

* `Regex.ends` — the places where an expression can end, preferred ones first;
* `Regex.search?` — the first match in a text, at the leftmost place.
-/
import Std.Data.TreeMap
import Std.Data.TreeSet
import ReversibleGrammar.Regex.Basic

namespace ReversibleGrammar

/-- What a group captured: the characters from one place to another. -/
structure Capture where
  group : Nat
  start : Nat
  stop : Nat
  deriving DecidableEq, Repr, Inhabited

/-- A place in a text, with what the groups have captured on the way there. -/
structure Cursor where
  /-- The number of characters before the place. -/
  index : Nat
  before : Option Char
  rest : List Char
  /-- What the groups captured, later ones first. -/
  captures : List Capture
  deriving DecidableEq, Repr, Inhabited

namespace Cursor

/-- The start of a text. -/
def start (cs : List Char) : Cursor := ⟨0, none, cs, []⟩

/-- The next character is a word character. -/
def wordAhead (c : Cursor) : Bool := c.rest.head?.any Text.isWord

/-- The character before is a word character. -/
def wordBehind (c : Cursor) : Bool := c.before.any Text.isWord

/-- The condition holds at the place. -/
def satisfies (c : Cursor) : Assertion → Bool
  | .textStart => c.before.isNone
  | .textEnd => c.rest.isEmpty
  | .lineStart => c.before.all (· == '\n')
  | .lineEnd => c.rest.head?.all (· == '\n')
  | .wordBoundary => c.wordBehind != c.wordAhead
  | .noWordBoundary => c.wordBehind == c.wordAhead
  | .wordStart => !c.wordBehind && c.wordAhead
  | .wordEnd => c.wordBehind && !c.wordAhead

/-- The place after the next character, if that is in the set. -/
def take (set : CharSet) (c : Cursor) : List Cursor :=
  match c.rest with
  | d :: rest => if set.holds d then [⟨c.index + 1, some d, rest, c.captures⟩] else []
  | [] => []

/-- Records that the group captured the text from `c` to `stop`. -/
def capture (group : Nat) (c stop : Cursor) : Cursor :=
  { stop with captures := ⟨group, c.index, stop.index⟩ :: stop.captures }

end Cursor

/-- The cursors at places that are not in `seen`, the first one at each place. -/
def distinctFrom (seen : Std.TreeSet Nat) : List Cursor → List Cursor
  | [] => []
  | c :: cs =>
    if seen.contains c.index then distinctFrom seen cs
    else c :: distinctFrom (seen.insert c.index) cs

/-- The first cursor at each place. -/
def distinct (cs : List Cursor) : List Cursor := distinctFrom ∅ cs

/-- A walk through a repetition. -/
structure Walk where
  /-- The numbers of rounds left with which each place was entered. -/
  visited : Std.TreeMap Nat (List Nat)
  /-- The places where the repetition ended, the least preferred first. -/
  found : List Cursor
  deriving Inhabited

namespace Walk

/-- Nothing walked. -/
def empty : Walk := ⟨∅, []⟩

/-- The numbers of rounds left with which a place was entered. -/
def roundsAt (w : Walk) (index : Nat) : List Nat := w.visited.getD index []

/-- The place was entered with this number of rounds left. -/
def entered (w : Walk) (left : Nat) (c : Cursor) : Bool := (w.roundsAt c.index).contains left

/-- Enters a place with a number of rounds left. -/
def enter (w : Walk) (left : Nat) (c : Cursor) : Walk :=
  { w with visited := w.visited.insert c.index (left :: w.roundsAt c.index) }

/-- Ends the repetition at a place. -/
def stop (w : Walk) (c : Cursor) : Walk := { w with found := c :: w.found }

/-- The places where the repetition can end, preferred ones first. -/
def ends (w : Walk) : List Cursor := distinct w.found.reverse

end Walk

/-- Walks an unbounded repetition on from a place: into another round and to its end. -/
def walkOn (body : Cursor → List Cursor) (greedy : Bool) : Nat → Cursor → Walk → Walk
  | 0, _, w => w
  | depth + 1, c, w =>
    if w.entered 0 c then w
    else
      let w := w.enter 0 c
      let rounds (w : Walk) : Walk := (body c).foldl (fun w d => walkOn body greedy depth d w) w
      if greedy then (rounds w).stop c else rounds (w.stop c)

/-- Goes on after the first round from `start`; after a round that matched nothing only the end
follows. -/
def walkFirst (body : Cursor → List Cursor) (greedy : Bool) (start c : Cursor) (w : Walk) : Walk :=
  if c.index = start.index then
    if w.entered 0 c then w else (w.enter 0 c).stop c
  else walkOn body greedy (c.rest.length + 2) c w

/-- The ends of one round or more. -/
def oneOrMore (body : Cursor → List Cursor) (greedy : Bool) (c : Cursor) : List Cursor :=
  ((body c).foldl (fun w d => walkFirst body greedy c d w) .empty).ends

/-- The ends of any number of rounds. -/
def zeroOrMore (body : Cursor → List Cursor) (greedy : Bool) (c : Cursor) : List Cursor :=
  let rounds (w : Walk) : Walk := (body c).foldl (fun w d => walkFirst body greedy c d w) w
  (if greedy then (rounds .empty).stop c else rounds (Walk.empty.stop c)).ends

/-- Walks a repetition with at most `left` rounds more. -/
def walkAtMost (body : Cursor → List Cursor) (greedy : Bool) : Nat → Cursor → Walk → Walk
  | 0, c, w => w.stop c
  | left + 1, c, w =>
    if w.entered (left + 1) c then w
    else
      let w := w.enter (left + 1) c
      let rounds (w : Walk) : Walk :=
        (body c).foldl (fun w d => walkAtMost body greedy left d w) w
      if greedy then (rounds w).stop c else rounds (w.stop c)

/-- The ends of exactly `count` rounds. -/
def exactly (body : Cursor → List Cursor) : Nat → List Cursor → List Cursor
  | 0, cs => cs
  | count + 1, cs => exactly body count (distinct (cs.flatMap body))

/-- The places where an expression that starts at a place can end, preferred ones first. -/
def Regex.ends : Regex → Cursor → List Cursor
  | .empty, c => [c]
  | .set chars, c => c.take chars
  | .assert condition, c => if c.satisfies condition then [c] else []
  | .group index content, c => (content.ends c).map (Cursor.capture index c)
  | .concat left right, c => distinct ((left.ends c).flatMap right.ends)
  | .alternate left right, c => distinct (left.ends c ++ right.ends c)
  | .loop content min max greedy, c =>
    match max with
    | some max =>
      distinct ((exactly content.ends min [c]).flatMap fun d =>
        (walkAtMost content.ends greedy (max - min) d .empty).ends)
    | none =>
      match min with
      | 0 => zeroOrMore content.ends greedy c
      | min + 1 =>
        distinct ((exactly content.ends min [c]).flatMap (oneOrMore content.ends greedy))

/-- A match: how far into the text it reaches, and what each group captured. -/
structure Match where
  /-- The number of characters up to the end of the match. -/
  stop : Nat
  /-- The text of each group; empty for one that took no part. -/
  groups : List String
  deriving DecidableEq, Repr, Inhabited

/-- The last text that a group captured, in the characters `cs` from the place `index` on. -/
def Cursor.captured (c : Cursor) (index : Nat) (cs : List Char) (group : Nat) : String :=
  match c.captures.find? (·.group == group) with
  | some capture =>
    String.ofList ((cs.drop (capture.start - index)).take (capture.stop - capture.start))
  | none => ""

/-- The preferred match at a place. -/
def Regex.matchAt? (r : Regex) (groups index : Nat) (before : Option Char) (cs : List Char) :
    Option Match :=
  (r.ends ⟨index, before, cs, []⟩).head?.map fun stop =>
    ⟨stop.index, (List.range groups).map fun group => stop.captured index cs (group + 1)⟩

/-- The preferred match at the leftmost place that has one. -/
def Regex.searchFrom? (r : Regex) (groups : Nat) :
    Nat → Option Char → List Char → Option Match
  | index, before, [] => r.matchAt? groups index before []
  | index, before, c :: cs =>
    (r.matchAt? groups index before (c :: cs)).or (searchFrom? r groups (index + 1) (some c) cs)

/-- The first match in a text, at the leftmost place; an anchored expression is tried at the
start only. -/
def Regex.search? (r : Regex) (groups : Nat) (cs : List Char) : Option Match :=
  if r.isAnchored then r.matchAt? groups 0 none cs else r.searchFrom? groups 0 none cs

theorem distinct_nil : distinct [] = [] := rfl

/-- An anchored expression matches nowhere but at the start of the text. -/
theorem Regex.ends_of_isAnchored {r : Regex} (h : r.isAnchored = true) {c : Cursor}
    (hc : c.before ≠ none) : r.ends c = [] := by
  induction r generalizing c with
  | empty => simp [isAnchored] at h
  | set chars => simp [isAnchored] at h
  | assert condition =>
    simp only [isAnchored, beq_iff_eq] at h
    subst h
    simp [ends, Cursor.satisfies, hc]
  | group index content ih => simp [ends, ih h hc]
  | concat left right ihl ihr =>
    simp only [isAnchored, Bool.or_eq_true, Bool.and_eq_true, beq_iff_eq] at h
    rcases h with h | ⟨rfl, h⟩
    · simp [ends, ihl h hc, distinct_nil]
    · simp [ends, ihr h hc, distinct_nil]
  | alternate left right ihl ihr =>
    simp only [isAnchored, Bool.and_eq_true] at h
    simp [ends, ihl h.1 hc, ihr h.2 hc, distinct_nil]
  | loop content min max greedy => simp [isAnchored] at h

end ReversibleGrammar
