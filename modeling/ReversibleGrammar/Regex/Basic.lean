/-
Regular expressions: their form.

* `CharSet.holds` — whether a character belongs to a set;
* `Regex.groups` — the capture groups of an expression, in the order of their
  opening parentheses;
* `escape` — the expression that matches a text literally.
-/
import ReversibleGrammar.Text.Blank
import ReversibleGrammar.Text.CaseFolding
import ReversibleGrammar.Text.Word

namespace ReversibleGrammar

/-- A set of characters. -/
inductive CharSet where
  | none
  | range (first last : Char)
  /-- Decimal digits. -/
  | digit
  /-- Word characters. -/
  | word
  /-- White space. -/
  | space
  | complement (set : CharSet)
  | union (left right : CharSet)
  /-- The characters of the set and their case variants. -/
  | caseless (set : CharSet)
  deriving DecidableEq, Repr, Inhabited

namespace CharSet

/-- The set of one character. -/
def single (c : Char) : CharSet := range c c

/-- The character belongs to the set. -/
def holds : CharSet → Char → Bool
  | none, _ => false
  | range first last, c => first ≤ c && c ≤ last
  | digit, c => Text.isDigit c
  | word, c => Text.isWord c
  | space, c => Text.isBlank c
  | complement set, c => !set.holds c
  | union left right, c => left.holds c || right.holds c
  | caseless set, c => (Text.caseVariants c).any set.holds

/-- A set belongs to its closure under case. -/
theorem holds_caseless {set : CharSet} {c : Char} (h : set.holds c = true) :
    (caseless set).holds c = true :=
  List.any_eq_true.2 ⟨c, Text.mem_variants c, h⟩

end CharSet

/-- A condition on a place between characters. -/
inductive Assertion where
  | textStart
  | textEnd
  | lineStart
  | lineEnd
  | wordBoundary
  | noWordBoundary
  | wordStart
  | wordEnd
  deriving DecidableEq, Repr, Inhabited

/-- A regular expression. -/
inductive Regex where
  | empty
  | set (chars : CharSet)
  | assert (condition : Assertion)
  /-- A capture group with its number. -/
  | group (index : Nat) (content : Regex)
  | concat (left right : Regex)
  /-- The left expression is preferred. -/
  | alternate (left right : Regex)
  /-- Between `min` and `max` times, as often as possible if `greedy`. -/
  | loop (content : Regex) (min : Nat) (max : Option Nat) (greedy : Bool)
  deriving DecidableEq, Repr, Inhabited

namespace Regex

/-- The number of capture groups. -/
def groups : Regex → Nat
  | empty | set _ | assert _ => 0
  | group _ content => content.groups + 1
  | concat left right | alternate left right => left.groups + right.groups
  | loop content _ _ _ => content.groups

/-- Every match begins at the start of the text. -/
def isAnchored : Regex → Bool
  | assert condition => condition == .textStart
  | group _ content => content.isAnchored
  | concat left right => left.isAnchored || (left == empty && right.isAnchored)
  | alternate left right => left.isAnchored && right.isAnchored
  | empty | set _ | loop .. => false

/-- The characters that mean something else than themselves in an expression. -/
def metaCharacters : List Char :=
  ['\\', '.', '+', '*', '?', '(', ')', '|', '[', ']', '\x7b', '\x7d', '^', '$', '#', '&', '-', '~']

/-- The expression that matches a text literally. -/
def escape (s : String) : String :=
  String.ofList (s.toList.flatMap fun c => if metaCharacters.contains c then ['\\', c] else [c])

end Regex

end ReversibleGrammar
