/-
Lines, and where characters are in them.

A line ends with a line feed, a vertical tab, a form feed, a carriage return, the
next-line character, or a line or paragraph separator; a carriage return and a line
feed after it are one end.

* `flatten_lines` — the lines of a text, with their ends, are the text;
* `place?` — the line and the column of a character.
-/

namespace ReversibleGrammar.Text

/-- The code points that end a line. -/
def isLineEnd (c : Char) : Bool :=
  [0xA, 0xB, 0xC, 0xD, 0x85, 0x2028, 0x2029].contains c.toNat

/-- The lines of a text after the characters `line` of the current one, last first. -/
def linesFrom (line : List Char) : List Char → List (List Char)
  | [] => if line.isEmpty then [] else [line.reverse]
  | '\r' :: '\n' :: cs => ('\n' :: '\r' :: line).reverse :: linesFrom [] cs
  | c :: cs =>
    if isLineEnd c then (c :: line).reverse :: linesFrom [] cs else linesFrom (c :: line) cs

/-- The lines of a text, each with its end. -/
def lines (cs : List Char) : List (List Char) := linesFrom [] cs

theorem flatten_linesFrom (line cs : List Char) :
    (linesFrom line cs).flatten = line.reverse ++ cs := by
  fun_induction linesFrom line cs with
  | case1 line h => simp [List.isEmpty_iff.1 h]
  | case2 line h => simp
  | case3 line cs ih => simp [ih]
  | case4 line c cs _ h ih => simp [ih]
  | case5 line c cs _ h ih => simp [ih]

/-- The lines of a text, with their ends, are the text. -/
theorem flatten_lines (cs : List Char) : (lines cs).flatten = cs := by
  simp [lines, flatten_linesFrom]

/-- A line and a column, both counted from zero. -/
structure Place where
  line : Nat
  column : Nat
  deriving DecidableEq, Repr, Inhabited

/-- The place of the character with an index in lines of which the first has a number; the index
after the last character is in the last line. -/
def placeFrom? (number : Nat) : List (List Char) → Nat → Option Place
  | [], _ => none
  | [line], index => if index ≤ line.length then some ⟨number, index⟩ else none
  | line :: rest, index =>
    if index < line.length then some ⟨number, index⟩
    else placeFrom? (number + 1) rest (index - line.length)

/-- The place of the character with an index; a text without characters has no place. -/
def place? (cs : List Char) (index : Nat) : Option Place := placeFrom? 0 (lines cs) index

end ReversibleGrammar.Text
