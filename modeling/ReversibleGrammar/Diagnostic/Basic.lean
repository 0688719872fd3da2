/-
Diagnostics: a title, and labels on ranges of a source.

* `Diagnostic.write` — the title, and the place of the first label;
* `Diagnostic.underline?` — where a single label on a plain line is underlined.
-/
import ReversibleGrammar.Text.Lines

namespace ReversibleGrammar

/-- A message on a range of characters. -/
structure Label where
  start : Nat
  stop : Nat
  message : String
  deriving DecidableEq, Repr, Inhabited

/-- What is wrong with a source, and where. -/
structure Diagnostic where
  title : String
  labels : List Label
  deriving DecidableEq, Repr, Inhabited

namespace Diagnostic

/-- The place of the first label. -/
def place? (d : Diagnostic) (source : String) : Option Text.Place :=
  match d.labels with
  | [] => none
  | label :: _ => Text.place? source.toList label.start

/-- A path with a line and a column, both counted from one. -/
def writePlace (path : String) (place : Text.Place) : String :=
  path ++ ":" ++ toString (place.line + 1) ++ ":" ++ toString (place.column + 1)

/-- The title on a line, and the place of the first label on another if there is one. -/
def write (d : Diagnostic) (path source : String) : String :=
  "Error: " ++ d.title ++ "\n" ++
    match d.place? source with
    | some place => writePlace path place ++ "\n"
    | none => ""

/-- A printable character of ASCII. -/
def isPlain (c : Char) : Bool := ' ' ≤ c && c ≤ '~'

/-- The characters of a line before its end. -/
def lineBody (line : List Char) : List Char := line.takeWhile fun c => !Text.isLineEnd c

/-- The first column and the width of the label, if it is the only one, is not empty, and lies on
one line of plain characters. -/
def underline? (d : Diagnostic) (source : String) : Option (Nat × Nat) :=
  match d.labels, d.place? source with
  | [label], some place =>
    let line := (Text.lines source.toList)[place.line]?.getD []
    let width := label.stop - label.start
    if 0 < width && place.column + width ≤ line.length && (lineBody line).all isPlain then
      some (place.column, width)
    else none
  | _, _ => none

end Diagnostic

end ReversibleGrammar
