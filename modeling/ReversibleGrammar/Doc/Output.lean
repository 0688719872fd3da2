/-
Output of a layout: the text written so far.

Ending a line drops the blanks at its end.  Dropping reaches back over
everything written, so a text that itself ends in blanks loses them too, but
never past a new line.

* `toText` — the view of an output as text;
* `newLine_last` — an ended line ends in no blank.
-/
import ReversibleGrammar.Text.Blank

namespace ReversibleGrammar

/-- A blank that is dropped from the end of a line. -/
def isLineBlank (c : Char) : Bool := c = ' ' || c = '\t'

/-- The characters written so far, last first. -/
structure Output where
  reversed : List Char
  deriving DecidableEq, Repr, Inhabited

namespace Output

/-- Nothing written. -/
def empty : Output := ⟨[]⟩

/-- What was written. -/
def toText (out : Output) : String := String.ofList out.reversed.reverse

/-- Writes a text. -/
def emit (out : Output) (s : String) : Output := ⟨s.toList.reverseAux out.reversed⟩

/-- Ends the line and drops the blanks at its end. -/
def newLine (out : Output) : Output := ⟨'\n' :: out.reversed.dropWhile isLineBlank⟩

/-- Writes `level` copies of the indentation `unit`. -/
def emitIndent (out : Output) (level : Nat) (unit : String) : Output :=
  match level with
  | 0 => out
  | level + 1 => (out.emit unit).emitIndent level unit

@[simp] theorem reversed_emit (out : Output) (s : String) :
    (out.emit s).reversed = s.toList.reverse ++ out.reversed := by
  simp [emit]

/-- Before the new line stands no blank. -/
theorem newLine_last (out : Output) :
    ∀ c, (out.newLine.reversed.drop 1).head? = some c → isLineBlank c = false := by
  intro c hc
  have h := List.head?_dropWhile_not isLineBlank out.reversed
  have hc : (out.reversed.dropWhile isLineBlank).head? = some c := hc
  rw [hc] at h
  exact h

end Output

end ReversibleGrammar
