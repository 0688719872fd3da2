/-
What the command line shows of a source.

* `View.display` — a source as tokens, as an outline or as a shape;
* `Language.reprint` — a source printed anew, ended by a new line.
-/
import ReversibleGrammar.Diagnostic.Report
import ReversibleGrammar.Shape.Printer
import ReversibleGrammar.Tree.Outline

namespace ReversibleGrammar

/-- Ways to look at a source. -/
inductive View where
  /-- One token per line, as plain data. -/
  | tokens
  /-- The outline of the tree. -/
  | outline
  /-- The shape, over several lines. -/
  | shape
  deriving DecidableEq, Repr, Inhabited

/-- The lines, each ended by a new line. -/
def endLines (lines : List String) : String := String.join (lines.map (· ++ "\n"))

/-- A source as a rule, looked at in one way, or the report of why it cannot be. -/
def View.display (view : View) (l : Language) (rule source : String) : Except Report String :=
  match view with
  | tokens => do pure (endLines ((← l.readTokens source).map fun token => token.toShape.compact))
  | outline => do pure ((← l.readTree rule source).outline l.grammar)
  | shape => do pure (endLines [(← l.readShape rule source).pretty])

/-- The text, ended by a new line. -/
def endLine (s : String) : String := if s.toList.getLast? = some '\n' then s else s ++ "\n"

/-- A source printed anew as a rule, or the report of why it cannot be. -/
def Language.reprint (l : Language) (rule source : String) : Except Report String := do
  pure (endLine (l.print (← l.readTree rule source)))

end ReversibleGrammar
