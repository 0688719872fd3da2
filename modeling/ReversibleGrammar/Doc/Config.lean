/-
Print settings: the width of a line and what one level of indentation is.
-/

namespace ReversibleGrammar

/-- Settings of a layout. -/
structure PrintConfig where
  /-- The width beyond which groups break. -/
  maxWidth : Nat := 80
  /-- Columns per level of indentation, with tabs as well. -/
  indentWidth : Nat := 2
  /-- Indents with one tab per level. -/
  useTabs : Bool := false
  deriving DecidableEq, Repr, Inhabited

/-- The text of one level of indentation. -/
def PrintConfig.indentUnit (config : PrintConfig) : String :=
  if config.useTabs then "\t" else String.ofList (List.replicate config.indentWidth ' ')

end ReversibleGrammar
