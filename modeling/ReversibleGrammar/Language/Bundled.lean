/-
The languages that come with the library, by name and by the extension of a file.
-/
import ReversibleGrammar.Language.Logic
import ReversibleGrammar.Language.Xml

namespace ReversibleGrammar.Language

/-- Every language, in the order in which they are asked. -/
def bundled : List Language := [xml, logic]

/-- The language with a name. -/
def byName? (name : String) : Option Language := bundled.find? (·.name == name)

/-- The language of files with an extension. -/
def byExtension? (extension : String) : Option Language :=
  bundled.find? (·.extensions.contains extension)

end ReversibleGrammar.Language
