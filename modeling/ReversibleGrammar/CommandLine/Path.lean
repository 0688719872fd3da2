/-
Paths of files.

* `Path.extension?` — what follows the last point of a file's name;
* `Path.follow` — where a path leads, one component after the other.
-/

namespace ReversibleGrammar.Path

/-- The directory itself. -/
def here : String := "."

/-- The directory above. -/
def above : String := ".."

/-- The root of all directories. -/
def root : String := "/"

/-- The pieces between slashes, after the characters `piece` of the current one, last first. -/
def piecesFrom (piece : List Char) : List Char → List String
  | [] => [String.ofList piece.reverse]
  | c :: cs =>
    if c = '/' then String.ofList piece.reverse :: piecesFrom [] cs
    else piecesFrom (c :: piece) cs

/-- The pieces of a path between slashes. -/
def pieces (path : String) : List String := piecesFrom [] path.toList

/-- An empty piece is the directory itself. -/
def component (piece : String) : String := if piece.isEmpty then here else piece

/-- The components of a path; one that begins with a slash begins at the root. -/
def components (path : String) : List String :=
  match pieces path with
  | "" :: rest => root :: rest.map component
  | pieces => pieces.map component

/-- The name of the file that a path ends in. -/
def fileName? (path : String) : Option String :=
  match ((components path).filter (· ≠ here)).getLast? with
  | some name => if name = above ∨ name = root then none else some name
  | none => none

/-- What follows the last point of a name, which does not begin with it. -/
def extensionOf? (name : String) : Option String :=
  let reversed := name.toList.reverse
  let isPoint (c : Char) : Bool := c == '.'
  if (reversed.dropWhile (!isPoint ·)).length ≤ 1 then none
  else some (String.ofList (reversed.takeWhile (!isPoint ·)).reverse)

/-- What follows the last point of the name of the file that a path ends in. -/
def extension? (path : String) : Option String := (fileName? path).bind extensionOf?

/-- Where one component leads from a place, which is given by its components. -/
def follow (place : List String) (component : String) : List String :=
  if component = here then place
  else if component = root then [root]
  else if component = above then
    match place.getLast? with
    | none => [above]
    | some last =>
      if last = root then place else if last = above then place ++ [above] else place.dropLast
  else place ++ [component]

/-- The places that a path passes through, the one it ends at last. -/
def placesFrom (place : List String) : List String → List (List String)
  | [] => [place]
  | component :: rest => place :: placesFrom (follow place component) rest

/-- A place as a path. -/
def ofPlace : List String → String
  | [] => here
  | place =>
    match place with
    | "/" :: rest => root ++ root.intercalate rest
    | place => root.intercalate place

end ReversibleGrammar.Path
