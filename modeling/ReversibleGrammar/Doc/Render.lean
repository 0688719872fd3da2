/-
The layout of documents for a width.

Groups are decided outermost first.  A group met in broken surroundings is
measured flat, with everything that follows it up to the next place where a line
may end; if that fits in the rest of the width the group is flat, otherwise
broken.  A group that holds a hard line is always broken.

* `Doc.measure` — how far a document takes a line, and whether it ends it;
* `fits` — the measure of a document and of what follows it;
* `Doc.layOut` — the layout of a document, given what follows it;
* `render` — the layout of a whole document.
-/
import ReversibleGrammar.Doc.Basic
import ReversibleGrammar.Doc.Config
import ReversibleGrammar.Doc.Output

namespace ReversibleGrammar

/-- Whether the lines of a group break. -/
inductive Mode where
  | flat
  | broken
  deriving DecidableEq, Repr, Inhabited

/-- What a document does to the line it begins on, given the room left on it. -/
inductive Measure where
  /-- It needs more room. -/
  | overflows
  /-- The line ends inside it. -/
  | ends
  /-- It stays on the line and leaves this much room. -/
  | leaves (room : Nat)
  deriving DecidableEq, Repr

/-- Takes `width` columns of the room. -/
def Measure.take (width room : Nat) : Measure :=
  if width ≤ room then .leaves (room - width) else .overflows

mutual

/-- Measures a document; a group with a hard line is broken, any other has the mode around it. -/
def Doc.measure (mode : Mode) : Doc → Nat → Measure
  | .text s, room => .take s.length room
  | .line kind, room =>
    match mode, kind with
    | .broken, _ => .ends
    | .flat, .hard => .ends
    | .flat, .default => .take 1 room
    | .flat, .soft => .leaves room
  | .indent content, room => content.measure mode room
  | .group content, room =>
    content.measure (if content.hasHardLine then .broken else mode) room
  | .concat parts, room => Doc.measureAll mode parts room

/-- Measures documents one after the other. -/
def Doc.measureAll (mode : Mode) : List Doc → Nat → Measure
  | [], room => .leaves room
  | doc :: docs, room =>
    match doc.measure mode room with
    | .leaves room => Doc.measureAll mode docs room
    | stop => stop

end

/-- Documents still to be laid out, in a mode. -/
structure Pending where
  mode : Mode
  docs : List Doc

/-- What follows stays within the room up to the next place where a line ends. -/
def restFits : List Pending → Nat → Bool
  | [], _ => true
  | next :: rest, room =>
    match Doc.measureAll next.mode next.docs room with
    | .overflows => false
    | .ends => true
    | .leaves room => restFits rest room

/-- The document in a mode, with what follows it, stays within the room up to the next place
where a line ends. -/
def fits (mode : Mode) (doc : Doc) (rest : List Pending) (room : Nat) : Bool :=
  restFits (⟨mode, [doc]⟩ :: rest) room

/-- What is written so far, and the column it ends in. -/
structure Page where
  out : Output
  column : Nat
  deriving Repr

namespace Page

/-- An empty page. -/
def empty : Page := ⟨.empty, 0⟩

/-- Writes a text. -/
def write (page : Page) (s : String) : Page := ⟨page.out.emit s, page.column + s.length⟩

/-- Starts a line at an indentation level. -/
def startLine (config : PrintConfig) (level : Nat) (page : Page) : Page :=
  ⟨page.out.newLine.emitIndent level config.indentUnit, level * config.indentWidth⟩

end Page

/-- The mode of a group with this content, met in `mode` before `rest` with this much room. -/
def groupMode (mode : Mode) (content : Doc) (rest : List Pending) (room : Nat) : Mode :=
  if content.hasHardLine then .broken
  else
    match mode with
    | .flat => .flat
    | .broken => if fits .flat content rest room then .flat else .broken

mutual

/-- Lays a document out; `rest` is what follows it. -/
def Doc.layOut (config : PrintConfig) (level : Nat) (mode : Mode) (rest : List Pending) :
    Doc → Page → Page
  | .text s, page => page.write s
  | .line kind, page =>
    match mode, kind with
    | .flat, .default => page.write " "
    | .flat, .soft => page
    | _, _ => page.startLine config level
  | .indent content, page => content.layOut config (level + 1) mode rest page
  | .group content, page =>
    content.layOut config level (groupMode mode content rest (config.maxWidth - page.column))
      rest page
  | .concat parts, page => Doc.layOutAll config level mode rest parts page

/-- Lays documents out one after the other. -/
def Doc.layOutAll (config : PrintConfig) (level : Nat) (mode : Mode) (rest : List Pending) :
    List Doc → Page → Page
  | [], page => page
  | doc :: docs, page =>
    Doc.layOutAll config level mode rest docs
      (doc.layOut config level mode (⟨mode, docs⟩ :: rest) page)

end

/-- The document as text. -/
def render (doc : Doc) (config : PrintConfig) : String :=
  (doc.layOut config 0 .broken [] .empty).out.toText

end ReversibleGrammar
