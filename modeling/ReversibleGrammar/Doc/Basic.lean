/-
Documents: text with places where a line may end.

A document says what is written and where lines may break, and leaves the choice
of breaks to the layout.

* `Doc.concat` — joins documents and keeps concatenations flat;
* `Doc.texts` — what is written whatever the layout, white space of breaks apart;
* `texts_concat` — joining loses no text.
-/

namespace ReversibleGrammar

/-- What a line break becomes. -/
inductive LineKind where
  /-- A space where its group is flat, a new line otherwise. -/
  | default
  /-- Nothing where its group is flat, a new line otherwise. -/
  | soft
  /-- Always a new line. -/
  | hard
  deriving DecidableEq, Repr, Inhabited

/-- Text with places where a line may end. -/
inductive Doc where
  | text (s : String)
  | line (kind : LineKind)
  /-- The content, with the lines that begin inside it one level deeper. -/
  | indent (content : Doc)
  /-- The content, flat if it fits. -/
  | group (content : Doc)
  | concat (parts : List Doc)
  deriving Inhabited, Repr

namespace Doc

/-- The empty document. -/
def nil : Doc := concat []

/-- The parts of a concatenation; any other document is its own only part. -/
def parts : Doc → List Doc
  | concat parts => parts
  | doc => [doc]

/-- Documents one after the other, with nested concatenations opened and a single part alone. -/
def join (docs : List Doc) : Doc :=
  match docs.flatMap parts with
  | [single] => single
  | parts => concat parts

/-- Is a concatenation of nothing. -/
def isNil : Doc → Bool
  | concat [] => true
  | _ => false

mutual

/-- The texts of a document, in order. -/
def texts : Doc → List String
  | text s => [s]
  | line _ => []
  | indent content => content.texts
  | group content => content.texts
  | concat parts => textsAll parts

/-- The texts of several documents, in order. -/
def textsAll : List Doc → List String
  | [] => []
  | doc :: docs => doc.texts ++ textsAll docs

end

mutual

/-- Holds a line that always ends. -/
def hasHardLine : Doc → Bool
  | text _ => false
  | line kind => kind == .hard
  | indent content => content.hasHardLine
  | group content => content.hasHardLine
  | concat parts => anyHardLine parts

/-- One of the documents holds a line that always ends. -/
def anyHardLine : List Doc → Bool
  | [] => false
  | doc :: docs => doc.hasHardLine || anyHardLine docs

end

theorem textsAll_append (as bs : List Doc) : textsAll (as ++ bs) = textsAll as ++ textsAll bs := by
  induction as with
  | nil => rfl
  | cons doc docs ih => simp [textsAll, ih]

theorem textsAll_eq_map (docs : List Doc) : textsAll docs = (docs.map texts).flatten := by
  induction docs with
  | nil => rfl
  | cons doc docs ih => rw [textsAll, ih, List.map_cons, List.flatten_cons]

theorem textsAll_parts (doc : Doc) : textsAll doc.parts = doc.texts := by
  cases doc <;> simp [parts, textsAll, texts]

/-- Joining loses no text. -/
theorem texts_join (docs : List Doc) : (join docs).texts = textsAll docs := by
  have h : textsAll (docs.flatMap parts) = textsAll docs := by
    induction docs with
    | nil => rfl
    | cons doc docs ih => rw [List.flatMap_cons, textsAll_append, textsAll_parts, ih]; rfl
  rw [join, ← h]
  split
  · next single hs => simp [hs, textsAll]
  · rfl

end Doc

end ReversibleGrammar
