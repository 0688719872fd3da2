/-
Joined documents.

A concatenation says what its parts say one after the other, so that joining its parts, and those of
all concatenations inside it, changes nothing that can be seen of a document: not how far it takes a
line, not whether it has to break, and not what is written for it.  What follows a document enters
its layout by the room that it takes only, and that is the same however it is grouped.

* `Doc.joined` — the document with every concatenation joined;
* `Doc.Spliced`, `spliced_joined` — then no concatenation is a part of another one, or has one part;
* `layOut_congr` — what follows a document enters its layout by the room that it takes;
* `Doc.Agree` — documents that can stand for others, wherever they are;
* `Agree.append`, `Agree.indent`, `Agree.group`, `agree_join` — so can what is made of them;
* `render_joined` — a joined document has the layout that it had.
-/
import ReversibleGrammar.Proofs.Printing.Worklist

namespace ReversibleGrammar

namespace Doc

mutual

/-- The document with every concatenation, at any depth, joined of its joined parts. -/
def joined : Doc → Doc
  | text s => text s
  | line kind => line kind
  | indent content => indent content.joined
  | group content => group content.joined
  | concat parts => join (joinedAll parts)

/-- The documents, each of them joined. -/
def joinedAll : List Doc → List Doc
  | [] => []
  | doc :: docs => doc.joined :: joinedAll docs

end

/-- Is no concatenation. -/
def isSingle : Doc → Bool
  | concat _ => false
  | text _ | line _ | indent _ | group _ => true

mutual

/-- No concatenation, at any depth, has a concatenation among its parts, or a single part. -/
def Spliced : Doc → Prop
  | text _ | line _ => True
  | indent content => content.Spliced
  | group content => content.Spliced
  | concat parts => parts.length ≠ 1 ∧ SplicedParts parts

/-- So it is in all of these documents, and none is a concatenation itself. -/
def SplicedParts : List Doc → Prop
  | [] => True
  | doc :: docs => doc.isSingle = true ∧ doc.Spliced ∧ SplicedParts docs

end

/-! ### No nested concatenations -/

theorem splicedParts_append {docs docs' : List Doc} (h : SplicedParts docs)
    (h' : SplicedParts docs') : SplicedParts (docs ++ docs') := by
  induction docs with
  | nil => exact h'
  | cons doc docs ih => exact ⟨h.1, h.2.1, ih h.2.2⟩

theorem splicedParts_parts {doc : Doc} (h : doc.Spliced) : SplicedParts doc.parts := by
  cases doc with
  | concat parts => exact h.2
  | text | line | indent | group => exact ⟨rfl, h, trivial⟩

theorem spliced_join {docs : List Doc} (h : ∀ doc ∈ docs, doc.Spliced) : (join docs).Spliced := by
  have hparts : SplicedParts (docs.flatMap parts) := by
    induction docs with
    | nil => trivial
    | cons doc docs ih =>
      obtain ⟨hdoc, hdocs⟩ := List.forall_mem_cons.1 h
      exact splicedParts_append (splicedParts_parts hdoc) (ih hdocs)
  rw [join]
  split
  · next single hsingle =>
    rw [hsingle] at hparts
    exact hparts.2.1
  · next hmany =>
    refine ⟨fun hlength => ?_, hparts⟩
    obtain ⟨single, hsingle⟩ := List.length_eq_one_iff.1 hlength
    exact hmany single hsingle

mutual

theorem spliced_joined : ∀ doc : Doc, doc.joined.Spliced
  | text _ | line _ => trivial
  | indent content => spliced_joined content
  | group content => spliced_joined content
  | concat parts => spliced_join (spliced_joinedAll parts)

theorem spliced_joinedAll : ∀ docs : List Doc, ∀ doc ∈ joinedAll docs, doc.Spliced
  | [] => List.forall_mem_nil _
  | doc :: docs => List.forall_mem_cons.2 ⟨spliced_joined doc, spliced_joinedAll docs⟩

end

/-! ### Documents one after the other -/

theorem anyHardLine_singleton (doc : Doc) : anyHardLine [doc] = doc.hasHardLine := by
  rw [anyHardLine, anyHardLine, Bool.or_false]

theorem anyHardLine_append (docs docs' : List Doc) :
    anyHardLine (docs ++ docs') = (anyHardLine docs || anyHardLine docs') := by
  induction docs with
  | nil => rfl
  | cons doc docs ih => rw [List.cons_append, anyHardLine, anyHardLine, ih, Bool.or_assoc]

theorem measureAll_singleton (mode : Mode) (doc : Doc) (room : Nat) :
    measureAll mode [doc] room = doc.measure mode room := by
  rw [measureAll]
  cases doc.measure mode room <;> rfl

theorem measureAll_append (mode : Mode) (docs docs' : List Doc) (room : Nat) :
    measureAll mode (docs ++ docs') room =
      match measureAll mode docs room with
      | .leaves room => measureAll mode docs' room
      | stop => stop := by
  induction docs generalizing room with
  | nil => rfl
  | cons doc docs ih =>
    rw [List.cons_append, measureAll, measureAll]
    cases doc.measure mode room with
    | leaves room => exact ih room
    | overflows => rfl
    | ends => rfl

end Doc

/-- Documents that take the same room may be exchanged in what follows. -/
theorem alike_of_measureAll_eq {mode : Mode} {docs docs' : List Doc}
    (h : ∀ room, Doc.measureAll mode docs room = Doc.measureAll mode docs' room)
    (rest : List Pending) : Alike (⟨mode, docs⟩ :: rest) (⟨mode, docs'⟩ :: rest) := by
  intro room
  rw [restFits, restFits, h room]

/-- What follows may be split anywhere. -/
theorem alike_append (mode : Mode) (docs docs' : List Doc) (rest : List Pending) :
    Alike (⟨mode, docs ++ docs'⟩ :: rest) (⟨mode, docs⟩ :: ⟨mode, docs'⟩ :: rest) := by
  intro room
  rw [restFits, restFits, Doc.measureAll_append]
  cases Doc.measureAll mode docs room with
  | leaves room => rfl
  | overflows => rfl
  | ends => rfl

namespace Doc

section

variable (config : PrintConfig)

mutual

/-- What follows a document enters its layout by the room that it takes. -/
theorem layOut_congr : ∀ (doc : Doc) (level : Nat) (mode : Mode) {rest rest' : List Pending}
    (page : Page), Alike rest rest' →
      doc.layOut config level mode rest page = doc.layOut config level mode rest' page
  | text _, _, _, _, _, _, _ => rfl
  | line kind, _, mode, _, _, _, _ => by cases mode <;> cases kind <;> rfl
  | indent content, level, mode, _, _, page, h => layOut_congr content (level + 1) mode page h
  | group content, level, mode, _, _, page, h => by
    rw [layOut, layOut, h.groupMode_eq]
    exact layOut_congr content level _ page h
  | concat parts, level, mode, _, _, page, h => layOutAll_congr parts level mode page h

theorem layOutAll_congr : ∀ (docs : List Doc) (level : Nat) (mode : Mode)
    {rest rest' : List Pending} (page : Page), Alike rest rest' →
      layOutAll config level mode rest docs page = layOutAll config level mode rest' docs page
  | [], _, _, _, _, _, _ => rfl
  | doc :: docs, level, mode, _, _, page, h => by
    rw [layOutAll, layOutAll, layOut_congr doc level mode page (h.cons ⟨mode, docs⟩)]
    exact layOutAll_congr docs level mode _ h

end

variable (level : Nat) (mode : Mode) (rest : List Pending)

theorem layOutAll_singleton (doc : Doc) (page : Page) :
    layOutAll config level mode rest [doc] page = doc.layOut config level mode rest page := by
  rw [layOutAll, layOutAll]
  exact layOut_congr config doc level mode page (restFits_nil mode rest)

theorem layOutAll_append (docs docs' : List Doc) (page : Page) :
    layOutAll config level mode rest (docs ++ docs') page =
      layOutAll config level mode rest docs'
        (layOutAll config level mode (⟨mode, docs'⟩ :: rest) docs page) := by
  induction docs generalizing page with
  | nil => rfl
  | cons doc docs ih =>
    rw [List.cons_append, layOutAll, ih, layOutAll,
      layOut_congr config doc level mode page (alike_append mode docs docs' rest)]

end

/-! ### Documents that stand for others -/

/-- The documents can stand for the others, whatever surrounds them: they hold hard lines if the
others do, take the same room, and are laid out to the same page. -/
structure Agree (docs docs' : List Doc) : Prop where
  hardLine : anyHardLine docs = anyHardLine docs'
  room : ∀ mode room, measureAll mode docs room = measureAll mode docs' room
  page : ∀ config level mode rest page, layOutAll config level mode rest docs page =
    layOutAll config level mode rest docs' page

section

variable {docs docs' docs'' : List Doc} {doc doc' : Doc}

theorem Agree.refl (docs : List Doc) : Agree docs docs :=
  ⟨rfl, fun _ _ => rfl, fun _ _ _ _ _ => rfl⟩

theorem Agree.symm (h : Agree docs docs') : Agree docs' docs where
  hardLine := h.hardLine.symm
  room mode room := (h.room mode room).symm
  page config level mode rest page := (h.page config level mode rest page).symm

theorem Agree.trans (h : Agree docs docs') (h' : Agree docs' docs'') : Agree docs docs'' where
  hardLine := h.hardLine.trans h'.hardLine
  room mode room := (h.room mode room).trans (h'.room mode room)
  page config level mode rest page :=
    (h.page config level mode rest page).trans (h'.page config level mode rest page)

/-- One document stands for another. -/
theorem agree_singleton (hhard : doc.hasHardLine = doc'.hasHardLine)
    (hroom : ∀ mode room, doc.measure mode room = doc'.measure mode room)
    (hpage : ∀ config level mode rest page,
      doc.layOut config level mode rest page = doc'.layOut config level mode rest page) :
    Agree [doc] [doc'] where
  hardLine := by rw [anyHardLine_singleton, anyHardLine_singleton, hhard]
  room mode room := by rw [measureAll_singleton, measureAll_singleton, hroom]
  page config level mode rest page := by rw [layOutAll_singleton, layOutAll_singleton, hpage]

theorem Agree.hasHardLine_eq (h : Agree [doc] [doc']) : doc.hasHardLine = doc'.hasHardLine := by
  rw [← anyHardLine_singleton, h.hardLine, anyHardLine_singleton]

theorem Agree.measure_eq (h : Agree [doc] [doc']) (mode : Mode) (room : Nat) :
    doc.measure mode room = doc'.measure mode room := by
  rw [← measureAll_singleton, h.room, measureAll_singleton]

theorem Agree.layOut_eq (h : Agree [doc] [doc']) (config : PrintConfig) (level : Nat) (mode : Mode)
    (rest : List Pending) (page : Page) :
    doc.layOut config level mode rest page = doc'.layOut config level mode rest page := by
  rw [← layOutAll_singleton, h.page, layOutAll_singleton]

/-- A group is flat where the group that it stands for is. -/
theorem Agree.groupMode_eq (h : Agree [doc] [doc']) (mode : Mode) (rest : List Pending)
    (room : Nat) : groupMode mode doc rest room = groupMode mode doc' rest room := by
  have hfits : fits .flat doc rest room = fits .flat doc' rest room :=
    alike_of_measureAll_eq (h.room .flat) rest room
  rw [groupMode.eq_def, groupMode.eq_def, h.hasHardLine_eq, hfits]

theorem Agree.append {docs₂ docs₂' : List Doc} (h : Agree docs docs') (h₂ : Agree docs₂ docs₂') :
    Agree (docs ++ docs₂) (docs' ++ docs₂') where
  hardLine := by rw [anyHardLine_append, anyHardLine_append, h.hardLine, h₂.hardLine]
  room mode room := by
    rw [measureAll_append, measureAll_append, h.room]
    cases measureAll mode docs' room with
    | leaves room => exact h₂.room mode room
    | overflows => rfl
    | ends => rfl
  page config level mode rest page := by
    -- the documents after the first ones take the same room for the groups in those
    have halike := alike_of_measureAll_eq (h₂.room mode) rest
    rw [layOutAll_append, layOutAll_append, h.page, h₂.page,
      layOutAll_congr config docs' level mode page halike]

theorem Agree.indent (h : Agree [doc] [doc']) : Agree [indent doc] [indent doc'] :=
  agree_singleton h.hasHardLine_eq h.measure_eq fun config level mode rest page =>
    h.layOut_eq config (level + 1) mode rest page

theorem Agree.group (h : Agree [doc] [doc']) : Agree [group doc] [group doc'] := by
  refine agree_singleton h.hasHardLine_eq (fun mode room => ?_) fun config level mode rest page => ?_
  · rw [measure, measure, h.hasHardLine_eq, h.measure_eq]
  · rw [layOut, layOut, h.groupMode_eq, h.layOut_eq]

/-- A concatenation stands for its parts. -/
theorem agree_concat (docs : List Doc) : Agree [concat docs] docs where
  hardLine := anyHardLine_singleton _
  room mode room := by rw [measureAll_singleton, measure]
  page config level mode rest page := by rw [layOutAll_singleton, layOut]

theorem agree_flatMap_parts (docs : List Doc) : Agree (docs.flatMap parts) docs := by
  induction docs with
  | nil => exact .refl []
  | cons doc docs ih =>
    have hparts : Agree doc.parts [doc] := by
      cases doc with
      | concat docs => exact (agree_concat docs).symm
      | text | line | indent | group => exact .refl _
    exact hparts.append ih

/-- What is joined stands for the documents that it is joined of. -/
theorem agree_join (docs : List Doc) : Agree [join docs] docs := by
  refine .trans ?_ (agree_flatMap_parts docs)
  rw [join]
  split
  · next single hsingle => rw [hsingle]; exact .refl _
  · exact agree_concat _

mutual

/-- A joined document stands for the document. -/
theorem agree_joined : ∀ doc : Doc, Agree [doc.joined] [doc]
  | text _ | line _ => .refl _
  | indent content => (agree_joined content).indent
  | group content => (agree_joined content).group
  | concat parts =>
    (agree_join _).trans ((agree_joinedAll parts).trans (agree_concat parts).symm)

theorem agree_joinedAll : ∀ docs : List Doc, Agree (joinedAll docs) docs
  | [] => .refl []
  | doc :: docs => (agree_joined doc).append (agree_joinedAll docs)

end

end

end Doc

/-- A document with every concatenation joined, so that none has a concatenation among its parts or a
single part, has the layout that it had. -/
theorem render_joined (doc : Doc) (config : PrintConfig) :
    doc.joined.Spliced ∧ render doc.joined config = render doc config := by
  refine ⟨doc.spliced_joined, ?_⟩
  rw [render, render, (Doc.agree_joined doc).layOut_eq]

example : (Doc.concat [.concat [.text "a"], .group (.concat [.line .soft, .nil])]).joined =
    .concat [.text "a", .group (.line .soft)] := rfl

end ReversibleGrammar
