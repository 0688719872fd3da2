/-
Layouts step by step.

A layout can be made without recursion, from a list of what is still to be laid out: the first
entry is written, or what it consists of takes its place.  That list is also what follows a group
when it is measured, so that a state of such a run tells how much room the rest of a line takes.

* `Worklist.next?` — one step;
* `restFits_cons`, `Alike` — how what follows may be grouped;
* `layOut_runs` — the run over a document makes its layout;
* `exists_finish` — every run from a document on comes to its layout.
-/
import Mathlib.Logic.Relation
import ReversibleGrammar.Doc.Render

namespace ReversibleGrammar

/-! ### What follows -/

/-- What follows in one list takes the room that it takes in another. -/
def Alike (rest rest' : List Pending) : Prop := ∀ room, restFits rest room = restFits rest' room

section

variable {mode : Mode} {rest rest' : List Pending}

theorem restFits_single (mode : Mode) (doc : Doc) (rest : List Pending) (room : Nat) :
    restFits (⟨mode, [doc]⟩ :: rest) room =
      match doc.measure mode room with
      | .overflows => false
      | .ends => true
      | .leaves room => restFits rest room := by
  simp only [restFits, Doc.measureAll]
  cases doc.measure mode room <;> rfl

theorem restFits_concat (mode : Mode) (parts : List Doc) (rest : List Pending) (room : Nat) :
    restFits (⟨mode, [.concat parts]⟩ :: rest) room = restFits (⟨mode, parts⟩ :: rest) room := by
  rw [restFits_single, Doc.measure]
  rfl

theorem restFits_nil (mode : Mode) (rest : List Pending) (room : Nat) :
    restFits (⟨mode, []⟩ :: rest) room = restFits rest room := by
  rw [restFits, Doc.measureAll]

/-- Documents follow one after the other. -/
theorem restFits_cons (mode : Mode) (doc : Doc) (docs : List Doc) (rest : List Pending)
    (room : Nat) : restFits (⟨mode, doc :: docs⟩ :: rest) room =
      restFits (⟨mode, [doc]⟩ :: ⟨mode, docs⟩ :: rest) room := by
  simp only [restFits, Doc.measureAll]
  cases doc.measure mode room with
  | leaves room => rfl
  | overflows => rfl
  | ends => rfl

theorem Alike.cons (h : Alike rest rest') (next : Pending) : Alike (next :: rest) (next :: rest') := by
  intro room
  rw [restFits, restFits]
  cases Doc.measureAll next.mode next.docs room with
  | leaves room => exact h room
  | overflows => rfl
  | ends => rfl

theorem Alike.trans {rest'' : List Pending} (h : Alike rest rest') (h' : Alike rest' rest'') :
    Alike rest rest'' :=
  fun room => (h room).trans (h' room)

/-- The mode of a group depends on the room that what follows it takes. -/
theorem Alike.groupMode_eq (h : Alike rest rest') (mode : Mode) (content : Doc) (room : Nat) :
    groupMode mode content rest room = groupMode mode content rest' room := by
  have hfits : fits .flat content rest room = fits .flat content rest' room :=
    h.cons ⟨.flat, [content]⟩ room
  rw [groupMode.eq_def, groupMode.eq_def, hfits]

end

/-! ### Worklists -/

/-- A document to be laid out, with its level of indentation and its mode. -/
structure Worklist.Entry where
  level : Nat
  mode : Mode
  doc : Doc

/-- A layout as far as it has come: what is written, and what is still to be laid out. -/
structure Worklist where
  page : Page
  entries : List Worklist.Entry

namespace Worklist

/-- The entry, where it follows a group. -/
def Entry.pending (e : Entry) : Pending := ⟨e.mode, [e.doc]⟩

/-- What the entries are for a group before them. -/
def following (entries : List Entry) : List Pending := entries.map Entry.pending

/-- What a step does with an entry. -/
inductive Move where
  /-- It writes a text. -/
  | write (s : String)
  /-- It ends the line and starts one at an indentation level. -/
  | startLine (level : Nat)
  /-- It puts entries in its place. -/
  | enter (entries : List Entry)

/-- What a step does with an entry before `rest`, in this column. -/
def Entry.move (config : PrintConfig) (column : Nat) (rest : List Entry) (e : Entry) : Move :=
  match e.doc with
  | .text s => .write s
  | .line kind =>
    match e.mode, kind with
    | .flat, .default => .write " "
    | .flat, .soft => .enter []
    | _, _ => .startLine e.level
  | .indent content => .enter [⟨e.level + 1, e.mode, content⟩]
  | .group content =>
    .enter [⟨e.level, groupMode e.mode content (following rest) (config.maxWidth - column), content⟩]
  | .concat parts => .enter (parts.map (Entry.mk e.level e.mode))

/-- What a move on the first entry makes of the page and what follows. -/
def Move.apply (config : PrintConfig) (page : Page) (rest : List Entry) : Move → Worklist
  | .write s => ⟨page.write s, rest⟩
  | .startLine level => ⟨page.startLine config level, rest⟩
  | .enter entries => ⟨page, entries ++ rest⟩

/-- One step. -/
def next? (config : PrintConfig) (w : Worklist) : Option Worklist :=
  match w.entries with
  | [] => none
  | e :: rest => some ((e.move config w.page.column rest).apply config w.page rest)

/-- One step leads from the one to the other. -/
def Step (config : PrintConfig) (w w' : Worklist) : Prop := w.next? config = some w'

/-- Steps lead from the one to the other. -/
def Runs (config : PrintConfig) : Worklist → Worklist → Prop := Relation.ReflTransGen (Step config)

/-- A document before its layout. -/
def start (doc : Doc) : Worklist := ⟨.empty, [⟨0, .broken, doc⟩]⟩

variable {config : PrintConfig} {w w' : Worklist}

/-- A step is the move of the first entry. -/
theorem step_iff : Step config w w' ↔ ∃ e rest, w.entries = e :: rest ∧
    w' = (e.move config w.page.column rest).apply config w.page rest := by
  obtain ⟨page, entries⟩ := w
  cases entries with
  | nil => simp [Step, next?]
  | cons e rest =>
    constructor
    · intro h
      exact ⟨e, rest, rfl, (Option.some.inj h).symm⟩
    · rintro ⟨_, _, hentries, rfl⟩
      cases hentries
      rfl

theorem Runs.trans {w'' : Worklist} (h : Runs config w w') (h' : Runs config w' w'') :
    Runs config w w'' :=
  Relation.ReflTransGen.trans h h'

/-- The documents of a concatenation take the room of the concatenation. -/
theorem alike_parts (level : Nat) (mode : Mode) (docs : List Doc) {rest : List Pending}
    {entries : List Entry} (h : Alike rest (following entries)) :
    Alike (⟨mode, docs⟩ :: rest) (following (docs.map (Entry.mk level mode) ++ entries)) := by
  induction docs with
  | nil =>
    intro room
    rw [restFits_nil]
    exact h room
  | cons doc docs ih =>
    have hcons : Alike (⟨mode, doc :: docs⟩ :: rest) (⟨mode, [doc]⟩ :: ⟨mode, docs⟩ :: rest) :=
      restFits_cons mode doc docs rest
    exact hcons.trans (ih.cons ⟨mode, [doc]⟩)

mutual

/-- From a document before what follows it, the run comes to its layout. -/
theorem layOut_runs (config : PrintConfig) : ∀ (doc : Doc) (level : Nat) (mode : Mode)
    {rest : List Pending} {entries : List Entry} (page : Page), Alike rest (following entries) →
      Runs config ⟨page, ⟨level, mode, doc⟩ :: entries⟩
        ⟨doc.layOut config level mode rest page, entries⟩
  | .text _, _, _, _, _, _, _ => .single rfl
  | .line kind, level, mode, _, _, _, _ => by
    refine .single ?_
    cases mode <;> cases kind <;> rfl
  | .indent content, level, mode, _, _, page, h =>
    .head rfl (layOut_runs config content (level + 1) mode page h)
  | .group content, level, mode, rest, entries, page, h => by
    rw [Doc.layOut, h.groupMode_eq]
    exact .head rfl (layOut_runs config content level _ page h)
  | .concat parts, level, mode, _, _, page, h =>
    .head rfl (layOutAll_runs config parts level mode page h)

theorem layOutAll_runs (config : PrintConfig) : ∀ (docs : List Doc) (level : Nat) (mode : Mode)
    {rest : List Pending} {entries : List Entry} (page : Page), Alike rest (following entries) →
      Runs config ⟨page, docs.map (Entry.mk level mode) ++ entries⟩
        ⟨Doc.layOutAll config level mode rest docs page, entries⟩
  | [], _, _, _, _, _, _ => .refl
  | doc :: docs, level, mode, _, _, page, h =>
    (layOut_runs config doc level mode page (alike_parts level mode docs h)).trans
      (layOutAll_runs config docs level mode _ h)

end

theorem step_rightUnique (config : PrintConfig) : Relator.RightUnique (Step config) := by
  intro w a b ha hb
  exact Option.some.inj (ha.symm.trans hb)

/-- A run that nothing is left of goes on to nothing else. -/
theorem eq_of_runs_nil {page : Page} (h : Runs config ⟨page, []⟩ w) : w = ⟨page, []⟩ := by
  rcases h.cases_head with heq | ⟨between, hstep, -⟩
  · exact heq.symm
  · cases hstep

/-- Wherever a run over a document has come, it goes on to the layout of the document. -/
theorem Runs.exists_finish {doc : Doc} (h : Runs config (start doc) w) :
    ∃ page, Runs config w ⟨page, []⟩ ∧ page.out.toText = render doc config := by
  have hlayOut : Runs config (start doc) ⟨doc.layOut config 0 .broken [] .empty, []⟩ :=
    layOut_runs config doc 0 .broken .empty fun _ => rfl
  refine ⟨_, ?_, rfl⟩
  rcases h.total_of_right_unique (step_rightUnique config) hlayOut with hrest | hback
  · exact hrest
  · rw [eq_of_runs_nil hback]
    exact .refl

end Worklist

end ReversibleGrammar
