/-
When a group is flat.

A flat document is one line: its texts, with a space for each line that is one there.  It takes
as much room as it has characters, so that a group with nothing after it is flat exactly if it
holds no hard line and has as many characters as a line at most.

* `Doc.lines`, `hasHardLine_iff` — the lines of a document, at any depth;
* `Doc.flat` — a document on one line;
* `measure_flat`, `layOut_flat` — without hard lines, a flat document takes its characters, and
  writes them;
* `render_group` — the layout of a group with nothing around it.
-/
import ReversibleGrammar.Doc.Render

namespace ReversibleGrammar

/-- What a line is in flat surroundings. -/
def LineKind.flat : LineKind → String
  | default => " "
  | soft | hard => ""

namespace Doc

mutual

/-- The lines of a document, in order. -/
def lines : Doc → List LineKind
  | text _ => []
  | line kind => [kind]
  | indent content => content.lines
  | group content => content.lines
  | concat parts => linesAll parts

/-- The lines of several documents, in order. -/
def linesAll : List Doc → List LineKind
  | [] => []
  | doc :: docs => doc.lines ++ linesAll docs

end

mutual

/-- The texts of a document on one line, with a space for each line that is one there. -/
def flat : Doc → String
  | text s => s
  | line kind => kind.flat
  | indent content => content.flat
  | group content => content.flat
  | concat parts => flatAll parts

/-- Several documents on one line. -/
def flatAll : List Doc → String
  | [] => ""
  | doc :: docs => doc.flat ++ flatAll docs

end

mutual

/-- Hard lines are found at any depth. -/
theorem hasHardLine_iff : ∀ doc : Doc, doc.hasHardLine = true ↔ .hard ∈ doc.lines
  | text _ => by simp [hasHardLine, lines]
  | line kind => by cases kind <;> simp [hasHardLine, lines]
  | indent content => hasHardLine_iff content
  | group content => hasHardLine_iff content
  | concat parts => anyHardLine_iff parts

theorem anyHardLine_iff : ∀ docs : List Doc, anyHardLine docs = true ↔ .hard ∈ linesAll docs
  | [] => by simp [anyHardLine, linesAll]
  | doc :: docs => by
    rw [anyHardLine, linesAll, Bool.or_eq_true, List.mem_append, hasHardLine_iff doc,
      anyHardLine_iff docs]

end

theorem hasHardLine_eq_false {doc : Doc} : doc.hasHardLine = false ↔ .hard ∉ doc.lines := by
  rw [← hasHardLine_iff, Bool.not_eq_true]

end Doc

/-! ### Room -/

namespace Measure

/-- What comes after `width` columns. -/
theorem take_bind (width width' room : Nat) :
    (match take width room with
      | leaves room => take width' room
      | stop => stop) = take (width + width') room := by
  by_cases hwidth : width ≤ room
  · by_cases hboth : width + width' ≤ room
    · have hrest : width' ≤ room - width := by omega
      simp [take, hwidth, hboth, hrest, Nat.sub_sub]
    · have hrest : ¬ width' ≤ room - width := by omega
      simp [take, hwidth, hboth, hrest]
  · have hboth : ¬ width + width' ≤ room := by omega
    simp [take, hwidth, hboth]

@[simp] theorem take_zero (room : Nat) : take 0 room = leaves room := by
  rw [take, if_pos (Nat.zero_le room), Nat.sub_zero]

end Measure

namespace Doc

mutual

/-- Without hard lines, a flat document takes as many columns as it has characters. -/
theorem measure_flat : ∀ (doc : Doc) (room : Nat), .hard ∉ doc.lines →
    doc.measure .flat room = .take doc.flat.length room
  | text s, room, _ => rfl
  | line kind, room, hlines => by
    cases kind with
    | default => rfl
    | soft => exact (Measure.take_zero room).symm
    | hard => exact absurd List.mem_cons_self hlines
  | indent content, room, hlines => measure_flat content room hlines
  | group content, room, hlines => by
    have hcontent : .hard ∉ content.lines := hlines
    rw [measure, hasHardLine_eq_false.2 hcontent]
    exact measure_flat content room hcontent
  | concat parts, room, hlines => measureAll_flat parts room hlines

theorem measureAll_flat : ∀ (docs : List Doc) (room : Nat), .hard ∉ linesAll docs →
    measureAll .flat docs room = .take (flatAll docs).length room
  | [], room, _ => (Measure.take_zero room).symm
  | doc :: docs, room, hlines => by
    rw [linesAll, List.mem_append, not_or] at hlines
    rw [measureAll, measure_flat doc room hlines.1, flatAll, String.length_append,
      ← Measure.take_bind]
    cases Measure.take doc.flat.length room with
    | leaves room => exact measureAll_flat docs room hlines.2
    | overflows => rfl
    | ends => rfl

end

end Doc

/-- A flat document without hard lines fits, with nothing after it, if its characters do. -/
theorem fits_flat {doc : Doc} (hlines : .hard ∉ doc.lines) (room : Nat) :
    fits .flat doc [] room = decide (doc.flat.length ≤ room) := by
  rw [fits, restFits, Doc.measureAll, Doc.measure_flat doc room hlines, Measure.take]
  by_cases hroom : doc.flat.length ≤ room
  · simp [hroom, Doc.measureAll, restFits]
  · simp [hroom]

/-! ### Layouts -/

namespace Page

@[simp] theorem write_empty (page : Page) : page.write "" = page := by
  simp [write, Output.emit]

theorem write_append (page : Page) (s t : String) : (page.write s).write t = page.write (s ++ t) := by
  simp [write, Output.emit, Nat.add_assoc, List.reverseAux_eq]

end Page

namespace Doc

section

variable {config : PrintConfig}

mutual

/-- Without hard lines, a flat document is written on one line. -/
theorem layOut_flat : ∀ (doc : Doc) (level : Nat) (rest : List Pending) (page : Page),
    .hard ∉ doc.lines → doc.layOut config level .flat rest page = page.write doc.flat
  | text s, _, _, _, _ => rfl
  | line kind, _, _, page, hlines => by
    cases kind with
    | default => rfl
    | soft => exact page.write_empty.symm
    | hard => exact absurd List.mem_cons_self hlines
  | indent content, level, rest, page, hlines => layOut_flat content (level + 1) rest page hlines
  | group content, level, rest, page, hlines => by
    have hcontent : .hard ∉ content.lines := hlines
    rw [layOut, groupMode, hasHardLine_eq_false.2 hcontent]
    exact layOut_flat content level rest page hcontent
  | concat parts, level, rest, page, hlines => layOutAll_flat parts level rest page hlines

theorem layOutAll_flat : ∀ (docs : List Doc) (level : Nat) (rest : List Pending) (page : Page),
    .hard ∉ linesAll docs →
      layOutAll config level .flat rest docs page = page.write (flatAll docs)
  | [], _, _, page, _ => page.write_empty.symm
  | doc :: docs, level, rest, page, hlines => by
    rw [linesAll, List.mem_append, not_or] at hlines
    rw [layOutAll, layOut_flat doc level _ page hlines.1, layOutAll_flat docs level _ _ hlines.2,
      Page.write_append, flatAll]

end

end

end Doc

/-- In broken surroundings with nothing after it, a group is flat exactly if it holds no hard line
and its characters fit. -/
theorem groupMode_broken (doc : Doc) (room : Nat) :
    groupMode .broken doc [] room =
      if .hard ∉ doc.lines ∧ doc.flat.length ≤ room then .flat else .broken := by
  rw [groupMode]
  by_cases hlines : .hard ∈ doc.lines
  · rw [if_pos ((Doc.hasHardLine_iff doc).2 hlines), if_neg fun h => h.1 hlines]
  · have hnone : ¬ doc.hasHardLine = true := fun h => hlines ((Doc.hasHardLine_iff doc).1 h)
    rw [if_neg hnone]
    show (if fits .flat doc [] room then Mode.flat else .broken) = _
    rw [fits_flat hlines]
    by_cases hroom : doc.flat.length ≤ room
    · rw [if_pos (decide_eq_true hroom), if_pos ⟨hlines, hroom⟩]
    · rw [if_neg (by rwa [decide_eq_true_iff]), if_neg fun h => hroom h.2]

/-- With nothing around it, a group is one line exactly if it holds no hard line and has no more
characters than a line; otherwise it is laid out as its content. -/
theorem render_group (doc : Doc) (config : PrintConfig) :
    render (.group doc) config =
      if .hard ∉ doc.lines ∧ doc.flat.length ≤ config.maxWidth then doc.flat
      else render doc config := by
  show (doc.layOut config 0 (groupMode .broken doc [] config.maxWidth) [] .empty).out.toText = _
  rw [groupMode_broken]
  by_cases hfits : .hard ∉ doc.lines ∧ doc.flat.length ≤ config.maxWidth
  · rw [if_pos hfits, if_pos hfits, Doc.layOut_flat doc 0 [] _ hfits.1]
    simp [Page.write, Page.empty, Output.empty, Output.emit, Output.toText]
  · rw [if_neg hfits, if_neg hfits]
    rfl

end ReversibleGrammar
