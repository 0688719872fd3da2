/-
Flat groups and the width of lines.

When a group turns out flat, it was measured with what follows it, up to the next place where a line
may end.  That place may lie in a later group, which turns out flat as well and leaves no end there;
but then this group was measured in its turn.  So what is known at each step is that the rest of the
line fits up to the next place where it may end, and each step keeps that until the line does end.

* `Worklist.Fits`, `Fits.onLine` — what is known while a line is written;
* `onLine_flat` — a flat document is written on one line;
* `flat_group_within_width` — the line of a flat group ends within the width.
-/
import ReversibleGrammar.Proofs.Printing.Flatness
import ReversibleGrammar.Proofs.Printing.Lines
import ReversibleGrammar.Proofs.Printing.Worklist

namespace ReversibleGrammar

/-! ### Steps on a line -/

namespace Worklist

variable {config : PrintConfig} {w w' : Worklist}

/-- The line that is being written ends: the next step starts another, or there is none. -/
def LineEnds (config : PrintConfig) (w : Worklist) : Prop :=
  w.entries = [] ∨
    ∃ e rest level, w.entries = e :: rest ∧ e.move config w.page.column rest = .startLine level

/-- A step that does not start a line. -/
def Stays (config : PrintConfig) (w w' : Worklist) : Prop := Step config w w' ∧ ¬ w.LineEnds config

/-- Steps lead from the one to the other, and no line starts between them. -/
def OnLine (config : PrintConfig) : Worklist → Worklist → Prop :=
  Relation.ReflTransGen (Stays config)

theorem OnLine.trans {w'' : Worklist} (h : OnLine config w w') (h' : OnLine config w' w'') :
    OnLine config w w'' :=
  Relation.ReflTransGen.trans h h'

theorem OnLine.runs (h : OnLine config w w') : Runs config w w' :=
  Relation.ReflTransGen.mono (fun _ _ hstays => hstays.1) w w' h

/-- A line ends, at the latest where the run does. -/
theorem exists_lineEnds (h : Runs config w w') (hw' : w'.entries = []) :
    ∃ w'', OnLine config w w'' ∧ Runs config w'' w' ∧ w''.LineEnds config := by
  induction h using Relation.ReflTransGen.head_induction_on with
  | refl => exact ⟨w', .refl, .refl, .inl hw'⟩
  | @head w between hstep hrest ih =>
    by_cases hends : w.LineEnds config
    · exact ⟨w, .refl, .head hstep hrest, hends⟩
    · obtain ⟨w'', honLine, hruns, hends'⟩ := ih
      exact ⟨w'', .head ⟨hstep, hends⟩ honLine, hruns, hends'⟩

/-- A move that starts no line is a step on the line. -/
theorem onLine_move {page : Page} {e : Entry} {rest : List Entry}
    (h : ∀ level, e.move config page.column rest ≠ .startLine level) :
    OnLine config ⟨page, e :: rest⟩ ((e.move config page.column rest).apply config page rest) := by
  refine .single ⟨rfl, ?_⟩
  rintro (hnil | ⟨e', rest', level, hentries, hmove⟩)
  · cases hnil
  · cases hentries
    exact h level hmove

mutual

/-- Without hard lines, a flat document is written on one line. -/
theorem onLine_flat (config : PrintConfig) : ∀ (doc : Doc) (level : Nat) (rest : List Entry)
    (page : Page), .hard ∉ doc.lines →
      OnLine config ⟨page, ⟨level, .flat, doc⟩ :: rest⟩ ⟨page.write doc.flat, rest⟩
  | .text s, _, _, _, _ => onLine_move nofun
  | .line kind, level, rest, page, hlines => by
    cases kind with
    | default => exact onLine_move nofun
    | soft =>
      rw [Doc.flat, LineKind.flat, page.write_empty]
      exact onLine_move nofun
    | hard => exact absurd List.mem_cons_self hlines
  | .indent content, level, rest, page, hlines => by
    have henter : OnLine config ⟨page, ⟨level, .flat, .indent content⟩ :: rest⟩
        ⟨page, ⟨level + 1, .flat, content⟩ :: rest⟩ := onLine_move nofun
    exact henter.trans (onLine_flat config content (level + 1) rest page hlines)
  | .group content, level, rest, page, hlines => by
    have hcontent : .hard ∉ content.lines := hlines
    have hmode (room : Nat) : groupMode .flat content (following rest) room = .flat := by
      rw [groupMode, Doc.hasHardLine_eq_false.2 hcontent]
      rfl
    have henter : OnLine config ⟨page, ⟨level, .flat, .group content⟩ :: rest⟩
        ⟨page, ⟨level, groupMode .flat content (following rest) (config.maxWidth - page.column),
          content⟩ :: rest⟩ := onLine_move nofun
    rw [hmode] at henter
    exact henter.trans (onLine_flat config content level rest page hcontent)
  | .concat parts, level, rest, page, hlines => by
    have henter : OnLine config ⟨page, ⟨level, .flat, .concat parts⟩ :: rest⟩
        ⟨page, parts.map (Entry.mk level .flat) ++ rest⟩ := onLine_move nofun
    exact henter.trans (onLine_flatAll config parts level rest page hlines)

theorem onLine_flatAll (config : PrintConfig) : ∀ (docs : List Doc) (level : Nat)
    (rest : List Entry) (page : Page), .hard ∉ Doc.linesAll docs →
      OnLine config ⟨page, docs.map (Entry.mk level .flat) ++ rest⟩
        ⟨page.write (Doc.flatAll docs), rest⟩
  | [], _, _, page, _ => by
    rw [Doc.flatAll, page.write_empty]
    exact .refl
  | doc :: docs, level, rest, page, hlines => by
    rw [Doc.linesAll, List.mem_append, not_or] at hlines
    rw [Doc.flatAll, ← Page.write_append]
    exact (onLine_flat config doc level _ page hlines.1).trans
      (onLine_flatAll config docs level rest _ hlines.2)

end

/-! ### Columns -/

/-- No text of the entries holds a new line, and the column is that of the line. -/
structure Plain (config : PrintConfig) (w : Worklist) : Prop where
  texts : ∀ e ∈ w.entries, ∀ s ∈ e.doc.texts, '\n' ∉ s.toList
  counted : w.page.Counted config

/-- What an entry without new lines becomes is written without new lines. -/
theorem plain_move {page : Page} {e : Entry} {rest : List Entry}
    (h : Plain config ⟨page, e :: rest⟩) :
    ((e.move config page.column rest).apply config page rest).Plain config := by
  obtain ⟨htexts, hcounted⟩ := h
  obtain ⟨he, hrest⟩ := List.forall_mem_cons.1 htexts
  obtain ⟨level, mode, doc⟩ := e
  have hstart : Plain config ⟨page.startLine config level, rest⟩ :=
    ⟨hrest, page.counted_startLine config level⟩
  cases doc with
  | text s => exact ⟨hrest, hcounted.write (he s List.mem_cons_self)⟩
  | line kind =>
    cases mode with
    | broken => cases kind <;> exact hstart
    | flat =>
      cases kind with
      | default => exact ⟨hrest, hcounted.write (by decide)⟩
      | soft => exact ⟨hrest, hcounted⟩
      | hard => exact hstart
  | indent content => exact ⟨List.forall_mem_cons.2 ⟨he, hrest⟩, hcounted⟩
  | group content => exact ⟨List.forall_mem_cons.2 ⟨he, hrest⟩, hcounted⟩
  | concat parts =>
    refine ⟨List.forall_mem_append.2 ⟨fun e hmem s hs => ?_, hrest⟩, hcounted⟩
    obtain ⟨part, hpart, rfl⟩ := List.mem_map.1 hmem
    refine he s ?_
    rw [Doc.texts, Doc.textsAll_eq_map]
    exact List.mem_flatten.2 ⟨part.texts, List.mem_map_of_mem hpart, hs⟩

theorem Plain.runs (h : w.Plain config) (hruns : Runs config w w') : w'.Plain config := by
  induction hruns with
  | refl => exact h
  | @tail between next _ hstep ih =>
    obtain ⟨page, entries⟩ := between
    obtain ⟨e, rest, rfl, rfl⟩ := step_iff.1 hstep
    exact plain_move ih

/-! ### Ended lines -/

/-- A step takes nothing back from before a new line. -/
theorem suffix_step {cs : List Char} (h : '\n' :: cs <:+ w.page.out.reversed)
    (hstep : Step config w w') : '\n' :: cs <:+ w'.page.out.reversed := by
  obtain ⟨e, rest, -, rfl⟩ := step_iff.1 hstep
  cases e.move config w.page.column rest with
  | write s =>
    have hadds : (w.page.write s).out.reversed = s.toList.reverse ++ w.page.out.reversed :=
      w.page.out.adds_emit s
    rw [Move.apply, hadds]
    exact h.trans (List.suffix_append _ _)
  | startLine level =>
    obtain ⟨after, hafter⟩ := h
    -- the blanks that are taken back end at the new line
    have hdrop : '\n' :: cs <:+ (after ++ '\n' :: cs).dropWhile isLineBlank := by
      rw [List.dropWhile_append]
      split
      · exact List.suffix_rfl
      · exact List.suffix_append _ _
    rw [Move.apply, Page.reversed_startLine, Output.newLine, ← hafter]
    exact (hdrop.trans (List.suffix_cons _ _)).trans (List.suffix_append _ _)
  | enter entries => exact h

theorem suffix_runs {cs : List Char} (h : '\n' :: cs <:+ w.page.out.reversed)
    (hruns : Runs config w w') : '\n' :: cs <:+ w'.page.out.reversed := by
  induction hruns with
  | refl => exact h
  | tail _ hstep ih => exact suffix_step ih hstep

/-- A line that ends is a line of the text in the end. -/
theorem shows_of_lineEnds {page : Page} (hends : w.LineEnds config)
    (hruns : Runs config w ⟨page, []⟩) : w.page.Shows page.out.toText.toList := by
  obtain ⟨started, entries⟩ := w
  rcases hends with rfl | ⟨e, rest, level, rfl, hmove⟩
  · cases eq_of_runs_nil hruns
    exact page.shows_toText
  · -- the next step ends the line
    have hstep : Step config ⟨started, e :: rest⟩ ⟨started.startLine config level, rest⟩ := by
      rw [step_iff]
      exact ⟨e, rest, rfl, by rw [hmove, Move.apply]⟩
    rcases hruns.cases_head with heq | ⟨next, hnext, hrest⟩
    · cases heq
    · obtain rfl := step_rightUnique config hnext hstep
      refine Page.shows_of_suffix (suffix_runs ?_ hrest)
      rw [Page.reversed_startLine]
      exact List.suffix_append _ _

/-! ### Room -/

/-- The line is within the width, and what follows stays within it up to the next place where the
line may end. -/
structure Fits (config : PrintConfig) (w : Worklist) : Prop where
  column : w.page.column ≤ config.maxWidth
  rest : restFits (following w.entries) (config.maxWidth - w.page.column) = true

/-- What fits after a text, fits with it. -/
theorem fits_write {page : Page} {s : String} {rest : List Entry}
    (hcolumn : page.column ≤ config.maxWidth)
    (hrest : (match Measure.take s.length (config.maxWidth - page.column) with
      | .overflows => false
      | .ends => true
      | .leaves room => restFits (following rest) room) = true) :
    Fits config ⟨page.write s, rest⟩ := by
  rw [Measure.take] at hrest
  split_ifs at hrest with hroom
  · have hwidth : page.column + s.length ≤ config.maxWidth := by omega
    refine ⟨hwidth, ?_⟩
    show restFits (following rest) (config.maxWidth - (page.column + s.length)) = true
    rwa [← Nat.sub_sub]

/-- A group fits in its mode, if it fits where a line of it may end. -/
theorem restFits_group {mode : Mode} {content : Doc} {rest : List Pending} {room : Nat}
    (h : restFits (⟨mode, [.group content]⟩ :: rest) room = true) :
    restFits (⟨groupMode mode content rest room, [content]⟩ :: rest) room = true := by
  rw [restFits_single, Doc.measure, ← restFits_single] at h
  rw [groupMode.eq_def]
  by_cases hhard : content.hasHardLine = true
  · rw [if_pos hhard] at h ⊢
    exact h
  · rw [if_neg hhard] at h ⊢
    cases mode with
    | flat => exact h
    | broken =>
      dsimp only
      split_ifs with hfits
      · -- it was measured flat, with what follows
        exact hfits
      · exact h

/-- A move that starts no line keeps the rest of the line within the width. -/
theorem fits_move {page : Page} {e : Entry} {rest : List Entry} (h : Fits config ⟨page, e :: rest⟩)
    (hmove : ∀ level, e.move config page.column rest ≠ .startLine level) :
    ((e.move config page.column rest).apply config page rest).Fits config := by
  obtain ⟨hcolumn, hrest⟩ := h
  obtain ⟨level, mode, doc⟩ := e
  have hsingle : restFits (⟨mode, [doc]⟩ :: following rest) (config.maxWidth - page.column) = true :=
    hrest
  cases doc with
  | text s =>
    rw [restFits_single, Doc.measure] at hsingle
    exact fits_write hcolumn hsingle
  | line kind =>
    cases mode with
    | broken => exact absurd (by cases kind <;> rfl) (hmove level)
    | flat =>
      cases kind with
      | default =>
        rw [restFits_single, Doc.measure] at hsingle
        exact fits_write hcolumn hsingle
      | soft => exact ⟨hcolumn, hsingle⟩
      | hard => exact absurd rfl (hmove level)
  | indent content => exact ⟨hcolumn, hsingle⟩
  | group content => exact ⟨hcolumn, restFits_group hsingle⟩
  | concat parts =>
    have hrefl : Alike (following rest) (following rest) := fun _ => rfl
    have halike := alike_parts level mode parts hrefl
    refine ⟨hcolumn, ?_⟩
    rw [restFits_concat, halike] at hsingle
    exact hsingle

theorem Fits.onLine (h : w.Fits config) (hline : OnLine config w w') : w'.Fits config := by
  induction hline with
  | refl => exact h
  | @tail between next _ hstays ih =>
    obtain ⟨page, entries⟩ := between
    obtain ⟨hstep, hends⟩ := hstays
    obtain ⟨e, rest, rfl, rfl⟩ := step_iff.1 hstep
    exact fits_move ih fun level hmove => hends (.inr ⟨e, rest, level, rfl, hmove⟩)

/-- In broken surroundings a flat group holds no hard line, and was measured with what follows. -/
theorem of_groupMode_flat {content : Doc} {rest : List Pending} {room : Nat}
    (h : groupMode .broken content rest room = .flat) :
    .hard ∉ content.lines ∧ restFits (⟨.flat, [content]⟩ :: rest) room = true := by
  rw [groupMode] at h
  split_ifs at h with hhard hfits
  exact ⟨fun hmem => hhard ((Doc.hasHardLine_iff content).2 hmem), hfits⟩

end Worklist

open Worklist

/-- If a group turns out flat in broken surroundings, at a column within the width, then it is
written on one line, and where this line ends, its column is within the width: the column is that of
the indentation and the characters of the line, and the line is a line of the layout, there without
blanks at its end. -/
theorem flat_group_within_width {config : PrintConfig} {doc content : Doc} {level : Nat}
    {page : Page} {rest : List Entry} (htexts : ∀ s ∈ doc.texts, '\n' ∉ s.toList)
    (hruns : Runs config (start doc) ⟨page, ⟨level, .broken, .group content⟩ :: rest⟩)
    (hcolumn : page.column ≤ config.maxWidth)
    (hflat : groupMode .broken content (following rest) (config.maxWidth - page.column) = .flat) :
    ∃ w : Worklist,
      OnLine config ⟨page, ⟨level, .broken, .group content⟩ :: rest⟩
        ⟨page.write content.flat, rest⟩ ∧
      OnLine config ⟨page.write content.flat, rest⟩ w ∧ w.LineEnds config ∧
      w.page.Counted config ∧ w.page.Shows (render doc config).toList ∧
      w.page.column ≤ config.maxWidth := by
  obtain ⟨hlines, hfits⟩ := of_groupMode_flat hflat
  -- the group becomes its content, flat, which is written
  have henter : OnLine config ⟨page, ⟨level, .broken, .group content⟩ :: rest⟩
      ⟨page, ⟨level, groupMode .broken content (following rest) (config.maxWidth - page.column),
        content⟩ :: rest⟩ := onLine_move nofun
  rw [hflat] at henter
  have hwritten := onLine_flat config content level rest page hlines
  -- the line goes on from there to its end
  obtain ⟨last, hfinish, htext⟩ := (hruns.trans (henter.trans hwritten).runs).exists_finish
  obtain ⟨w, honLine, hrest, hends⟩ := exists_lineEnds hfinish rfl
  have hmeasured : Fits config ⟨page, ⟨level, .flat, content⟩ :: rest⟩ := ⟨hcolumn, hfits⟩
  have hplain : Plain config (start doc) :=
    ⟨List.forall_mem_singleton.2 htexts, Page.counted_empty config⟩
  have hline := henter.trans (hwritten.trans honLine)
  refine ⟨w, henter.trans hwritten, honLine, hends, ?_, ?_, ?_⟩
  · exact (hplain.runs (hruns.trans hline.runs)).counted
  · rw [← htext]
    exact shows_of_lineEnds hends hrest
  · exact (hmeasured.onLine (hwritten.trans honLine)).column

/-- The second group is flat as well, on the same line, which it ends in the last column. -/
theorem flat_group_within_width_next :
    let content : Doc := .concat [.text "a", .line .default, .text "b"]
    let next : Doc := .group (.concat [.line .soft, .text "c"])
    let doc : Doc := .concat [.group content, next, .line .hard, .text "d"]
    let rest : List Entry := [⟨0, .broken, next⟩, ⟨0, .broken, .line .hard⟩, ⟨0, .broken, .text "d"⟩]
    let config : PrintConfig := { maxWidth := 4 }
    (∀ s ∈ doc.texts, '\n' ∉ s.toList) ∧
      Runs config (start doc) ⟨.empty, ⟨0, .broken, .group content⟩ :: rest⟩ ∧
      groupMode .broken content (following rest) 4 = .flat ∧ render doc config = "a bc\nd" ∧
      ∃ w : Worklist, OnLine config ⟨.empty, ⟨0, .broken, .group content⟩ :: rest⟩ w ∧
        w.LineEnds config ∧ w.page.Shows "a bc\nd".toList ∧ w.page.column ≤ 4 := by
  intro content next doc rest config
  have htexts : ∀ s ∈ doc.texts, '\n' ∉ s.toList := by decide
  have hruns : Runs config (start doc) ⟨.empty, ⟨0, .broken, .group content⟩ :: rest⟩ := .single rfl
  have hflat : groupMode .broken content (following rest) 4 = .flat := by decide
  have hrender : render doc config = "a bc\nd" := by decide
  obtain ⟨w, hwritten, honLine, hends, -, hshows, hcolumn⟩ :=
    flat_group_within_width htexts hruns (Nat.zero_le 4) hflat
  rw [hrender] at hshows
  exact ⟨htexts, hruns, hflat, hrender, w, hwritten.trans honLine, hends, hshows, hcolumn⟩

end ReversibleGrammar
