/-
White space in layouts.

A layout differs from the texts of its document in white space only, and no line that it ends
has blanks at its end.  A new line takes the blanks before it back, and what is written later
never takes back the new line itself: so an output where no blank stands before a new line stays
one, whatever is written next.

* `Output.Trimmed` — no blank stands before a new line;
* `trimmed_of_writes` — what a document may write, if its texts hold no new line;
* `getLast?_of_mem_splitOn` — the lines of such a text end in no blank;
* `render_white_space` — what a layout adds to the texts, and how its lines end.
-/
import ReversibleGrammar.Proofs.Printing.Visible

namespace ReversibleGrammar

/-! ### Outputs -/

namespace Output

/-- No blank stands before a new line. -/
def Trimmed (out : Output) : Prop :=
  out.reversed.IsChain fun c before => c = '\n' → isLineBlank before = false

variable {out out' : Output}

theorem trimmed_empty : empty.Trimmed := .nil

/-- A text without a new line may follow anything. -/
theorem Trimmed.adds (h : out.Trimmed) {w : List Char} (hw : '\n' ∉ w) (hadds : out.Adds w out') :
    out'.Trimmed := by
  rw [Trimmed, show out'.reversed = w.reverse ++ out.reversed from hadds, List.isChain_append]
  have hw : ∀ c ∈ w.reverse, c ≠ '\n' := by
    rintro c hc rfl
    exact hw (List.mem_reverse.1 hc)
  refine ⟨?_, h, fun c hc _ _ hnew => absurd hnew (hw c (List.mem_of_mem_getLast? hc))⟩
  exact (List.pairwise_of_forall_mem_list fun c hc _ _ hnew => absurd hnew (hw c hc)).isChain

/-- A new line stands before no blank, as it takes back those at the end. -/
theorem Trimmed.newLine (h : out.Trimmed) : out.newLine.Trimmed := by
  refine List.isChain_cons.2 ⟨fun c hc _ => ?_, h.suffix (List.dropWhile_suffix _)⟩
  have hlast := out.newLine_last c
  exact hlast hc

theorem Trimmed.emitIndent (h : out.Trimmed) (config : PrintConfig) (level : Nat) :
    (out.emitIndent level config.indentUnit).Trimmed := by
  obtain ⟨w, hadds, hblank⟩ := out.adds_emitIndent config level
  refine h.adds (fun hmem => ?_) hadds
  have hnot := hblank _ hmem
  simp [isLineBlank] at hnot

end Output

/-! ### Documents -/

namespace Doc

mutual

/-- A document without new lines in its texts leaves no blank before a new line. -/
theorem trimmed_of_writes (config : PrintConfig) : ∀ (doc : Doc) {out out' : Output},
    doc.Writes config out out' → (∀ s ∈ doc.texts, '\n' ∉ s.toList) → out.Trimmed → out'.Trimmed
  | .text s, out, out', hwrites, htexts, h =>
    h.adds (htexts s List.mem_cons_self) (adds_of_writes_text hwrites)
  | .line kind, out, out', hwrites, htexts, h => by
    obtain ⟨-, rfl⟩ | ⟨-, rfl⟩ | ⟨level, rfl⟩ := hwrites
    · exact h.adds (by decide) (out.adds_emit " ")
    · exact h
    · exact h.newLine.emitIndent config level
  | .indent content, _, _, hwrites, htexts, h => trimmed_of_writes config content hwrites htexts h
  | .group content, _, _, hwrites, htexts, h => trimmed_of_writes config content hwrites htexts h
  | .concat parts, _, _, hwrites, htexts, h => trimmed_of_writesAll config parts hwrites htexts h

theorem trimmed_of_writesAll (config : PrintConfig) : ∀ (docs : List Doc) {out out' : Output},
    WritesAll config docs out out' → (∀ s ∈ textsAll docs, '\n' ∉ s.toList) → out.Trimmed →
      out'.Trimmed
  | [], out, out', hwrites, _, h => by
    obtain rfl : out' = out := hwrites
    exact h
  | doc :: docs, out, out', ⟨between, hdoc, hdocs⟩, htexts, h => by
    rw [textsAll, List.forall_mem_append] at htexts
    exact trimmed_of_writesAll config docs hdocs htexts.2
      (trimmed_of_writes config doc hdoc htexts.1 h)

end

end Doc

/-! ### Lines -/

/-- If no blank stands before a new line, the lines that end in one end in no blank. -/
theorem getLast?_of_mem_splitOn {cs : List Char}
    (h : cs.IsChain fun before c => c = '\n' → isLineBlank before = false) :
    ∀ line ∈ (cs.splitOn '\n').dropLast, ∀ c ∈ line.getLast?, isLineBlank c = false := by
  generalize hlength : cs.length = n
  induction n using Nat.strong_induction_on generalizing cs with
  | _ n ih =>
  by_cases hmem : '\n' ∈ cs
  · -- the first line, and the lines after it
    obtain ⟨first, rest, rfl, hfirst⟩ := List.eq_append_cons_of_mem hmem
    have hsplit : (first ++ '\n' :: rest).splitOn '\n' = first :: rest.splitOn '\n' := by
      refine List.splitOnP_append_cons_of_forall_mem (fun c hc => ?_) '\n' (by decide) rest
      rw [beq_eq_false_iff_ne]
      rintro rfl
      exact hfirst hc
    obtain ⟨-, hrest, hends⟩ := List.isChain_append.1 h
    rw [hsplit, List.dropLast_cons_of_ne_nil (List.splitOn_ne_nil _ _), List.forall_mem_cons]
    refine ⟨fun c hc => hends c hc '\n' rfl rfl, ?_⟩
    refine ih rest.length ?_ (List.isChain_of_isChain_cons hrest) rfl
    rw [← hlength, List.length_append, List.length_cons]
    omega
  · rw [List.splitOn_eq_singleton hmem]
    exact List.forall_mem_nil _

/-- A layout shows the characters of the texts in order, and adds or drops white space only, so that
all settings show the same; and if the texts hold no new line, no line but the last ends in a
blank. -/
theorem render_white_space (doc : Doc) (config : PrintConfig) :
    visible (render doc config).toList = visible (String.join doc.texts).toList ∧
      (∀ other, visible (render doc other).toList = visible (render doc config).toList) ∧
      ((∀ s ∈ doc.texts, '\n' ∉ s.toList) →
        ∀ line ∈ ((render doc config).toList.splitOn '\n').dropLast,
          ∀ c ∈ line.getLast?, isLineBlank c = false) := by
  have hvisible (config : PrintConfig) :
      visible (render doc config).toList = visible (String.join doc.texts).toList := by
    rw [Doc.visible_render, String.toList_join, List.flatMap_def]
  refine ⟨hvisible config, fun other => (hvisible other).trans (hvisible config).symm, ?_⟩
  intro htexts
  obtain ⟨out, hwrites, hrender⟩ := doc.render_writes config
  have htrimmed := Doc.trimmed_of_writes config doc hwrites htexts Output.trimmed_empty
  rw [hrender, Output.toText, String.toList_ofList]
  exact getLast?_of_mem_splitOn (List.isChain_reverse.2 htrimmed)

/-- The blanks at the end of a text and an indentation with nothing after it are dropped. -/
theorem render_white_space_dropped :
    let doc : Doc := .concat [.text "a \t", .indent (.concat [.line .hard, .line .hard, .text "b"])]
    let config : PrintConfig := { useTabs := true }
    render doc config = "a\n\n\tb" ∧ (∀ s ∈ doc.texts, '\n' ∉ s.toList) ∧
      visible (render doc config).toList = "ab".toList ∧
        ∀ line ∈ ((render doc config).toList.splitOn '\n').dropLast,
          ∀ c ∈ line.getLast?, isLineBlank c = false := by
  intro doc config
  have htexts : ∀ s ∈ doc.texts, '\n' ∉ s.toList := by decide
  obtain ⟨hvisible, -, hlines⟩ := render_white_space doc config
  exact ⟨by decide, htexts, hvisible.trans (by decide), hlines htexts⟩

end ReversibleGrammar
