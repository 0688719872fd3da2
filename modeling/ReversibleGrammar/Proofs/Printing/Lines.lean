/-
Lines of texts and of outputs.

The lines of a text are those that its new lines separate.  The line that a page ends in grows with
what is written, until a new line ends it and takes its blanks back; and the column of the page counts
its indentation and its characters.

* `getElem?_splitOn_count`, `getElem?_splitOn_newLine` — which line of a text is its last one, and
  which one a new line ends;
* `Output.line` — the line that is being written;
* `Page.Counted` — the column of a page is that of its line;
* `Page.Shows`, `shows_of_suffix` — the line is found in the text in the end.
-/
import Mathlib.Data.List.TakeWhile
import ReversibleGrammar.Proofs.Printing.Layout

namespace ReversibleGrammar

/-! ### Lines of a text -/

theorem length_splitOn (cs : List Char) : (cs.splitOn '\n').length = cs.count '\n' + 1 := by
  induction cs with
  | nil => rfl
  | cons c cs ih =>
    rw [List.splitOn, List.splitOnP_cons_eq_if_modifyHead]
    by_cases hc : c = '\n'
    · subst hc
      rw [if_pos (beq_self_eq_true _), List.length_cons, List.count_cons_self]
      exact congrArg (· + 1) ih
    · rw [if_neg (by simpa using hc), List.length_modifyHead, List.count_cons_of_ne hc]
      exact ih

/-- The last line of a text. -/
def lastLine (cs : List Char) : List Char := (cs.reverse.takeWhile (· != '\n')).reverse

/-- What is written on the last line goes on with it. -/
theorem lastLine_append (cs : List Char) {w : List Char} (hw : '\n' ∉ w) :
    lastLine (cs ++ w) = lastLine cs ++ w := by
  have hall : ∀ c ∈ w.reverse, (c != '\n') = true := by
    intro c hc
    rw [bne_iff_ne]
    rintro rfl
    exact hw (List.mem_reverse.1 hc)
  rw [lastLine, List.reverse_append, List.takeWhile_append_of_pos hall, List.reverse_append,
    List.reverse_reverse]
  rfl

theorem lastLine_of_not_mem {cs : List Char} (h : '\n' ∉ cs) : lastLine cs = cs :=
  lastLine_append [] h

theorem lastLine_newLine (cs : List Char) {w : List Char} (hw : '\n' ∉ w) :
    lastLine (cs ++ '\n' :: w) = w := by
  have hbreak : lastLine (cs ++ ['\n']) = [] := by simp [lastLine]
  rw [← List.singleton_append, ← List.append_assoc, lastLine_append _ hw, hbreak, List.nil_append]

/-- The last line of a text has the number of the new lines before it. -/
theorem getElem?_splitOn_count (cs : List Char) :
    (cs.splitOn '\n')[cs.count '\n']? = some (lastLine cs) := by
  by_cases hmem : '\n' ∈ cs.reverse
  · -- after the last new line
    obtain ⟨after, before, hreverse, hafter⟩ := List.eq_append_cons_of_mem hmem
    have hafter : '\n' ∉ after.reverse := fun h => hafter (List.mem_reverse.1 h)
    obtain rfl : cs = before.reverse ++ '\n' :: after.reverse := by
      rw [← List.reverse_reverse cs, hreverse]
      simp
    have hcount : List.count '\n' after.reverse = 0 := List.count_eq_zero.2 hafter
    have hsplit : (before.reverse ++ '\n' :: after.reverse).splitOn '\n' =
        before.reverse.splitOn '\n' ++ [after.reverse] := by
      rw [← List.splitOn_eq_singleton hafter]
      exact List.splitOnP_append_cons _ _ (beq_self_eq_true _)
    rw [hsplit, lastLine_newLine _ hafter, List.count_append, List.count_cons_self, hcount,
      Nat.zero_add, ← length_splitOn, List.getElem?_append_right (Nat.le_refl _), Nat.sub_self]
    rfl
  · have hmem : '\n' ∉ cs := fun h => hmem (List.mem_reverse.2 h)
    rw [List.splitOn_eq_singleton hmem, List.count_eq_zero.2 hmem, lastLine_of_not_mem hmem]
    rfl

/-- A line that a new line ends has the number of the new lines before it. -/
theorem getElem?_splitOn_newLine (cs after : List Char) :
    ((cs ++ '\n' :: after).splitOn '\n')[cs.count '\n']? = some (lastLine cs) := by
  have hsplit : (cs ++ '\n' :: after).splitOn '\n' = cs.splitOn '\n' ++ after.splitOn '\n' :=
    List.splitOnP_append_cons _ _ (beq_self_eq_true _)
  rw [hsplit, List.getElem?_append_left, getElem?_splitOn_count]
  rw [length_splitOn]
  omega

/-! ### The line that is being written -/

namespace Output

/-- The line that is being written. -/
def line (out : Output) : List Char := lastLine out.reversed.reverse

/-- How many lines have ended. -/
def lineNumber (out : Output) : Nat := out.reversed.reverse.count '\n'

variable {out out' : Output} {w : List Char}

theorem Adds.reverse_eq (h : out.Adds w out') :
    out'.reversed.reverse = out.reversed.reverse ++ w := by
  rw [show out'.reversed = w.reverse ++ out.reversed from h, List.reverse_append,
    List.reverse_reverse]

theorem Adds.line_eq (h : out.Adds w out') (hw : '\n' ∉ w) : out'.line = out.line ++ w := by
  rw [line, h.reverse_eq, lastLine_append _ hw]
  rfl

theorem Adds.lineNumber_eq (h : out.Adds w out') (hw : '\n' ∉ w) :
    out'.lineNumber = out.lineNumber := by
  rw [lineNumber, h.reverse_eq, List.count_append, List.count_eq_zero.2 hw]
  rfl

theorem line_newLine (out : Output) : out.newLine.line = [] := by
  rw [line, newLine, List.reverse_cons, lastLine_newLine _ List.not_mem_nil]

end Output

/-- The text of an indentation. -/
def PrintConfig.indentation (config : PrintConfig) (level : Nat) : List Char :=
  (List.replicate level config.indentUnit.toList).flatten

theorem Output.adds_indentation (config : PrintConfig) (out : Output) (level : Nat) :
    out.Adds (config.indentation level) (out.emitIndent level config.indentUnit) := by
  induction level generalizing out with
  | zero => exact out.adds_nil
  | succ level ih => exact (out.adds_emit config.indentUnit).append (ih (out.emit config.indentUnit))

theorem PrintConfig.not_mem_indentation (config : PrintConfig) (level : Nat) :
    '\n' ∉ config.indentation level := by
  obtain ⟨w, hadds, hblank⟩ := Output.adds_emitIndent config .empty level
  have hreverse : w.reverse ++ [] = (config.indentation level).reverse ++ [] :=
    hadds.symm.trans (Output.adds_indentation config .empty level)
  rw [List.append_cancel_right_eq, List.reverse_inj] at hreverse
  intro hmem
  have hnot := hblank '\n' (hreverse ▸ hmem)
  simp [isLineBlank] at hnot

namespace Page

variable {config : PrintConfig} {page : Page}

/-- The column of the page is that of the line that is being written: the columns of its indentation,
and one for each character after it. -/
def Counted (config : PrintConfig) (page : Page) : Prop :=
  ∃ level written, page.out.line = config.indentation level ++ written ∧
    page.column = level * config.indentWidth + written.length

/-- The line that is being written is a line of the text, there without blanks at its end. -/
def Shows (page : Page) (text : List Char) : Prop :=
  ∃ shown blanks, page.out.line = shown ++ blanks ∧ (∀ c ∈ blanks, isLineBlank c = true) ∧
    (text.splitOn '\n')[page.out.lineNumber]? = some shown

theorem counted_empty (config : PrintConfig) : empty.Counted config := ⟨0, [], rfl, by simp [empty]⟩

theorem Counted.write (h : page.Counted config) {s : String} (hs : '\n' ∉ s.toList) :
    (page.write s).Counted config := by
  obtain ⟨level, written, hline, hcolumn⟩ := h
  refine ⟨level, written ++ s.toList, ?_, ?_⟩
  · rw [Page.write, (page.out.adds_emit s).line_eq hs, hline, List.append_assoc]
  · rw [List.length_append, ← Nat.add_assoc, ← hcolumn]
    rfl

/-- A line is ended, and the next one is indented. -/
theorem reversed_startLine (page : Page) (config : PrintConfig) (level : Nat) :
    (page.startLine config level).out.reversed =
      (config.indentation level).reverse ++ page.out.newLine.reversed :=
  page.out.newLine.adds_indentation config level

theorem counted_startLine (config : PrintConfig) (level : Nat) (page : Page) :
    (page.startLine config level).Counted config := by
  refine ⟨level, [], ?_, rfl⟩
  have hadds := page.out.newLine.adds_indentation config level
  rw [startLine, hadds.line_eq (config.not_mem_indentation level), page.out.line_newLine,
    List.nil_append, List.append_nil]

/-- At the end of the text, its last line is shown. -/
theorem shows_toText (page : Page) : page.Shows page.out.toText.toList := by
  refine ⟨page.out.line, [], (List.append_nil _).symm, List.forall_mem_nil _, ?_⟩
  rw [Output.toText, String.toList_ofList]
  exact getElem?_splitOn_count _

/-- A line that ends is shown without its blanks, whatever is written after it. -/
theorem shows_of_suffix {out : Output} (h : page.out.newLine.reversed <:+ out.reversed) :
    page.Shows out.toText.toList := by
  obtain ⟨after, hafter⟩ := h
  have hsplit := List.takeWhile_append_dropWhile (p := isLineBlank) (l := page.out.reversed)
  generalize hblanks : page.out.reversed.takeWhile isLineBlank = blanks at hsplit
  generalize hkept : page.out.reversed.dropWhile isLineBlank = kept at hsplit
  have hblank : ∀ c ∈ blanks.reverse, isLineBlank c = true := by
    intro c hc
    rw [← hblanks, List.mem_reverse] at hc
    exact List.mem_takeWhile_imp hc
  have hnew : '\n' ∉ blanks.reverse := by
    intro hmem
    have hnot := hblank '\n' hmem
    simp [isLineBlank] at hnot
  have htext : page.out.reversed.reverse = kept.reverse ++ blanks.reverse := by
    rw [← hsplit, List.reverse_append]
  have hout : out.reversed.reverse = kept.reverse ++ '\n' :: after.reverse := by
    rw [← hafter, Output.newLine, hkept]
    simp
  refine ⟨lastLine kept.reverse, blanks.reverse, ?_, hblank, ?_⟩
  · rw [Output.line, htext, lastLine_append _ hnew]
  · rw [Output.lineNumber, htext, List.count_append, List.count_eq_zero.2 hnew, Nat.add_zero,
      Output.toText, String.toList_ofList, hout]
    exact getElem?_splitOn_newLine _ _

end Page

end ReversibleGrammar
