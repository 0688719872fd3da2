/-
What a layout writes, wherever it breaks lines.

A layout writes the texts of a document in order.  For a line between them it writes a space,
nothing, or a new line with an indentation; the relation leaves open which.  A new line drops
the blanks before it, so that what was written before stays as it is if it does not end in a
blank.

* `Doc.Writes`, `layOut_writes` — what a document may write, and that a layout does;
* `writes_join` — what is joined is written one after the other;
* `Output.Adds`, `Output.Solid` — what comes after an output, and an output without a blank at
  its end;
* `adds_of_writes_line` — after such an output, a line adds white space.
-/
import ReversibleGrammar.Doc.Render

namespace ReversibleGrammar

/-! ### Outputs -/

namespace Output

/-- The output goes on with a text. -/
def Adds (out : Output) (w : List Char) (out' : Output) : Prop :=
  out'.reversed = w.reverse ++ out.reversed

/-- The output does not end in a blank. -/
def Solid (out : Output) : Prop := ∀ c, out.reversed.head? = some c → isLineBlank c = false

variable {out out' out'' : Output} {w w' : List Char}

theorem adds_nil (out : Output) : out.Adds [] out := rfl

theorem adds_emit (out : Output) (s : String) : out.Adds s.toList (out.emit s) :=
  out.reversed_emit s

theorem Adds.append (h : out.Adds w out') (h' : out'.Adds w' out'') :
    out.Adds (w ++ w') out'' := by
  rw [Adds] at h h' ⊢
  rw [h', h, List.reverse_append, List.append_assoc]

/-- What is written on an empty page. -/
theorem Adds.toText_eq (h : empty.Adds w out) : out.toText = String.ofList w := by
  rw [toText, show out.reversed = w.reverse ++ [] from h, List.append_nil, List.reverse_reverse]

theorem Adds.solid (h : out.Adds w out') {c : Char} (hlast : w.getLast? = some c)
    (hc : isLineBlank c = false) : out'.Solid := by
  intro d hd
  rw [show out'.reversed = w.reverse ++ out.reversed from h, List.head?_append, List.head?_reverse,
    hlast, Option.some_or, Option.some.injEq] at hd
  exact hd ▸ hc

/-- An indentation consists of blanks. -/
theorem adds_emitIndent (config : PrintConfig) (out : Output) (level : Nat) :
    ∃ w, out.Adds w (out.emitIndent level config.indentUnit) ∧
      ∀ c ∈ w, isLineBlank c = true := by
  have hunit : ∀ c ∈ config.indentUnit.toList, isLineBlank c = true := by
    intro c hc
    unfold PrintConfig.indentUnit at hc
    split at hc
    · obtain rfl : c = '\t' := by simpa using hc
      rfl
    · rw [String.toList_ofList] at hc
      obtain rfl := List.eq_of_mem_replicate hc
      rfl
  induction level generalizing out with
  | zero => exact ⟨[], out.adds_nil, List.forall_mem_nil _⟩
  | succ level ih =>
    obtain ⟨w, hw, hblank⟩ := ih (out.emit config.indentUnit)
    exact ⟨_, (out.adds_emit _).append hw, List.forall_mem_append.2 ⟨hunit, hblank⟩⟩

/-- A new line takes back nothing that is not a blank. -/
theorem Solid.adds_newLine (h : out.Solid) : out.Adds ['\n'] out.newLine := by
  have hdrop : out.reversed.dropWhile isLineBlank = out.reversed := by
    cases hreversed : out.reversed with
    | nil => rfl
    | cons c cs =>
      rw [List.dropWhile_cons_of_neg]
      rw [h c (by rw [hreversed, List.head?_cons])]
      exact Bool.false_ne_true
  rw [Adds, newLine, hdrop]
  rfl

end Output

/-! ### Documents -/

mutual

/-- What a document may write after an output, whatever the room. -/
def Doc.Writes (config : PrintConfig) : Doc → Output → Output → Prop
  | .text s, out, out' => out' = out.emit s
  | .line kind, out, out' =>
    (kind = .default ∧ out' = out.emit " ") ∨ (kind = .soft ∧ out' = out) ∨
      ∃ level, out' = out.newLine.emitIndent level config.indentUnit
  | .indent content, out, out' => content.Writes config out out'
  | .group content, out, out' => content.Writes config out out'
  | .concat parts, out, out' => Doc.WritesAll config parts out out'

/-- What documents may write one after the other. -/
def Doc.WritesAll (config : PrintConfig) : List Doc → Output → Output → Prop
  | [], out, out' => out' = out
  | doc :: docs, out, out' =>
    ∃ between, doc.Writes config out between ∧ Doc.WritesAll config docs between out'

end

namespace Doc

variable {config : PrintConfig} {out out' : Output}

mutual

/-- The layout of a document writes what the document may write. -/
theorem layOut_writes (config : PrintConfig) : ∀ (doc : Doc) (level : Nat) (mode : Mode)
    (rest : List Pending) (page : Page),
    doc.Writes config page.out (doc.layOut config level mode rest page).out
  | .text _, _, _, _, _ => rfl
  | .line kind, level, mode, rest, page => by
    rw [Writes]
    cases mode with
    | broken => exact .inr (.inr ⟨level, rfl⟩)
    | flat =>
      cases kind with
      | default => exact .inl ⟨rfl, rfl⟩
      | soft => exact .inr (.inl ⟨rfl, rfl⟩)
      | hard => exact .inr (.inr ⟨level, rfl⟩)
  | .indent content, level, mode, rest, page =>
    layOut_writes config content (level + 1) mode rest page
  | .group content, level, mode, rest, page => layOut_writes config content level _ rest page
  | .concat parts, level, mode, rest, page => layOutAll_writes config parts level mode rest page

theorem layOutAll_writes (config : PrintConfig) : ∀ (docs : List Doc) (level : Nat) (mode : Mode)
    (rest : List Pending) (page : Page),
    WritesAll config docs page.out (layOutAll config level mode rest docs page).out
  | [], _, _, _, _ => rfl
  | doc :: docs, level, mode, rest, page =>
    ⟨_, layOut_writes config doc level mode (⟨mode, docs⟩ :: rest) page,
      layOutAll_writes config docs level mode rest _⟩

end

theorem render_writes (doc : Doc) (config : PrintConfig) :
    ∃ out, doc.Writes config .empty out ∧ render doc config = out.toText :=
  ⟨_, layOut_writes config doc 0 .broken [] .empty, rfl⟩

theorem writesAll_append {as bs : List Doc} : WritesAll config (as ++ bs) out out' ↔
    ∃ between, WritesAll config as out between ∧ WritesAll config bs between out' := by
  induction as generalizing out with
  | nil => simp [WritesAll]
  | cons doc docs ih =>
    simp only [List.cons_append, WritesAll, ih]
    constructor
    · rintro ⟨first, hdoc, second, hdocs, hbs⟩
      exact ⟨second, ⟨first, hdoc, hdocs⟩, hbs⟩
    · rintro ⟨second, ⟨first, hdoc, hdocs⟩, hbs⟩
      exact ⟨first, hdoc, second, hdocs, hbs⟩

theorem writesAll_singleton {doc : Doc} :
    WritesAll config [doc] out out' ↔ doc.Writes config out out' := by
  simp [WritesAll]

theorem writesAll_parts {doc : Doc} :
    WritesAll config doc.parts out out' ↔ doc.Writes config out out' := by
  cases doc with
  | concat parts => rfl
  | text | line | indent | group => exact writesAll_singleton

/-- What is joined is written one after the other. -/
theorem writes_join {docs : List Doc} :
    (join docs).Writes config out out' ↔ WritesAll config docs out out' := by
  have hparts : WritesAll config (docs.flatMap parts) out out' ↔
      WritesAll config docs out out' := by
    induction docs generalizing out with
    | nil => rfl
    | cons doc docs ih =>
      simp only [List.flatMap_cons, writesAll_append, writesAll_parts, WritesAll, ih]
  rw [← hparts, join]
  split
  · rename_i single hsingle
    rw [hsingle, writesAll_singleton]
  · rfl

/-- A text is written as it is. -/
theorem adds_of_writes_text {s : String} (h : (text s).Writes config out out') :
    out.Adds s.toList out' :=
  (show out' = out.emit s from h) ▸ out.adds_emit s

/-- White space that a line may become. -/
def IsBreak (c : Char) : Prop := isLineBlank c = true ∨ c = '\n'

/-- After an output that does not end in a blank, a line adds white space. -/
theorem adds_of_writes_line {kind : LineKind} (hsolid : out.Solid)
    (h : (line kind).Writes config out out') :
    ∃ w, out.Adds w out' ∧ (∀ c ∈ w, IsBreak c) ∧ (w = [] → kind = .soft) := by
  obtain ⟨-, rfl⟩ | ⟨rfl, rfl⟩ | ⟨level, rfl⟩ := h
  · refine ⟨[' '], out.adds_emit " ", ?_, nofun⟩
    simp [IsBreak, isLineBlank]
  · exact ⟨[], out'.adds_nil, List.forall_mem_nil _, fun _ => rfl⟩
  · obtain ⟨w, hw, hblank⟩ := out.newLine.adds_emitIndent config level
    refine ⟨['\n'] ++ w, hsolid.adds_newLine.append hw, ?_, nofun⟩
    exact List.forall_mem_append.2
      ⟨List.forall_mem_singleton.2 (.inr rfl), fun c hc => .inl (hblank c hc)⟩

end Doc

end ReversibleGrammar
