/-
Printing loses no token.

A layout adds spaces, tabs and new lines, and drops spaces and tabs at the ends of lines; nothing
else is added or dropped.  Without texts in the grammar, what is left are the texts of the leaves,
and these are the tokens, also where patterns share labels.

* `visible` — a text without spaces, tabs and new lines;
* `visible_render` — what is visible of a layout is what is visible of the texts of its document;
* `texts_toDoc` — without texts in the grammar, the texts of a tree are those of its leaves;
* `visible_print` — what is visible of a printed parse is what is visible of its tokens.
-/
import ReversibleGrammar.Lexer.Token
import ReversibleGrammar.Proofs.Printing.Layout
import ReversibleGrammar.Proofs.Recognizer.Leaves
import ReversibleGrammar.Tree.Document

namespace ReversibleGrammar

/-- The characters other than spaces, tabs and new lines. -/
def visible (cs : List Char) : List Char := cs.filter fun c => !(isLineBlank c || c == '\n')

@[simp] theorem visible_append (cs ds : List Char) : visible (cs ++ ds) = visible cs ++ visible ds :=
  List.filter_append ..

theorem visible_eq_nil {cs : List Char} (h : ∀ c ∈ cs, isLineBlank c = true) : visible cs = [] :=
  List.filter_eq_nil_iff.2 fun c hc => by simp [h c hc]

/-! ### Layouts -/

namespace Output

/-- What is visible of an output. -/
def seen (out : Output) : List Char := visible out.reversed.reverse

variable {out out' : Output}

theorem Adds.seen_eq {w : List Char} (h : out.Adds w out') : out'.seen = out.seen ++ visible w := by
  rw [seen, show out'.reversed = w.reverse ++ out.reversed from h]
  simp [seen]

theorem seen_emit (out : Output) (s : String) :
    (out.emit s).seen = out.seen ++ visible s.toList :=
  (out.adds_emit s).seen_eq

/-- A new line drops blanks only. -/
theorem seen_newLine (out : Output) : out.newLine.seen = out.seen := by
  have htaken : visible (out.reversed.takeWhile isLineBlank).reverse = [] :=
    visible_eq_nil fun c hc => List.mem_takeWhile_imp (List.mem_reverse.1 hc)
  have hsplit := List.takeWhile_append_dropWhile (p := isLineBlank) (l := out.reversed)
  conv_rhs => rw [seen, ← hsplit, List.reverse_append, visible_append, htaken, List.append_nil]
  simp [seen, newLine, visible]

theorem seen_emitIndent (config : PrintConfig) (out : Output) (level : Nat) :
    (out.emitIndent level config.indentUnit).seen = out.seen := by
  obtain ⟨w, hw, hblank⟩ := out.adds_emitIndent config level
  rw [hw.seen_eq, visible_eq_nil hblank, List.append_nil]

end Output

namespace Doc

mutual

/-- Whatever lines break, a document adds the visible characters of its texts. -/
theorem seen_of_writes (config : PrintConfig) : ∀ (doc : Doc) {out out' : Output},
    doc.Writes config out out' →
      out'.seen = out.seen ++ visible (doc.texts.map String.toList).flatten
  | .text s, out, _, h => by
    obtain rfl : _ = out.emit s := h
    rw [Output.seen_emit, texts, List.map_singleton, List.flatten_singleton]
  | .line kind, out, out', h => by
    rw [texts, List.map_nil, List.flatten_nil, visible, List.filter_nil, List.append_nil]
    obtain ⟨-, rfl⟩ | ⟨-, rfl⟩ | ⟨level, rfl⟩ := h
    · rw [Output.seen_emit, visible_eq_nil (by simp [isLineBlank]), List.append_nil]
    · rfl
    · rw [Output.seen_emitIndent, Output.seen_newLine]
  | .indent content, _, _, h => seen_of_writes config content h
  | .group content, _, _, h => seen_of_writes config content h
  | .concat parts, _, _, h => seen_of_writesAll config parts h

theorem seen_of_writesAll (config : PrintConfig) : ∀ (docs : List Doc) {out out' : Output},
    WritesAll config docs out out' →
      out'.seen = out.seen ++ visible ((textsAll docs).map String.toList).flatten
  | [], out, _, h => by
    obtain rfl : _ = out := h
    simp [textsAll, visible]
  | doc :: docs, out, out', ⟨between, hdoc, hdocs⟩ => by
    rw [seen_of_writesAll config docs hdocs, seen_of_writes config doc hdoc, textsAll,
      List.map_append, List.flatten_append, visible_append, List.append_assoc]

end

/-- What is visible of a layout is what is visible of the texts of its document. -/
theorem visible_render (doc : Doc) (config : PrintConfig) :
    visible (render doc config).toList = visible (doc.texts.map String.toList).flatten := by
  obtain ⟨out, hwrites, hrender⟩ := doc.render_writes config
  have hseen := seen_of_writes config doc hwrites
  rw [hrender, Output.toText, String.toList_ofList]
  exact hseen

end Doc

/-! ### Trees -/

/-- The decoration writes a text. -/
def Decoration.isText : Decoration → Bool
  | literal _ => true
  | line _ => false

/-- Printing a node of this kind writes a text of the grammar. -/
def PatternKind.writesText : PatternKind → Bool
  | literal _ => true
  | conditional _ _ before after => before.any Decoration.isText || after.any Decoration.isText
  | _ => false

theorem Decoration.texts_toDoc {decoration : Option Decoration}
    (h : decoration.any isText = false) : (toDoc decoration).texts = [] := by
  cases decoration with
  | none => rfl
  | some decoration =>
    cases decoration with
    | literal text => simp [isText] at h
    | line kind => rfl

theorem map_interleave {α β : Type} (f : α → β) (xs ys : List α) :
    (interleave xs ys).map f = interleave (xs.map f) (ys.map f) := by
  induction xs generalizing ys with
  | nil => rfl
  | cons x xs ih => cases ys <;> simp [interleave, ih]

namespace Tree

variable {ν : Type}

theorem toDocs_eq_map [TokenText ν] (ts : List (Tree ν)) : toDocs ts = ts.map toDoc := by
  induction ts with
  | nil => rfl
  | cons t ts ih => rw [toDocs, ih, List.map_cons]

/-- Without decorations that are texts, a wrapper adds none. -/
theorem texts_wrapDoc {p : Pattern} (hp : p.kind.writesText = false) (child : Tree ν)
    (inner : Doc) : (wrapDoc p child inner).texts = inner.texts := by
  unfold wrapDoc
  split
  · rfl
  · rfl
  · rename_i reference before after hkind
    rw [hkind, PatternKind.writesText, Bool.or_eq_false_iff] at hp
    split
    · rw [Doc.texts_join]
      simp [Doc.textsAll, Decoration.texts_toDoc hp.1, Decoration.texts_toDoc hp.2]
    · rfl
  · rfl

/-- Without texts in the grammar, the texts of a tree are those of its leaves. -/
theorem texts_toDoc [TokenText ν] {t : Tree ν} (h : t.All fun p => p.kind.writesText = false) :
    t.toDoc.texts = t.values.map TokenText.text := by
  induction h with
  | @node t root _ ih =>
  have heach {ts : List (Tree ν)} (hts : ∀ u ∈ ts, u ∈ t.children) :
      (toDocs ts).map Doc.texts = (valuesEach ts).map (List.map TokenText.text) := by
    rw [toDocs_eq_map, valuesEach_eq_map, List.map_map, List.map_map]
    exact List.map_congr_left fun u hu => ih u (hts u hu)
  cases t with
  | leaf p v => rfl
  | sequence p ts =>
    have heach : (toDocs ts).map Doc.texts = _ := heach fun u hu => hu
    rw [toDoc, values, Doc.texts_join, Doc.textsAll_eq_map, heach, List.map_flatten]
  | choice p index u => exact ih u List.mem_cons_self
  | many p items separators =>
    rw [toDoc, values, Doc.texts_join, Doc.textsAll_eq_map, map_interleave,
      heach fun u hu => List.mem_append_left _ hu, heach fun u hu => List.mem_append_right _ hu,
      ← map_interleave, List.map_flatten]
  | absent p => rfl
  | present p u => exact ih u List.mem_cons_self
  | wrapped p u =>
    have root : p.kind.writesText = false := root
    rw [toDoc, texts_wrapDoc root, values, ih u List.mem_cons_self]
  | mark p =>
    have root : p.kind.writesText = false := root
    rw [toDoc, values]
    split
    · rename_i text hkind
      simp [hkind, PatternKind.writesText] at root
    · rfl
    · rfl

/-- Without texts in the grammar, what is visible of a printed tree is what is visible of its
leaves. -/
theorem visible_print_eq [TokenText ν] {t : Tree ν} (h : t.All fun p => p.kind.writesText = false)
    (config : PrintConfig) : visible (t.print config).toList =
      visible (t.values.map fun v => (TokenText.text v).toList).flatten := by
  rw [print, Doc.visible_render, Doc.texts, texts_toDoc h, List.map_map]
  rfl

end Tree

variable {τ ν : Type} [Token τ ν] [TokenText ν]

/-- Over a grammar without texts, the printed tree of a parse shows the tokens in their order and
nothing else, whatever the width. -/
theorem visible_print {g : Grammar} (hg : g.Built)
    (htexts : ∀ p ∈ g.patterns, p.kind.writesText = false) {id : PatternId} (hid : id < g.size)
    {config : ParserConfig} {tokens : Array τ} {t : Tree ν}
    (h : parseOne g config id tokens = .ok t) (layout : PrintConfig) :
    t.values = tokens.toList.map Token.value ∧
      visible (t.print layout).toList = visible
        (String.join (tokens.toList.map fun token => TokenText.text (Token.value token))).toList := by
  obtain ⟨hvalues, hall⟩ := values_of_parseOne hg.closed hid h
  refine ⟨hvalues, ?_⟩
  rw [Tree.visible_print_eq (hall.mono htexts), hvalues, List.map_map, String.toList_join,
    List.flatMap_map, List.flatMap_def]
  rfl

/-- The words of a list with a line between them, in a group; or without lines, with an end.  Both
lists are known under one label. -/
def Grammar.lists : Grammar where
  patterns := #[{ id := 0, kind := .consume "word" }, { id := 1, kind := .line .default },
    { id := 2, kind := .many 0 (some 1), label := some 0 },
    { id := 3, kind := .many 0 none, label := some 0 }, { id := 4, kind := .consume "end" },
    { id := 5, kind := .sequence [3, 4] }, { id := 6, kind := .group 2 },
    { id := 7, kind := .choice [5, 6] .ordered none }]
  rules := #[]
  labels := #["words"]

theorem Grammar.built_lists : lists.Built :=
  ⟨[.consume "word", .line .default, .manySeparated 0 1, .labeled 2 "words", .many 0,
    .labeled 3 "words", .consume "end", .sequence [3, 4], .group 2, .choice [5, 6]], by cbv⟩

/-- The list of two words without an end is read along the other list, and keeps its words. -/
theorem visible_print_lists :
    let tokens : Array LexToken := #[.valued "word" "up to", .valued "word" "it"]
    ∃ t, parseOne Grammar.lists ⟨3, 100⟩ 7 tokens = .ok t ∧
      ∀ layout, t.values = tokens.toList ∧ visible (t.print layout).toList = "uptoit".toList := by
  intro tokens
  have hparses : (parseOne Grammar.lists ⟨3, 100⟩ 7 tokens).toOption.isSome = true := by
    decide +kernel
  cases ht : parseOne Grammar.lists ⟨3, 100⟩ 7 tokens with
  | error e => simp [ht, Except.toOption] at hparses
  | ok t =>
    refine ⟨t, rfl, fun layout => ?_⟩
    obtain ⟨hvalues, hvisible⟩ := visible_print Grammar.built_lists (by decide) (by decide) ht layout
    exact ⟨hvalues, hvisible.trans (by decide)⟩

end ReversibleGrammar
