/-
Formatting a document keeps its tokens.

Lines break inside of tags only, after a name or a closing quote.  White space makes no token
there, so that a document makes the same tokens again however its lines break.  Outside of tags
nothing is written but what the tokens hold, and text that does not follow text is read as far as
it goes.

* `LexemeLeaves` — trees of tokens as the lexer makes them;
* `attribute_makes`, `element_makes`, `content_makes` and so on — what is written for a tree
  makes its tokens, one lemma for each construct;
* `tree_makes` — the constructs together, by induction on the tree;
* `xml_reprints` — a document is printed with its tokens, and printed again as it is.
-/
import ReversibleGrammar.Proofs.Grammar.Fitting
import ReversibleGrammar.Proofs.Printing.Layout
import ReversibleGrammar.Proofs.Printing.Reprint
import ReversibleGrammar.Proofs.Recognizer.Soundness
import ReversibleGrammar.Proofs.Xml.Grammar
import ReversibleGrammar.Proofs.Xml.Lexemes
import ReversibleGrammar.Proofs.Xml.Recognition

namespace ReversibleGrammar

namespace Xml

/-! ### Tokens -/

section

variable {token : LexToken}

theorem Lexeme.makes_name (h : Lexeme token) (hkind : token.kind = "name") :
    token.text.toList.head?.any nameChar.holds = true ∧
      (∀ c ∈ token.text.toList, nameChar.holds c = true) ∧
      ∀ rest : List Char, rest.head?.any nameChar.holds = false →
        lexer.Lexes 1 (token.text.toList ++ rest) [token] 1 rest := by
  cases h with
  | @name w hne hchars =>
    have hw : (LexToken.valued "name" (String.ofList w)).text.toList = w := String.toList_ofList
    rw [hw]
    refine ⟨?_, hchars, fun rest hrest => lexes_name hne hchars hrest⟩
    obtain ⟨c, w, rfl⟩ := List.exists_cons_of_ne_nil hne
    exact hchars c List.mem_cons_self
  | sign h =>
    obtain rfl := hkind
    simp [signs] at h
  | _ => simp [LexToken.valued] at hkind

theorem Lexeme.makes_string (h : Lexeme token) (hkind : token.kind = "string") (rest : List Char) :
    lexer.Lexes 1 ('"' :: token.text.toList ++ '"' :: rest) [token] 1 rest := by
  cases h with
  | @string w hchars =>
    have hw : (LexToken.valued "string" (String.ofList w)).text.toList = w := String.toList_ofList
    rw [hw]
    exact lexes_string hchars rest
  | sign h =>
    obtain rfl := hkind
    simp [signs] at h
  | _ => simp [LexToken.valued] at hkind

theorem Lexeme.makes_charData (h : Lexeme token) (hkind : token.kind = "charData") {rest : List Char}
    (hrest : rest.head?.any dataChar.holds = false) :
    lexer.Lexes 0 (token.text.toList ++ rest) [token] 0 rest := by
  cases h with
  | @charData w hne hchars =>
    have hw : (LexToken.valued "charData" (String.ofList w)).text.toList = w := String.toList_ofList
    rw [hw]
    exact lexes_charData hne hchars hrest
  | sign h =>
    obtain rfl := hkind
    simp [signs] at h
  | _ => simp [LexToken.valued] at hkind

theorem Lexeme.makes_comment (h : Lexeme token) (hkind : token.kind = "comment") (rest : List Char) :
    lexer.Lexes 0 (commentStart ++ token.text.toList ++ commentEnd ++ rest) [token] 0 rest := by
  cases h with
  | @comment w hchars hend =>
    have hw : (LexToken.valued "comment" (String.ofList w)).text.toList = w := String.toList_ofList
    rw [hw]
    exact lexes_comment hchars hend rest
  | sign h =>
    obtain rfl := hkind
    simp [signs] at h
  | _ => simp [LexToken.valued] at hkind

/-- A sign is written as its kind. -/
theorem Lexeme.eq_bare (h : Lexeme token) (hkind : token.kind ∈ signs) :
    token = .bare token.kind ∧ token.text = token.kind := by
  cases h with
  | sign => exact ⟨rfl, rfl⟩
  | _ => simp [signs, LexToken.valued] at hkind

end

/-! ### Trees -/

/-- The leaves of the tree are tokens as the lexer makes them, of the kinds that their patterns
take. -/
def LexemeLeaves (t : Tree LexToken) : Prop :=
  ∀ l ∈ t.leaves, Lexeme l.2.detach ∧ l.1.kind = .consume l.2.kind

/-- The tokens of the tree without their places. -/
def detached (t : Tree LexToken) : List LexToken := t.values.map LexToken.detach

section

variable {t : Tree LexToken} {id : PatternId} {p : Pattern}

theorem LexemeLeaves.child {u : Tree LexToken} (h : LexemeLeaves t) (hu : u ∈ t.children) :
    LexemeLeaves u :=
  fun l hl => h l (Tree.mem_leaves_of_mem_children hu hl)

theorem exists_leaf (h : t.Fits grammar id) (hl : LexemeLeaves t) (hp : patterns[id]? = some p)
    {terminal : String} (hkind : p.kind = .consume terminal) :
    ∃ v, t = .leaf p v ∧ Lexeme v.detach ∧ v.kind = terminal := by
  obtain ⟨v, rfl⟩ := h.eq_leaf ((pattern?_grammar id).trans hp) hkind
  obtain ⟨hlexeme, heq⟩ := hl (p, v) List.mem_cons_self
  exact ⟨v, rfl, hlexeme, (PatternKind.consume.inj (hkind.symm.trans heq)).symm⟩

/-- A leaf for a sign. -/
theorem exists_sign (h : t.Fits grammar id) (hl : LexemeLeaves t) (hp : patterns[id]? = some p)
    {terminal : String} (hkind : p.kind = .consume terminal) (hsign : terminal ∈ signs) :
    t.toDoc = .text terminal ∧ detached t = [.bare terminal] := by
  obtain ⟨v, rfl, hlexeme, rfl⟩ := exists_leaf h hl hp hkind
  obtain ⟨hbare, htext⟩ := hlexeme.eq_bare hsign
  exact ⟨congrArg Doc.text htext, congrArg (fun token => [token]) hbare⟩

theorem detached_leaf (p : Pattern) (v : LexToken) : detached (.leaf p v) = [v.detach] := rfl

theorem detached_mark (p : Pattern) : detached (.mark p) = [] := rfl

theorem detached_wrapped (p : Pattern) (t : Tree LexToken) :
    detached (.wrapped p t) = detached t := rfl

theorem detached_choice (p : Pattern) (index : Nat) (t : Tree LexToken) :
    detached (.choice p index t) = detached t := rfl

theorem detached_sequence (p : Pattern) (ts : List (Tree LexToken)) :
    detached (.sequence p ts) = ts.flatMap detached := by
  rw [detached, Tree.values, Tree.valuesEach_eq_map, List.map_flatten, List.map_map,
    List.flatMap_def]
  rfl

/-- Separators without tokens change nothing about the tokens of a repetition. -/
theorem detached_many {items separators : List (Tree LexToken)} (p : Pattern)
    (hempty : ∀ s ∈ separators, s.values = []) :
    detached (.many p items separators) = items.flatMap detached := by
  have hflatten (xs ys : List (List LexToken)) (hys : ∀ y ∈ ys, y = []) :
      (interleave xs ys).flatten = xs.flatten := by
    induction xs generalizing ys with
    | nil => rfl
    | cons x xs ih =>
      cases ys with
      | nil => rw [interleave_nil]
      | cons y ys =>
        obtain ⟨rfl, hrest⟩ := List.forall_mem_cons.1 hys
        rw [interleave, List.flatten_cons, List.flatten_cons, ih ys hrest]
        rfl
  rw [detached, Tree.values, Tree.valuesEach_eq_map, Tree.valuesEach_eq_map,
    hflatten _ _ (List.forall_mem_map.2 hempty), List.map_flatten, List.map_map, List.flatMap_def]
  rfl

end

section

open Doc Output

variable {config : PrintConfig} {out out' : Output} {t : Tree LexToken}

/-! ### Attributes -/

/-- An attribute makes its tokens, and leaves a quote at the end. -/
theorem attribute_makes (h : t.Fits grammar 30) (hl : LexemeLeaves t)
    (hw : t.toDoc.Writes config out out') :
    ∃ w, out.Adds w out' ∧ out'.Solid ∧
      ∀ rest, lexer.Lexes 1 (w ++ rest) (detached t) 1 rest := by
  obtain ⟨ts, rfl, hts⟩ := h.eq_sequence (pattern?_grammar 30) rfl
  obtain _ | ⟨hname, _ | ⟨hequals, _ | ⟨hopen, _ | ⟨hvalue, _ | ⟨hclose, _ | _⟩⟩⟩⟩⟩ := hts
  obtain ⟨name, rfl, hname, hnameKind⟩ :=
    exists_leaf hname (hl.child (by simp [Tree.children])) rfl rfl
  obtain ⟨hequalsDoc, hequals⟩ :=
    exists_sign hequals (hl.child (by simp [Tree.children])) rfl rfl (by decide)
  obtain rfl := hopen.eq_mark (pattern?_grammar 27) rfl
  obtain ⟨value, rfl, hvalue, hvalueKind⟩ :=
    exists_leaf hvalue (hl.child (by simp [Tree.children])) rfl rfl
  obtain rfl := hclose.eq_mark (pattern?_grammar 29) rfl
  rw [Tree.toDoc, writes_join] at hw
  simp only [Tree.toDocs, hequalsDoc, WritesAll] at hw
  obtain ⟨out₁, h₁, out₂, h₂, out₃, h₃, out₄, h₄, out₅, h₅, rfl⟩ := hw
  have hadds := ((((adds_of_writes_text h₁).append (adds_of_writes_text h₂)).append
    (adds_of_writes_text h₃)).append (adds_of_writes_text h₄)).append (adds_of_writes_text h₅)
  refine ⟨_, hadds, hadds.solid (c := '"') List.getLast?_concat rfl, fun rest => ?_⟩
  have hmakes : lexer.Lexes 1 (name.text.toList ++ '=' :: '"' :: value.text.toList ++ '"' :: rest)
      ([name.detach] ++ ([.bare "="] ++ [value.detach])) 1 rest := by
    rw [List.append_assoc]
    exact ((hname.makes_name hnameKind).2.2 _ rfl).append
      ((lexes_equals _).append (hvalue.makes_string hvalueKind rest))
  simpa [detached_sequence, detached_leaf, detached_mark, hequals, TokenText.text] using hmakes

/-- What a line becomes is white space inside of tags. -/
theorem blankChar_of_isBreak {c : Char} (h : IsBreak c) : blankChar.holds c = true := by
  rw [mem_blankChar]
  rcases h with h | rfl
  · simp only [isLineBlank, Bool.or_eq_true, decide_eq_true_eq] at h
    rcases h with rfl | rfl <;> simp
  · simp

theorem not_isLineBlank_of_nameChar {c : Char} (h : nameChar.holds c = true) :
    isLineBlank c = false := by
  by_contra hblank
  have hmem := mem_blankChar.1 (blankChar_of_isBreak (.inl (Bool.not_eq_false _ ▸ hblank)))
  rw [not_nameChar_of_mem (List.mem_append_left _ hmem)] at h
  cases h

/-- Attributes with lines between them make the tokens of the attributes. -/
theorem attributes_make {items separators : List (Tree LexToken)}
    (hitems : ∀ t ∈ items, t.Fits grammar 0 ∧ LexemeLeaves t)
    (hseparators : ∀ s ∈ separators, s.Fits grammar 1)
    (hlength : separators.length = items.length - 1)
    (hw : WritesAll config (interleave (Tree.toDocs items) (Tree.toDocs separators)) out out') :
    ∃ w, out.Adds w out' ∧
      ∀ rest, lexer.Lexes 1 (w ++ rest) (items.flatMap detached) 1 rest := by
  induction items generalizing separators out with
  | nil =>
    obtain rfl : out' = out := hw
    exact ⟨[], out'.adds_nil, fun rest => lexer.lexes_nil 1 rest⟩
  | cons t items ih =>
    obtain ⟨⟨hfits, hl⟩, hrest⟩ := List.forall_mem_cons.1 hitems
    obtain ⟨u, rfl, hu⟩ := hfits.eq_wrapped (pattern?_grammar 0)
      (show PatternKind.wrapped? grammar (.thunk 0) = some (.thunk, 30) by
        rw [PatternKind.wrapped?, ruleBody?_grammar]; rfl)
    have hl : LexemeLeaves u := hl.child List.mem_cons_self
    cases separators with
    | nil =>
      obtain rfl : items = [] := List.length_eq_zero_iff.1 hlength.symm
      obtain ⟨w, hadds, -, hmakes⟩ := attribute_makes hu hl (writesAll_singleton.1 hw)
      exact ⟨w, hadds, fun rest => by simpa [detached_wrapped] using hmakes rest⟩
    | cons s separators =>
      obtain ⟨hs, hlines⟩ := List.forall_mem_cons.1 hseparators
      obtain rfl := hs.eq_mark (pattern?_grammar 1) rfl
      obtain ⟨out₁, h₁, out₂, h₂, hw⟩ := hw
      obtain ⟨w, hadds, hsolid, hmakes⟩ := attribute_makes hu hl h₁
      obtain ⟨blanks, hblanks, hall, -⟩ := adds_of_writes_line hsolid h₂
      have hlength : separators.length = items.length - 1 := Nat.eq_sub_of_add_eq hlength
      obtain ⟨w', hadds', hmakes'⟩ := ih hrest hlines hlength hw
      refine ⟨_, (hadds.append hblanks).append hadds', fun rest => ?_⟩
      have hline := lexes_blanks (fun c hc => blankChar_of_isBreak (hall c hc)) (w' ++ rest)
      simpa [detached_wrapped] using
        (hmakes (blanks ++ (w' ++ rest))).append (hline.append (hmakes' rest))

/-- The attributes of an element come after a line, if there are any. -/
theorem indented_makes (h : t.Fits grammar 16) (hl : LexemeLeaves t) (hsolid : out.Solid)
    (hw : t.toDoc.Writes config out out') :
    ∃ w, out.Adds w out' ∧ (w = [] ∨ w.head?.any blankChar.holds = true) ∧
      ∀ rest, lexer.Lexes 1 (w ++ rest) (detached t) 1 rest := by
  obtain ⟨_, rfl, h₁⟩ := h.eq_wrapped (pattern?_grammar 16) rfl
  obtain ⟨_, rfl, h₂⟩ := h₁.eq_wrapped (pattern?_grammar 15) rfl
  obtain ⟨_, rfl, h₃⟩ := h₂.eq_wrapped (pattern?_grammar 14) rfl
  obtain ⟨items, separators, rfl, hitems, hlength, hseparators⟩ :=
    h₃.eq_many (pattern?_grammar 2) rfl
  have hl : LexemeLeaves (.many patterns[2] items separators) :=
    ((hl.child List.mem_cons_self).child List.mem_cons_self).child List.mem_cons_self
  have hlines : ∀ s ∈ separators, s.Fits grammar 1 := by
    intro s hs
    obtain ⟨_, heq, hfits⟩ := hseparators s hs
    exact Option.some.inj heq ▸ hfits
  have hempty : ∀ s ∈ separators, s.values = [] := by
    intro s hs
    obtain rfl := (hlines s hs).eq_mark (pattern?_grammar 1) rfl
    rfl
  have hattributes {out : Output}
      (hw : (Tree.many patterns[2] items separators).toDoc.Writes config out out') :=
    attributes_make (fun t ht => ⟨hitems t ht, hl.child (List.mem_append_left _ ht)⟩) hlines hlength
      (writes_join.1 hw)
  simp only [detached_wrapped, detached_many _ hempty]
  cases items with
  | nil =>
    obtain rfl : out' = out := writes_join.1 hw
    exact ⟨[], out'.adds_nil, .inl rfl, fun rest => lexer.lexes_nil 1 rest⟩
  | cons item items =>
    -- the conditional writes the line, since the attributes that it names are there
    replace hw : WritesAll config [.line .default,
        .group (Tree.many patterns[2] (item :: items) separators).toDoc, .nil] out out' :=
      writes_join.1 hw
    obtain ⟨out₁, h₁, out₂, h₂, out₃, rfl, rfl⟩ := hw
    obtain ⟨blanks, hblanks, hall, hsoft⟩ := adds_of_writes_line hsolid h₁
    obtain ⟨w, hadds, hmakes⟩ := hattributes h₂
    refine ⟨_, hblanks.append hadds, .inr ?_, fun rest => ?_⟩
    · obtain ⟨c, blanks, rfl⟩ := List.exists_cons_of_ne_nil fun hnil => nomatch hsoft hnil
      exact blankChar_of_isBreak (hall c List.mem_cons_self)
    · have hline := lexes_blanks (fun c hc => blankChar_of_isBreak (hall c hc)) (w ++ rest)
      rw [List.append_assoc]
      exact hline.append (hmakes rest)

/-! ### Elements and their content -/

/-- The tokens are a text. -/
def IsData (tokens : List LexToken) : Prop := ∃ v, tokens = [v] ∧ v.kind = "charData"

/-- What is written for the tree outside of tags makes its tokens.  It is a text, after which no
text may come, or it starts with a tag or a comment. -/
def MakesContent (config : PrintConfig) (t : Tree LexToken) : Prop :=
  ∀ out out', t.toDoc.Writes config out out' → ∃ w, out.Adds w out' ∧
    (IsData (detached t) ∨ w.head? = some '<') ∧
    ∀ rest : List Char, (IsData (detached t) → rest.head?.any dataChar.holds = false) →
      lexer.Lexes 0 (w ++ rest) (detached t) 0 rest

/-- What is written for the trees makes their tokens where a tag comes next. -/
def MakesContents (config : PrintConfig) (t : Tree LexToken) : Prop :=
  ∀ out out', t.toDoc.Writes config out out' → ∃ w, out.Adds w out' ∧
    ∀ rest : List Char, rest.head? = some '<' → lexer.Lexes 0 (w ++ rest) (detached t) 0 rest

/-- What is written for the tree inside of a tag ends the tag, and makes the tokens of the tree. -/
def MakesClosing (config : PrintConfig) (t : Tree LexToken) : Prop :=
  ∀ out out', t.toDoc.Writes config out out' → ∃ w, out.Adds w out' ∧
    (∃ c ∈ ['>', '/'], w.head? = some c) ∧
    ∀ rest, lexer.Lexes 1 (w ++ rest) (detached t) 0 rest

theorem charData_makes (h : t.Fits grammar 22) (hl : LexemeLeaves t) : MakesContent config t := by
  obtain ⟨v, rfl, hv, hkind⟩ := exists_leaf h hl rfl rfl
  have hdata : IsData (detached (.leaf patterns[22] v)) := ⟨v.detach, rfl, hkind⟩
  exact fun out out' hw => ⟨_, adds_of_writes_text hw, .inl hdata,
    fun rest hrest => hv.makes_charData hkind (hrest hdata)⟩

theorem comment_makes (h : t.Fits grammar 21) (hl : LexemeLeaves t) : MakesContent config t := by
  obtain ⟨ts, rfl, hts⟩ := h.eq_sequence (pattern?_grammar 21) rfl
  obtain _ | ⟨hopen, _ | ⟨htext, _ | ⟨hclose, _ | _⟩⟩⟩ := hts
  obtain rfl := hopen.eq_mark (pattern?_grammar 18) rfl
  obtain ⟨v, rfl, hv, hkind⟩ := exists_leaf htext (hl.child (by simp [Tree.children])) rfl rfl
  obtain rfl := hclose.eq_mark (pattern?_grammar 20) rfl
  intro out out' hw
  rw [Tree.toDoc, writes_join] at hw
  obtain ⟨out₁, h₁, out₂, h₂, out₃, h₃, rfl⟩ := hw
  refine ⟨_, ((adds_of_writes_text h₁).append (adds_of_writes_text h₂)).append
    (adds_of_writes_text h₃), .inr rfl, fun rest _ => ?_⟩
  exact hv.makes_comment hkind rest

/-- The items of an element, where text does not follow text. -/
theorem contents_make {items : List (Tree LexToken)}
    (hitems : ∀ t ∈ items, MakesContent config t) (hapart : DataApart (items.flatMap detached))
    (hw : WritesAll config (Tree.toDocs items) out out') :
    ∃ w, out.Adds w out' ∧
      ((∀ v ∈ (items.flatMap detached).head?, v.kind ≠ "charData") →
        w = [] ∨ w.head? = some '<') ∧
      ∀ rest : List Char, rest.head? = some '<' →
        lexer.Lexes 0 (w ++ rest) (items.flatMap detached) 0 rest := by
  induction items generalizing out with
  | nil =>
    obtain rfl : out' = out := hw
    exact ⟨[], out'.adds_nil, fun _ => .inl rfl, fun rest _ => lexer.lexes_nil 0 rest⟩
  | cons t items ih =>
    obtain ⟨out₁, h₁, hw⟩ := hw
    obtain ⟨ht, hrest⟩ := List.forall_mem_cons.1 hitems
    rw [List.flatMap_cons] at hapart ⊢
    obtain ⟨-, hapart, hbetween⟩ := List.isChain_append.1 hapart
    obtain ⟨w, hadds, hstart, hmakes⟩ := ht _ _ h₁
    obtain ⟨w', hadds', hstart', hmakes'⟩ := ih hrest hapart hw
    refine ⟨w ++ w', hadds.append hadds', fun hfirst => ?_, fun rest hopen => ?_⟩
    · rcases hstart with ⟨v, hv, hkind⟩ | hstart
      · rw [hv] at hfirst
        exact absurd hkind (hfirst v rfl)
      · exact .inr (by rw [List.head?_append, hstart, Option.some_or])
    · rw [List.append_assoc]
      refine (hmakes (w' ++ rest) fun ⟨v, hv, hkind⟩ => ?_).append (hmakes' rest hopen)
      -- what comes after text is no text, so that a tag or a comment starts there
      have hnext : (w' ++ rest).head? = some '<' := by
        rcases hstart' fun u hu hdata => hbetween v (by simp [hv]) u hu ⟨hkind, hdata⟩ with
          rfl | hstart'
        · exact hopen
        · rw [List.head?_append, hstart', Option.some_or]
      rw [hnext]
      decide

theorem element_makes (h : t.Fits grammar 17) (hl : LexemeLeaves t)
    (hclosing : ∀ u ∈ t.children, u.Fits grammar 11 → MakesClosing config u) :
    MakesContent config t := by
  obtain ⟨ts, rfl, hts⟩ := h.eq_sequence (pattern?_grammar 17) rfl
  obtain _ | ⟨hopen, _ | ⟨hname, _ | ⟨hindent, _ | ⟨hend, _ | _⟩⟩⟩⟩ := hts
  obtain ⟨hopenDoc, hopen⟩ :=
    exists_sign hopen (hl.child (by simp [Tree.children])) rfl rfl (by decide)
  obtain ⟨name, rfl, hname, hnameKind⟩ :=
    exists_leaf hname (hl.child (by simp [Tree.children])) rfl rfl
  intro out out' hw
  rw [Tree.toDoc, writes_join] at hw
  simp only [Tree.toDocs, hopenDoc, WritesAll] at hw
  obtain ⟨out₁, h₁, out₂, h₂, out₃, h₃, out₄, h₄, rfl⟩ := hw
  obtain ⟨hfirst, hchars, hmakes⟩ := hname.makes_name hnameKind
  obtain ⟨c, cs, hcs⟩ : ∃ c cs, name.text.toList = c :: cs := by
    cases hcs : name.text.toList with
    | nil =>
      rw [show name.detach.text.toList = [] from hcs] at hfirst
      cases hfirst
    | cons c cs => exact ⟨c, cs, rfl⟩
  have hname₂ : out₁.Adds name.text.toList out₂ := adds_of_writes_text h₂
  have hsolid : out₂.Solid := by
    have hne : name.text.toList ≠ [] := by simp [hcs]
    refine hname₂.solid (List.getLast?_eq_some_getLast hne) ?_
    exact not_isLineBlank_of_nameChar (hchars _ (List.getLast_mem hne))
  obtain ⟨w, hadds, hblank, hmakes₃⟩ :=
    indented_makes hindent (hl.child (by simp [Tree.children])) hsolid h₃
  obtain ⟨w', hadds', ⟨d, hd, hclose⟩, hmakes₄⟩ :=
    hclosing _ (by simp [Tree.children]) hend _ _ h₄
  refine ⟨_, (((adds_of_writes_text h₁).append hname₂).append hadds).append hadds', .inr rfl,
    fun rest _ => ?_⟩
  -- after the name comes white space, or what ends the tag
  have hnext : (w ++ (w' ++ rest)).head?.any nameChar.holds = false := by
    obtain ⟨e, he, hmem⟩ : ∃ e, (w ++ (w' ++ rest)).head? = some e ∧
        e ∈ [' ', '\t', '\r', '\n', '"', '=', '>', '/', '<', '!'] := by
      rcases hblank with rfl | hblank
      · refine ⟨d, by rw [List.nil_append, List.head?_append, hclose, Option.some_or], ?_⟩
        simp only [List.mem_cons, List.not_mem_nil, or_false] at hd ⊢
        tauto
      · obtain ⟨e, he, hblank⟩ := (Option.any_eq_true _ _).1 hblank
        refine ⟨e, by rw [List.head?_append, he, Option.some_or], ?_⟩
        exact List.mem_append_left _ (mem_blankChar.1 hblank)
    rw [he, Option.any_some, not_nameChar_of_mem hmem]
  have hstart : lexer.Lexes 0 ('<' :: name.text.toList ++ (w ++ (w' ++ rest))) [.bare "<"] 1
      (name.text.toList ++ (w ++ (w' ++ rest))) := by
    rw [hcs]
    refine lexes_open (fun hc => ?_) _
    have hmem : c ∈ [' ', '\t', '\r', '\n', '"', '=', '>', '/', '<', '!'] := by
      simp only [List.mem_cons, List.not_mem_nil, or_false] at hc ⊢
      tauto
    have hholds := hchars c (by rw [show name.detach.text.toList = c :: cs from hcs]; simp)
    rw [not_nameChar_of_mem hmem] at hholds
    cases hholds
  have hall := hstart.append ((hmakes _ hnext).append ((hmakes₃ (w' ++ rest)).append
    (hmakes₄ rest)))
  rw [detached_sequence]
  simpa [hopen, detached_leaf] using hall

/-- The content and the closing tag of an element. -/
theorem opened_makes (h : t.Fits grammar 9) (hl : LexemeLeaves t)
    (hcontents : ∀ u ∈ t.children, u.Fits grammar 5 → MakesContents config u) :
    MakesClosing config t := by
  obtain ⟨ts, rfl, hts⟩ := h.eq_sequence (pattern?_grammar 9) rfl
  obtain _ | ⟨hend, _ | ⟨hcontent, _ | ⟨hopen, _ | ⟨hname, _ | ⟨hclose, _ | _⟩⟩⟩⟩⟩ := hts
  obtain ⟨hendDoc, hend⟩ :=
    exists_sign hend (hl.child (by simp [Tree.children])) rfl rfl (by decide)
  obtain ⟨hopenDoc, hopen⟩ :=
    exists_sign hopen (hl.child (by simp [Tree.children])) rfl rfl (by decide)
  obtain ⟨name, rfl, hname, hnameKind⟩ :=
    exists_leaf hname (hl.child (by simp [Tree.children])) rfl rfl
  obtain ⟨hcloseDoc, hclose⟩ :=
    exists_sign hclose (hl.child (by simp [Tree.children])) rfl rfl (by decide)
  intro out out' hw
  rw [Tree.toDoc, writes_join] at hw
  simp only [Tree.toDocs, hendDoc, hopenDoc, hcloseDoc, WritesAll] at hw
  obtain ⟨out₁, h₁, out₂, h₂, out₃, h₃, out₄, h₄, out₅, h₅, rfl⟩ := hw
  obtain ⟨w, hadds, hmakes⟩ := hcontents _ (by simp [Tree.children]) hcontent _ _ h₂
  refine ⟨_, ((((adds_of_writes_text h₁).append hadds).append (adds_of_writes_text h₃)).append
    (adds_of_writes_text h₄)).append (adds_of_writes_text h₅), ⟨'>', by simp, rfl⟩,
    fun rest => ?_⟩
  have hall := (lexes_end (w ++ '<' :: '/' :: (name.text.toList ++ '>' :: rest))).append
    ((hmakes _ rfl).append ((lexes_close _).append
      (((hname.makes_name hnameKind).2.2 ('>' :: rest) rfl).append (lexes_end rest))))
  rw [detached_sequence]
  simpa [hend, hopen, hclose, detached_leaf, TokenText.text] using hall

theorem closing_makes (h : t.Fits grammar 11) (hl : LexemeLeaves t)
    (hopened : ∀ u ∈ t.children, u.Fits grammar 9 → MakesClosing config u) :
    MakesClosing config t := by
  obtain ⟨index, u, alternative, rfl, halternative, hu⟩ := h.eq_choice (pattern?_grammar 11) rfl
  match index with
  | 0 =>
    obtain rfl : 10 = alternative := Option.some.inj halternative
    obtain ⟨hdoc, htokens⟩ :=
      exists_sign hu (hl.child List.mem_cons_self) rfl rfl (by decide)
    intro out out' hw
    rw [Tree.toDoc, hdoc] at hw
    refine ⟨_, adds_of_writes_text hw, ⟨'/', by simp, rfl⟩, fun rest => ?_⟩
    rw [detached_choice, htokens]
    exact lexes_selfClosing rest
  | 1 =>
    obtain rfl : 9 = alternative := Option.some.inj halternative
    exact hopened u List.mem_cons_self hu
  | index + 2 => simp at halternative

/-- What is written for a tree of a pattern. -/
structure Makes (config : PrintConfig) (id : PatternId) (t : Tree LexToken) : Prop where
  content : id ∈ [4, 17, 21, 22, 23, 24] → MakesContent config t
  contents : id = 5 → MakesContents config t
  closing : id ∈ [9, 11] → MakesClosing config t

/-- What is written for a tree makes its tokens, if text does not follow text. -/
theorem tree_makes (config : PrintConfig) {id : PatternId} (h : t.Fits grammar id)
    (hl : LexemeLeaves t) (hapart : DataApart (detached t)) : Makes config id t := by
  induction t using Tree.childrenInduction generalizing id with
  | h t ih =>
  have ih {u : Tree LexToken} (hu : u ∈ t.children) {child : PatternId}
      (hchild : u.Fits grammar child) : Makes config child u := by
    refine ih u hu hchild (hl.child hu) ?_
    exact List.IsChain.infix hapart
      ((Tree.values_infix_of_mem_children h hu).map LexToken.detach)
  refine ⟨fun hid => ?_, ?_, fun hid => ?_⟩
  · simp only [List.mem_cons, List.not_mem_nil, or_false] at hid
    rcases hid with rfl | rfl | rfl | rfl | rfl | rfl
    · obtain ⟨u, rfl, hu⟩ := h.eq_wrapped (pattern?_grammar 4)
        (show PatternKind.wrapped? grammar (.thunk 1) = some (.thunk, 24) by
          rw [PatternKind.wrapped?, ruleBody?_grammar]; rfl)
      exact (ih List.mem_cons_self hu).content (by decide)
    · exact element_makes h hl fun u hu hfits => (ih hu hfits).closing (by decide)
    · exact comment_makes h hl
    · exact charData_makes h hl
    · obtain ⟨u, rfl, hu⟩ := h.eq_wrapped (pattern?_grammar 23)
        (show PatternKind.wrapped? grammar (.thunk 2) = some (.thunk, 17) by
          rw [PatternKind.wrapped?, ruleBody?_grammar]; rfl)
      exact (ih List.mem_cons_self hu).content (by decide)
    · obtain ⟨index, u, alternative, rfl, halternative, hu⟩ :=
        h.eq_choice (pattern?_grammar 24) rfl
      refine (ih List.mem_cons_self hu).content ?_
      rcases index with _ | _ | _ | index
      iterate 3
        obtain rfl := Option.some.inj halternative
        decide
      simp at halternative
  · rintro rfl out out' hw
    obtain ⟨items, separators, rfl, hitems, hlength, -⟩ := h.eq_many (pattern?_grammar 5) rfl
    obtain rfl : separators = [] := List.length_eq_zero_iff.1 hlength
    rw [detached_many _ (List.forall_mem_nil _)] at hapart ⊢
    rw [Tree.toDoc, writes_join] at hw
    obtain ⟨w, hadds, -, hmakes⟩ := contents_make
      (fun u hu => (ih (List.mem_append_left _ hu) (hitems u hu)).content (by decide)) hapart
      (by simpa [Tree.toDocs] using hw)
    exact ⟨w, hadds, hmakes⟩
  · simp only [List.mem_cons, List.not_mem_nil, or_false] at hid
    rcases hid with rfl | rfl
    · exact opened_makes h hl fun u hu hfits => (ih hu hfits).contents rfl
    · exact closing_makes h hl fun u hu hfits => (ih hu hfits).closing (by decide)

end

theorem lexemeLeaves_of_derives {tokens : Array LexToken}
    (htokens : ∀ token ∈ tokens, Lexeme token.detach) {t : Tree LexToken} {id : PatternId}
    {i j : Nat} (h : t.Derives grammar tokens id i j) : LexemeLeaves t := by
  intro l hl
  obtain ⟨terminal, hkind, token, htoken, his, hvalue⟩ := Tree.exists_token_of_mem_leaves h hl
  obtain rfl : l.2 = token := hvalue
  obtain rfl : l.2.kind = terminal := eq_of_beq his
  exact ⟨htokens _ htoken, hkind⟩

theorem placeFree_xml (config : ParserConfig) (layout : PrintConfig) :
    { Language.xml with parserConfig := config, printConfig := layout }.PlaceFree := by
  intro token
  simp only [Language.xml, codec, Lexer.codec, tokenCodec]
  rfl

/-- The print of a tree makes the tokens that the tree was parsed from. -/
theorem tokenizeDetached_print (layout : PrintConfig) {part : Part} {tokens : List LexToken} {source : String}
    (htokens : lexer.tokenize source = .ok tokens) {config : ParserConfig} {t : Tree LexToken}
    (h : parseOne grammar config part.pattern tokens.toArray = .ok t) :
    lexer.tokenizeDetached (t.print layout) = .ok (tokens.map LexToken.detach) := by
  obtain ⟨hlexemes, hapart⟩ := lexemes_of_tokenize htokens
  have hsize : part.pattern < grammar.patterns.size := by
    rw [grammar_eq]
    cases part <;> decide
  have hderives :=
    (covers_of_parseOne built_grammar.closed distinctLabels_grammar hsize h).derives
  have hvalues : detached t = tokens.map LexToken.detach := by
    rw [detached, (values_of_parseOne built_grammar.closed hsize h).1]
    exact congrArg _ (List.map_id tokens)
  have hleaves : LexemeLeaves t := lexemeLeaves_of_derives (by simpa using hlexemes) hderives
  have hdata : DataApart (detached t) := by
    rw [hvalues]
    exact (List.isChain_map _).2 hapart
  have hpart : part.pattern ∈ [4, 17, 21, 22, 23, 24] := by cases part <;> decide
  obtain ⟨out, hwrites, hprint⟩ := Doc.render_writes (.group t.toDoc) layout
  obtain ⟨w, hadds, -, hmakes⟩ :=
    (tree_makes layout (Tree.fits_of_derives hderives) hleaves hdata).content hpart .empty out
      hwrites
  have htext : t.print layout = String.ofList w := hprint.trans hadds.toText_eq
  rw [htext, ← hvalues]
  refine Lexer.Lexes.tokenizeDetached_eq (q := 0) ?_
  simpa using hmakes [] fun _ => rfl

end Xml

/-- An element or content is printed with the tokens of its source, however its lines break.  The
print has the same tree and the same shape, and is printed again as it is. -/
theorem xml_reprints {config : ParserConfig} {layout : PrintConfig} (part : Xml.Part)
    {source : String} {t : Tree LexToken}
    (h : { Language.xml with parserConfig := config, printConfig := layout }.parse part.rule source =
      .ok t) :
    { Language.xml with parserConfig := config, printConfig := layout }.Reprints part.rule source
      t := by
  refine Language.reprints_of_tokens_eq (Xml.placeFree_xml config layout) h ?_
  obtain ⟨id, tokens, hid, htokens, hparse⟩ := Language.parse_eq_ok_iff.1 h
  simp only [Language.xml] at hid htokens hparse
  obtain rfl : part.pattern = id := Option.some.inj ((Xml.rule?_grammar part).symm.trans hid)
  have hprint : Xml.lexer.tokenizeDetached (t.print layout) = Xml.lexer.tokenizeDetached source := by
    rw [Xml.tokenizeDetached_print layout htokens hparse, Lexer.tokenizeDetached_eq, htokens]
    rfl
  simp only [Language.tokenizeDetached, Language.print, Language.xml]
  rw [hprint]

/-- An element with a value and a text that hold white space, in lines of one column. -/
theorem xml_reprints_narrow :
    let xml : Language :=
      { Language.xml with parserConfig := ⟨3, 1000⟩, printConfig := ⟨1, 2, false⟩ }
    let source := "<a b=\"c  d\"> x </a>"
    ∃ t, xml.parse "element" source = .ok t ∧ xml.Reprints "element" source t := by
  intro xml source
  have hok : (xml.parse "element" source).isOk = true := by
    simp only [xml, Language.xml]
    rw [Xml.lexer_eq, Xml.grammar_eq]
    decide +kernel
  cases ht : xml.parse "element" source with
  | ok t => exact ⟨t, rfl, xml_reprints .element ht⟩
  | error e =>
    rw [ht] at hok
    cases hok

end ReversibleGrammar
