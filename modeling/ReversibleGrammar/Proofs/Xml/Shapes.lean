/-
The shape of an XML tree gives the tree back.

Most patterns of the grammar keep to the rules of `Grammar.ReversibleAt`.  The four that do
not make the shapes of contents: such a shape is no field of another one, but an item of a
list, and given to its pattern as it is.

* `Xml.Plain` — tokens as they are without their places;
* `recovers_closing`, `roundTrips_content` and so on — the patterns with shapes of their own;
* `roundTrips_tree` — trees with such tokens come back from their shapes;
* `xml_shape_round_trip` — so do the trees of parses.
-/
import ReversibleGrammar.Proofs.Grammar.Fitting
import ReversibleGrammar.Proofs.Recognizer.Soundness
import ReversibleGrammar.Proofs.Shaping.Recovery
import ReversibleGrammar.Proofs.Shaping.Tokens
import ReversibleGrammar.Proofs.Xml.Grammar

namespace ReversibleGrammar

namespace Xml

/-- The kinds of tokens that carry a text. -/
def valuedKinds : List String := ["comment", "charData", "string", "name"]

/-- The token has no place, and one text just if tokens of its kind carry one. -/
def Plain (token : LexToken) : Prop :=
  token.span = .none ∧ token.values.length = if token.kind ∈ valuedKinds then 1 else 0

instance (token : LexToken) : Decidable (Plain token) := inferInstanceAs (Decidable (_ ∧ _))

theorem terminalToken_codec (terminal : String) :
    codec.terminalToken terminal = (tokenCodec valuedKinds).terminalToken terminal := by
  simp only [codec, Lexer.codec, valuedKinds_lexer, valuedKinds]

theorem shapeToken_codec (shape : Shape) (terminal : String) :
    codec.shapeToken shape terminal = (tokenCodec valuedKinds).shapeToken shape terminal := by
  simp only [codec, Lexer.codec, valuedKinds_lexer, valuedKinds]

theorem tokenShape_codec (token : LexToken) : codec.tokenShape token = .text token.text := by
  simp only [codec, Lexer.codec, tokenCodec]

/-- A token without a place and without a text is the one that its kind stands for. -/
theorem Plain.eq_terminalToken {token : LexToken} (h : Plain token)
    (hkind : token.kind ∉ valuedKinds) : token = codec.terminalToken token.kind := by
  rw [terminalToken_codec]
  exact LexToken.Plain.eq_terminalToken h hkind

/-- A token without a place comes back from its shape. -/
theorem Plain.shapeToken_tokenShape {token : LexToken} (h : Plain token) :
    codec.shapeToken (codec.tokenShape token) token.kind = .ok token := by
  rw [shapeToken_codec, tokenShape_codec]
  exact LexToken.Plain.shapeToken_tokenShape h

/-! ### The fields of the patterns -/

/-- The fields that a match of a pattern can give to the shape around it. -/
def keys (id : PatternId) : List String :=
  [["name", "value"], [], ["attributes"], [], [mergeName], ["content"], [], ["closingTag"], [],
    ["content", "closingTag"], [], ["content"], [], ["tag"], ["attributes"], ["attributes"],
    ["attributes"], ["tag", "attributes", "content"], [], ["text"], [], ["text"], [mergeName],
    ["tag", "attributes", "content"], [mergeName], ["name"], [], [], ["value"], [],
    ["name", "value"]].getD id []

/-- Leaves nothing in a shape. -/
def silent (id : PatternId) : Bool := [1, 3, 6, 8, 10, 12, 18, 20, 26, 27, 29].contains id

theorem checkKeys_grammar : grammar.checkKeys keys silent = true := by
  rw [grammar_eq]
  decide

/-- The patterns of contents, whose shapes are no fields. -/
def contentIds : List PatternId := [4, 21, 22, 24]

theorem reversibleAt_grammar {id : PatternId} {p : Pattern} (hp : grammar.pattern? id = some p)
    (hid : id ∉ contentIds) : grammar.ReversibleAt p := by
  have hall : ∀ id < 31, id ∉ contentIds →
      (patterns[id]?.all (grammar.checkReversibleAt keys silent)) = true := by
    rw [grammar_eq]
    decide
  rw [pattern?_grammar] at hp
  have hcheck := hall id (Array.getElem?_eq_some_iff.1 hp).1 hid
  rw [hp] at hcheck
  exact Grammar.reversibleAt_of_check checkKeys_grammar hcheck

/-- The patterns in a pattern that take their fields from its own shape. -/
def fieldParts : PatternKind → List PatternId
  | .many _ separator => separator.toList
  | .thunk rule => (grammar.ruleBody? rule).toList
  | kind => kind.children

/-- The patterns of contents are only found in each other and in repetitions. -/
theorem not_mem_contentIds {id : PatternId} {p : Pattern} (hp : grammar.pattern? id = some p)
    (hid : id ∉ contentIds) : ∀ child ∈ fieldParts p.kind, child ∉ contentIds := by
  have hall : ∀ id < 31, id ∉ contentIds →
      ∀ child ∈ patterns[id]?.toList.flatMap fun p => fieldParts p.kind, child ∉ contentIds := by
    simp only [fieldParts, grammar_eq]
    decide
  rw [pattern?_grammar] at hp
  have hparts := hall id (Array.getElem?_eq_some_iff.1 hp).1 hid
  simpa [hp] using hparts

/-! ### Trees -/

/-- The leaves of the tree are tokens without a place, of the kinds that their patterns take. -/
def PlainLeaves (t : Tree LexToken) : Prop :=
  ∀ l ∈ t.leaves, Plain l.2 ∧ l.1.kind = .consume l.2.kind

theorem PlainLeaves.child {t u : Tree LexToken} (h : PlainLeaves t) (hu : u ∈ t.children) :
    PlainLeaves u :=
  fun l hl => h l (Tree.mem_leaves_of_mem_children hu hl)

/-- Only tokens without a text are left out of shapes. -/
theorem not_mem_valuedKinds {id : PatternId} {p : Pattern} (hp : grammar.pattern? id = some p)
    {terminal : String} (hkind : p.kind = .consume terminal) (hname : p.name = none) :
    terminal ∉ valuedKinds := by
  intro hvalued
  have hall : ∀ id < 31, ∀ terminal ∈ valuedKinds, patterns[id]?.all (fun p =>
      p.kind != .consume terminal || p.name.isSome) = true := by decide
  rw [pattern?_grammar] at hp
  have hcheck := hall id (Array.getElem?_eq_some_iff.1 hp).1 terminal hvalued
  simp [hp, hkind, hname] at hcheck

section

variable {id : PatternId} {p : Pattern} {t : Tree LexToken}

theorem pattern_closing (hp : grammar.pattern? 11 = some p) :
    p.kind = .choice [10, 9] .ordered (some ["selfClosing", "open"]) ∧ p.name = some "content" ∧
      p.label.bind grammar.labelText? = some closingLabel := by
  rw [pattern?_grammar] at hp
  cases hp
  rw [grammar_eq]
  exact ⟨rfl, rfl, rfl⟩

theorem pattern_content (hp : grammar.pattern? 24 = some p) :
    p.kind = .choice [22, 21, 23] .ordered (some ["charData", "comment", "element"]) ∧
      p.name = some mergeName ∧ p.label.bind grammar.labelText? = some contentLabel := by
  rw [pattern?_grammar] at hp
  cases hp
  rw [grammar_eq]
  exact ⟨rfl, rfl, rfl⟩

theorem pattern_comment (hp : grammar.pattern? 21 = some p) :
    p.kind = .sequence [18, 19, 20] ∧ p.Merges ∧ p.select = some "text" := by
  rw [pattern?_grammar] at hp
  cases hp
  exact ⟨rfl, rfl, rfl⟩

theorem pattern_charData (hp : grammar.pattern? 22 = some p) :
    p.kind = .consume "charData" ∧ p.name = some mergeName := by
  rw [pattern?_grammar] at hp
  cases hp
  exact ⟨rfl, rfl⟩

theorem pattern_contentThunk (hp : grammar.pattern? 4 = some p) : p.kind = .thunk 1 := by
  rw [pattern?_grammar] at hp
  cases hp
  rfl

/-- There are two choices in the grammar. -/
theorem eq_of_choice (hp : grammar.pattern? id = some p) {alternatives : List PatternId}
    {mode : ChoiceMode} {names : Option (List String)}
    (hkind : p.kind = .choice alternatives mode names) : id = 11 ∨ id = 24 := by
  rw [pattern?_grammar] at hp
  have hlt : id < 31 := (Array.getElem?_eq_some_iff.1 hp).1
  interval_cases id <;> first | exact .inl rfl | exact .inr rfl | (cases hp; cases hkind)

theorem recovers_token (hp : grammar.pattern? id = some p) (hid : id ∉ contentIds)
    {token : LexToken} (htoken : Plain token) (hkind : p.kind = .consume token.kind) :
    ∃ shape, Recovers grammar codec id (.leaf p token) shape := by
  refine recovers_leaf hp hkind ((reversibleAt_grammar hp hid).token_keeps _ hkind) (fun hname => ?_)
    htoken.shapeToken_tokenShape ?_
  · exact htoken.eq_terminalToken (not_mem_valuedKinds hp hkind hname)
  · rw [tokenShape_codec]
    exact Shape.noConfusion

theorem roundTrips_charData (hp : grammar.pattern? 22 = some p) {token : LexToken}
    (htoken : Plain token) (hkind : p.kind = .consume token.kind) :
    RoundTrips grammar codec 22 (.leaf p token) := by
  obtain ⟨-, hname⟩ := pattern_charData hp
  exact roundTrips_leaf hp hkind hname htoken.shapeToken_tokenShape

/-- The closing of an element: its shape is an empty list, or that of the open element. -/
theorem recovers_closing (hp : grammar.pattern? 11 = some p) {index : Nat}
    {alternative : PatternId} (halternative : [10, 9][index]? = some alternative)
    (h : ∃ shape, Recovers grammar codec alternative t shape) :
    ∃ shape, Recovers grammar codec 11 (.choice p index t) shape := by
  obtain ⟨shape, h⟩ := h
  obtain ⟨hkind, hname, hlabel⟩ := pattern_closing hp
  have hclosing : codec.taggedShape ⟨alternativeName p index, shape⟩ (some closingLabel) =
      taggedShape ⟨(["selfClosing", "open"][index]?).getD (toString index), shape⟩
        (some closingLabel) := by
    simp only [alternativeName, hkind]
    rfl
  match index with
  | 0 =>
    obtain rfl : 10 = alternative := Option.some.inj halternative
    have hshape : codec.taggedShape ⟨alternativeName p 0, shape⟩
        (p.label.bind grammar.labelText?) = .ok (.list []) := by
      rw [hlabel, hclosing]
      rfl
    have htagged : codec.shapeTagged (.list []) (p.label.bind grammar.labelText?) =
        .ok ⟨"selfClosing", .null⟩ := by
      rw [hlabel]
      rfl
    refine ⟨_, recovers_choice hp hkind hname (by decide) halternative h.extract_eq hshape
      (by simp) htagged (by decide) (h.injects _ fun key hkey => ?_)⟩
    exact absurd (Grammar.mem_of_key checkKeys_grammar hkey) (by simp [keys])
  | 1 =>
    obtain rfl : 9 = alternative := Option.some.inj halternative
    obtain ⟨-, hsilent⟩ | ⟨fields, rfl⟩ := h.eq_null_or_object
    · exact absurd (Grammar.eq_true_of_silent checkKeys_grammar hsilent) (by decide)
    · have hindex : alternativeIndex? [10, 9] (some ["selfClosing", "open"]) "open" = some 1 := by
        decide
      have hshape : codec.taggedShape ⟨alternativeName p 1, .object fields⟩
          (p.label.bind grammar.labelText?) = .ok (.object fields) := by
        rw [hlabel, hclosing]
        rfl
      have htagged : codec.shapeTagged (.object fields) (p.label.bind grammar.labelText?) =
          .ok ⟨"open", .object fields⟩ := by
        rw [hlabel]
        rfl
      exact ⟨_, recovers_choice hp hkind hname (by decide) halternative h.extract_eq hshape
        (by simp) htagged hindex (h.injects _ (.refl _ _))⟩
  | index + 2 => simp at halternative

/-- What an element contains: its shape is tagged. -/
theorem roundTrips_content (hp : grammar.pattern? 24 = some p) {index : Nat}
    {alternative : PatternId} (halternative : [22, 21, 23][index]? = some alternative)
    (h : RoundTrips grammar codec alternative t) :
    RoundTrips grammar codec 24 (.choice p index t) := by
  obtain ⟨shape, hextract, hinject⟩ := h
  obtain ⟨hkind, hname, hlabel⟩ := pattern_content hp
  have hindex : alternativeIndex? [22, 21, 23] (some ["charData", "comment", "element"])
      (alternativeName p index) = some index := by
    simp only [alternativeName, hkind]
    match index with
    | 0 | 1 | 2 => decide
    | index + 3 => simp at halternative
  let tagged : Tagged := ⟨alternativeName p index, shape⟩
  have hshape : codec.taggedShape tagged (p.label.bind grammar.labelText?) =
      .ok tagged.toShape := by
    rw [hlabel]
    rfl
  have htagged : codec.shapeTagged tagged.toShape (p.label.bind grammar.labelText?) =
      .ok tagged := by
    rw [hlabel]
    exact Tagged.ofShape_toShape _
  exact roundTrips_choice hp hkind hname halternative hextract hshape htagged hindex hinject

/-- A comment: its shape is its text alone. -/
theorem roundTrips_comment (hp : grammar.pattern? 21 = some p) {ts : List (Tree LexToken)}
    (hts : List.Forall₂ (fun t child => ∃ shape, Recovers grammar codec child t shape) ts
      [18, 19, 20]) : RoundTrips grammar codec 21 (.sequence p ts) := by
  obtain ⟨hkind, hmerges, hselect⟩ := pattern_comment hp
  refine roundTrips_selected hp hkind hmerges hselect (by decide) ?_
    (fun child hchild key hkey => ?_) hts
  · exact Grammar.pairwise_of_check checkKeys_grammar (by decide)
  · have hall : ∀ child ∈ [18, 19, 20], ∀ key ∈ keys child, key = "text" := by decide
    exact hall child hchild key (Grammar.mem_of_key checkKeys_grammar hkey)

end

section

variable {t : Tree LexToken} {id : PatternId}

/-- Contents come back from their shapes, if what is in them does. -/
theorem roundTrips_of_content (hfits : t.Fits grammar id) (hleaves : PlainLeaves t)
    (hid : id ∈ contentIds)
    (ih : ∀ u ∈ t.children, ∀ child, u.Fits grammar child → RoundTrips grammar codec child u ∧
      (child ∉ contentIds → ∃ shape, Recovers grammar codec child u shape)) :
    RoundTrips grammar codec id t := by
  have hp := hfits.pattern?_eq
  simp only [contentIds, List.mem_cons, List.not_mem_nil, or_false] at hid
  obtain rfl | rfl | rfl | rfl := hid
  · have hkind := pattern_contentThunk hp
    have hbody : grammar.ruleBody? 1 = some 24 := ruleBody?_grammar 1
    have hwrapped : t.pattern.kind.wrapped? grammar = some (.thunk, 24) := by
      rw [hkind, PatternKind.wrapped?, hbody]
      rfl
    obtain ⟨u, ht, hu⟩ := hfits.eq_wrapped hp hwrapped
    rw [ht] at ih ⊢
    exact roundTrips_thunk hp hkind hbody (ih u List.mem_cons_self 24 hu).1
  · obtain ⟨ts, ht, hts⟩ := hfits.eq_sequence hp (pattern_comment hp).1
    rw [ht] at ih ⊢
    have hchildren : ∀ child ∈ [18, 19, 20], child ∉ contentIds := by decide
    exact roundTrips_comment hp (forall₂_imp_of_mem_mem
      (fun u hu child hchild hfit => (ih u hu child hfit).2 (hchildren child hchild)) hts)
  · obtain ⟨token, ht⟩ := hfits.eq_leaf hp (pattern_charData hp).1
    rw [ht] at hleaves ⊢
    obtain ⟨htoken, hkind⟩ := hleaves _ List.mem_cons_self
    exact roundTrips_charData hp htoken hkind
  · obtain ⟨index, u, alternative, ht, halternative, hu⟩ :=
      hfits.eq_choice hp (pattern_content hp).1
    rw [ht] at ih ⊢
    exact roundTrips_content hp halternative (ih u List.mem_cons_self alternative hu).1

/-- All other trees come back from their shapes, also from the shape around them. -/
theorem recovers_of_not_content (hfits : t.Fits grammar id) (hleaves : PlainLeaves t)
    (hid : id ∉ contentIds)
    (ih : ∀ u ∈ t.children, ∀ child, u.Fits grammar child → RoundTrips grammar codec child u ∧
      (child ∉ contentIds → ∃ shape, Recovers grammar codec child u shape)) :
    ∃ shape, Recovers grammar codec id t shape := by
  have hrev := reversibleAt_grammar hfits.pattern?_eq hid
  have hparts := not_mem_contentIds hfits.pattern?_eq hid
  cases t with
  | leaf p token =>
    obtain ⟨hp, -⟩ := hfits
    obtain ⟨htoken, hkind⟩ := hleaves (p, token) List.mem_cons_self
    exact recovers_token hp hid htoken hkind
  | sequence p ts =>
    obtain ⟨hp, children, hkind, hts⟩ := Tree.fits_sequence_iff.1 hfits
    refine recovers_sequence hp hkind hrev.select_eq_none (hrev.pairwise_keys _ hkind)
      (forall₂_imp_of_mem_mem (fun u hu child hchild hfit => (ih u hu child hfit).2 ?_) hts)
    refine hparts child ?_
    simpa [Tree.pattern, fieldParts, hkind, PatternKind.children] using hchild
  | choice p index t =>
    obtain ⟨hp, alternatives, mode, names, alternative, hkind, halternative, ht⟩ := hfits
    obtain rfl | rfl := eq_of_choice hp hkind
    · cases (pattern_closing hp).1.symm.trans hkind
      refine recovers_closing hp halternative ((ih t List.mem_cons_self alternative ht).2 ?_)
      refine hparts alternative ?_
      simpa [Tree.pattern, fieldParts, hkind, PatternKind.children] using
        List.mem_of_getElem? halternative
    · exact absurd (by decide) hid
  | many p items separators =>
    obtain ⟨hp, item, separator, hkind, hitems, hlength, hseparators⟩ := Tree.fits_many_iff.1 hfits
    refine recovers_many hp hkind (hrev.many_hasField _ _ hkind)
      (fun s hs => hrev.separator_keyless _ _ (hs ▸ hkind)) (fun t ht => ?_) hlength fun t ht => ?_
    · exact (ih t (List.mem_append_left _ ht) item (hitems t ht)).1
    · obtain ⟨s, rfl, hfit⟩ := hseparators t ht
      refine ⟨s, rfl, (ih t (List.mem_append_right _ ht) s hfit).2 (hparts s ?_)⟩
      simp [Tree.pattern, fieldParts, hkind]
  | absent p =>
    obtain ⟨hp, item, hkind⟩ := hfits
    exact recovers_absent hp hrev hkind
  | present p t =>
    obtain ⟨hp, item, hkind, ht⟩ := hfits
    have hitem : item ∉ contentIds := hparts item (by
      simp [Tree.pattern, fieldParts, hkind, PatternKind.children])
    obtain ⟨shape, h⟩ := (ih t List.mem_cons_self item ht).2 hitem
    exact recovers_present hp hrev hkind h
  | wrapped p t =>
    obtain ⟨hp, wrapper, child, hkind, ht⟩ := hfits
    have hchild : child ∉ contentIds := by
      refine hparts child ?_
      cases hk : p.kind <;>
        simp_all [Tree.pattern, fieldParts, PatternKind.wrapped?, PatternKind.children]
    obtain ⟨shape, h⟩ := (ih t List.mem_cons_self child ht).2 hchild
    cases hk : p.kind with
    | thunk rule =>
      rw [hk] at hkind
      obtain ⟨body, hbody, hpair⟩ := Option.map_eq_some_iff.1 hkind
      obtain rfl : body = child := (Prod.mk.inj hpair).2
      exact recovers_thunk hp hrev hk hbody h
    | _ => exact ⟨shape, recovers_layout hp hkind (by simp [hk]) h⟩
  | mark p =>
    obtain ⟨hp, marker, hkind⟩ := hfits
    exact ⟨.null, recovers_mark hp hkind⟩

end

/-- Trees of plain tokens come back from their shapes. -/
theorem roundTrips_tree {t : Tree LexToken} {id : PatternId} (hfits : t.Fits grammar id)
    (hleaves : PlainLeaves t) : RoundTrips grammar codec id t := by
  suffices h : RoundTrips grammar codec id t ∧
      (id ∉ contentIds → ∃ shape, Recovers grammar codec id t shape) from h.1
  induction t using Tree.childrenInduction generalizing id with
  | h t ih =>
  have ih : ∀ u ∈ t.children, ∀ child, u.Fits grammar child → RoundTrips grammar codec child u ∧
      (child ∉ contentIds → ∃ shape, Recovers grammar codec child u shape) :=
    fun u hu child hchild => ih u hu hchild (hleaves.child hu)
  by_cases hid : id ∈ contentIds
  · exact ⟨roundTrips_of_content hfits hleaves hid ih, fun hnot => absurd hid hnot⟩
  · obtain ⟨shape, h⟩ := recovers_of_not_content hfits hleaves hid ih
    exact ⟨h.roundTrips, fun _ => ⟨shape, h⟩⟩

/-- The leaves of a derivation are plain if the tokens are. -/
theorem plainLeaves_of_derives {tokens : Array LexToken} (hplain : ∀ token ∈ tokens, Plain token)
    {t : Tree LexToken} {id : PatternId} {i j : Nat} (h : t.Derives grammar tokens id i j) :
    PlainLeaves t := by
  intro l hl
  obtain ⟨terminal, hkind, token, htoken, his, hvalue⟩ := Tree.exists_token_of_mem_leaves h hl
  obtain rfl : l.2 = token := hvalue
  obtain rfl : l.2.kind = terminal := eq_of_beq his
  exact ⟨hplain _ htoken, hkind⟩

end Xml

/-- The tree of XML tokens without places has a shape, and its shape gives it back. -/
theorem xml_shape_round_trip {config : ParserConfig} {rule : String} {tokens : List LexToken}
    (hplain : ∀ token ∈ tokens, Xml.Plain token) {t : Tree LexToken}
    (h : { Language.xml with parserConfig := config }.parseTokens rule tokens = .ok t)
    {depth : Nat} (hdepth : t.height ≤ depth) :
    ∃ shape, Language.xml.shapeOf t = .ok shape ∧
      { Language.xml with injectDepth := depth }.inject rule shape = .ok t := by
  obtain ⟨id, hrule, hparse⟩ := bind_eq_ok_iff.1 h
  have hid : Xml.grammar.rule? rule = some id := by
    unfold Language.rule at hrule
    split at hrule
    · rename_i body hbody
      cases hrule
      exact hbody
    · cases hrule
  have hcovers := covers_of_parseOne Xml.built_grammar.closed Xml.distinctLabels_grammar
    (Xml.built_grammar.closed.lt_size_of_rule? hid) (mapError_eq_ok_iff.1 hparse)
  have hleaves : Xml.PlainLeaves t := Xml.plainLeaves_of_derives (by simpa using hplain)
    hcovers.derives
  obtain ⟨shape, hextract, hinject⟩ := Xml.roundTrips_tree (Tree.fits_of_derives hcovers.derives)
    hleaves
  refine ⟨shape, mapError_eq_ok_iff.2 hextract, bind_eq_ok_iff.2 ⟨id, hrule, ?_⟩⟩
  exact mapError_eq_ok_iff.2 (hinject depth hdepth)

/-- The element `<a>x</a>` comes back from its shape. -/
theorem xml_shape_round_trip_charData :
    let tokens : List LexToken := [.bare "<", .valued "name" "a", .bare ">", .valued "charData" "x",
      .bare "</", .valued "name" "a", .bare ">"]
    ∃ t, { Language.xml with parserConfig := ⟨3, 1000⟩ }.parseTokens "element" tokens = .ok t ∧
      ∃ shape, Language.xml.shapeOf t = .ok shape ∧
        { Language.xml with injectDepth := t.height }.inject "element" shape = .ok t := by
  intro tokens
  have hok : ({ Language.xml with parserConfig := ⟨3, 1000⟩ }.parseTokens "element" tokens).isOk =
      true := by decide +kernel
  obtain ⟨t, ht⟩ : ∃ t, { Language.xml with parserConfig := ⟨3, 1000⟩ }.parseTokens "element"
      tokens = .ok t := by
    cases h : { Language.xml with parserConfig := ⟨3, 1000⟩ }.parseTokens "element" tokens with
    | ok t => exact ⟨t, rfl⟩
    | error e =>
      rw [h] at hok
      cases hok
  exact ⟨t, ht, xml_shape_round_trip (by decide) ht le_rfl⟩

end ReversibleGrammar
