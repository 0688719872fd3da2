/-
Trees that their shapes give back, kind by kind.

A pattern inside a sequence is given the fields of the whole sequence, or of an even larger
one, to rebuild its tree from.  So the statement about a pattern is not about its own shape
only: any shape will do that agrees with it on the fields that the pattern can have at all.
Where a pattern is given just its own shape, as the items of a repetition are, less is
enough.

* `RoundTrips` — the tree has a shape, and its shape gives it back;
* `Recovers` — so does every shape that agrees with it on the fields of the pattern;
* `recovers_sequence`, `recovers_choice`, `recovers_many` and so on — kind by kind.
-/
import ReversibleGrammar.Proofs.Grammar.Keys
import ReversibleGrammar.Proofs.Shaping.Injection

namespace ReversibleGrammar

variable {ν : Type}

/-- The tree has a shape for the pattern, and its shape gives it back. -/
def RoundTrips (g : Grammar) (codec : ShapeCodec ν) (id : PatternId) (t : Tree ν) : Prop :=
  ∃ shape, t.extract g codec = .ok shape ∧ Injects g codec id shape t

/-- The tree has the shape, and is rebuilt for the pattern from all that agrees with the shape on
the fields that the pattern can have. -/
structure Recovers (g : Grammar) (codec : ShapeCodec ν) (id : PatternId) (t : Tree ν)
    (shape : Shape) : Prop where
  extract_eq : t.extract g codec = .ok shape
  ordered : shape.Ordered
  get?_eq_none : ∀ key, ¬ g.Key id key → shape.get? key = none
  eq_null_or_object : shape = .null ∧ g.Silent id ∨ ∃ fields, shape = .object fields
  injects : ∀ shape', shape'.AgreesOn (g.Key id) shape → Injects g codec id shape' t

section

variable {g : Grammar} {codec : ShapeCodec ν} {id : PatternId} {p : Pattern} {t : Tree ν}
  {shape : Shape}

/-- A pattern without a field of its own looks into the whole shape. -/
theorem Pattern.Merges.fieldOf_eq (h : p.Merges) (shape : Shape) :
    shape.fieldOf (p.name.getD mergeName) = .ok shape := by
  rw [h, Shape.fieldOf, if_pos rfl]

theorem Recovers.silent_of_null (h : Recovers g codec id t .null) : g.Silent id := by
  rcases h.eq_null_or_object with ⟨-, hsilent⟩ | ⟨fields, hfields⟩
  · exact hsilent
  · cases hfields

theorem Recovers.roundTrips (h : Recovers g codec id t shape) : RoundTrips g codec id t :=
  ⟨shape, h.extract_eq, h.injects shape (.refl _ _)⟩

/-- What stands under the own name of a pattern is recovered, if it is from where it is found. -/
theorem recovers_of_named (hp : g.pattern? id = some p) (hlayout : p.kind.isLayout = false)
    {name : String} (hname : p.name = some name) (hmerge : name ≠ mergeName)
    (hextract : t.extract g codec = .ok (.under name shape))
    (hinject : ∀ shape', shape'.getD name = shape → Injects g codec id shape' t) :
    Recovers g codec id t (.under name shape) := by
  have hkey : g.Key id name := .named hp hlayout hname hmerge
  refine ⟨hextract, ?_, fun key hnot => ?_, .inr ⟨_, under_eq hmerge shape⟩,
    fun shape' hagrees => ?_⟩
  · rw [under_eq hmerge]
    exact List.pairwise_singleton _ _
  · have hne : name ≠ key := fun heq => hnot (heq ▸ hkey)
    simp [under_eq hmerge, Shape.get?, Fields.get?, hne]
  · refine hinject shape' ((hagrees name hkey).trans ?_)
    simp [under_eq hmerge, Shape.getD, Shape.get?, Fields.get?]

/-- What is found from anywhere and leaves nothing is recovered. -/
theorem recovers_of_silent (hid : g.Silent id) (hextract : t.extract g codec = .ok .null)
    (hinject : ∀ shape', Injects g codec id shape' t) : Recovers g codec id t .null :=
  ⟨hextract, List.Pairwise.nil, fun _ _ => rfl, .inl ⟨rfl, hid⟩, fun shape' _ => hinject shape'⟩

/-! ### Tokens and marks -/

theorem recovers_leaf (hp : g.pattern? id = some p) {terminal : String}
    (hkind : p.kind = .consume terminal) (hkeeps : p.name ≠ some mergeName) {v : ν}
    (hunnamed : p.name = none → v = codec.terminalToken terminal)
    (hnamed : codec.shapeToken (codec.tokenShape v) terminal = .ok v)
    (hnull : codec.tokenShape v ≠ .null) : ∃ shape, Recovers g codec id (.leaf p v) shape := by
  cases hname : p.name with
  | none =>
    obtain rfl := hunnamed hname
    exact ⟨.null, recovers_of_silent (.token hp hkind hname) (extract_leaf_unnamed hname _)
      fun shape' => injects_leaf_unnamed hp hkind hname shape'⟩
  | some name =>
    have hmerge : name ≠ mergeName := fun heq => hkeeps (heq ▸ hname)
    refine ⟨.under name (codec.tokenShape v), recovers_of_named hp (by rw [hkind]; rfl) hname
      hmerge (extract_leaf_named hname v) fun shape' hfound => ?_⟩
    exact injects_leaf_named hp hkind hname (fieldOf_eq_ok hmerge hfound hnull) hnamed

/-- A named token comes back from its shape, under whatever name. -/
theorem roundTrips_leaf (hp : g.pattern? id = some p) {terminal name : String}
    (hkind : p.kind = .consume terminal) (hname : p.name = some name) {v : ν}
    (hnamed : codec.shapeToken (codec.tokenShape v) terminal = .ok v) :
    RoundTrips g codec id (.leaf p v) :=
  ⟨_, extract_leaf_named hname v,
    injects_leaf_named hp hkind hname (fieldOf_under name _) hnamed⟩

theorem recovers_mark (hp : g.pattern? id = some p) {marker : Marker}
    (hkind : p.kind.mark? = some marker) : Recovers g codec id (.mark p) .null :=
  recovers_of_silent (.mark hp hkind) rfl fun shape' => injects_mark hp hkind shape'

/-! ### Sequences -/

section

variable {children : List PatternId} {parts : List (Tree ν × PatternId × Shape)}

/-- On the fields that a child can have, the fields of all children agree with those of the child
alone. -/
theorem agreesOn_mergeShapes
    (hpairwise : children.Pairwise fun a b => ∀ key, g.Key a key → ¬ g.Key b key)
    (hchildren : parts.map (·.2.1) = children)
    (hparts : ∀ part ∈ parts, Recovers g codec part.2.1 part.1 part.2.2) :
    ∀ part ∈ parts, (Shape.object (mergeShapes (parts.map (·.2.2)))).AgreesOn (g.Key part.2.1)
      part.2.2 := by
  intro part hpart key hkey
  obtain ⟨before, later, rfl⟩ := List.append_of_mem hpart
  rw [← hchildren, List.pairwise_map, List.pairwise_append, List.pairwise_cons] at hpairwise
  obtain ⟨-, ⟨hlater, -⟩, hbefore⟩ := hpairwise
  have hordered : ∀ s ∈ (before ++ part :: later).map (·.2.2), s.Ordered :=
    List.forall_mem_map.2 fun other hother => (hparts other hother).ordered
  rw [List.map_append, List.map_cons] at hordered ⊢
  refine getD_mergeShapes hordered (List.forall_mem_map.2 fun other hother => ?_)
    (List.forall_mem_map.2 fun other hother => ?_)
  · refine (hparts other (List.mem_append_left _ hother)).get?_eq_none key fun hkey' => ?_
    exact hbefore other hother part List.mem_cons_self key hkey' hkey
  · have hmem := List.mem_append_right before (List.mem_cons_of_mem part hother)
    exact (hparts other hmem).get?_eq_none key (hlater other hother key hkey)

theorem forall₂_extract_of_recovers
    (hparts : ∀ part ∈ parts, Recovers g codec part.2.1 part.1 part.2.2) :
    List.Forall₂ (fun t shape => t.extract g codec = .ok shape) (parts.map (·.1))
      (parts.map (·.2.2)) := by
  rw [List.forall₂_map_left_iff, List.forall₂_map_right_iff, List.forall₂_same]
  exact fun part hpart => (hparts part hpart).extract_eq

/-- The children are rebuilt from all that agrees with the fields of the whole on each child's
own. -/
theorem forall₂_injects_of_recovers
    (hpairwise : children.Pairwise fun a b => ∀ key, g.Key a key → ¬ g.Key b key)
    (hchildren : parts.map (·.2.1) = children)
    (hparts : ∀ part ∈ parts, Recovers g codec part.2.1 part.1 part.2.2) {value : Shape}
    (hvalue : ∀ part ∈ parts,
      value.AgreesOn (g.Key part.2.1) (.object (mergeShapes (parts.map (·.2.2))))) :
    List.Forall₂ (fun child t => Injects g codec child value t) children (parts.map (·.1)) := by
  have hmerged := agreesOn_mergeShapes hpairwise hchildren hparts
  rw [← hchildren, List.forall₂_map_left_iff, List.forall₂_map_right_iff, List.forall₂_same]
  exact fun part hpart => (hparts part hpart).injects value
    ((hvalue part hpart).trans (hmerged part hpart) fun _ hkey => hkey)

end

theorem recovers_sequence (hp : g.pattern? id = some p) {children : List PatternId}
    (hkind : p.kind = .sequence children) (hselect : p.select = none)
    (hpairwise : children.Pairwise fun a b => ∀ key, g.Key a key → ¬ g.Key b key)
    {ts : List (Tree ν)}
    (hts : List.Forall₂ (fun t child => ∃ shape, Recovers g codec child t shape) ts children) :
    ∃ shape, Recovers g codec id (.sequence p ts) shape := by
  obtain ⟨parts, rfl, hchildren, hparts⟩ := exists_parts hts
  have hextract := extract_sequence (p := p) (forall₂_extract_of_recovers hparts)
  have hinject := @forall₂_injects_of_recovers _ _ _ _ _ hpairwise hchildren hparts
  set merged := mergeShapes (parts.map (·.2.2)) with hmerged
  rw [sequenceShape, hselect, ← hmerged] at hextract
  rcases p.merges_or_hasField with hmerges | ⟨name, hname, hmerge⟩
  · have hchild : ∀ part ∈ parts, ∀ key, g.Key part.2.1 key → g.Key id key :=
      fun part hpart key hkey =>
        .child hp hkind hmerges (hchildren ▸ List.mem_map_of_mem hpart) hkey
    rw [hmerges, under_mergeName] at hextract
    refine ⟨_, hextract, sorted_mergeShapes _, fun key hnot => ?_, .inr ⟨merged, rfl⟩,
      fun shape' h => ?_⟩
    · refine get?_mergeShapes_of_none ?_ ?_ <;> refine List.forall_mem_map.2 fun part hpart => ?_
      · exact (hparts part hpart).ordered
      · exact (hparts part hpart).get?_eq_none key fun hkey => hnot (hchild part hpart key hkey)
    · refine injects_sequence hp hkind (hmerges.fieldOf_eq shape') ?_
      rw [hselect]
      exact hinject fun part hpart key hkey => h key (hchild part hpart key hkey)
  · rw [hname] at hextract
    refine ⟨_, recovers_of_named hp (by rw [hkind]; rfl) hname hmerge hextract
      fun shape' hfound => ?_⟩
    have hfield : shape'.fieldOf (p.name.getD mergeName) = .ok (.object merged) := by
      rw [hname]
      exact fieldOf_eq_ok hmerge hfound (by simp)
    refine injects_sequence hp hkind hfield ?_
    rw [hselect]
    exact hinject fun _ _ => .refl _ _

/-- A sequence comes back from a selected field, if its children have no other. -/
theorem roundTrips_selected (hp : g.pattern? id = some p) {children : List PatternId}
    (hkind : p.kind = .sequence children) (hmerges : p.Merges) {field : String}
    (hselect : p.select = some field) (hfield : field ≠ mergeName)
    (hpairwise : children.Pairwise fun a b => ∀ key, g.Key a key → ¬ g.Key b key)
    (hkeys : ∀ child ∈ children, ∀ key, g.Key child key → key = field) {ts : List (Tree ν)}
    (hts : List.Forall₂ (fun t child => ∃ shape, Recovers g codec child t shape) ts children) :
    RoundTrips g codec id (.sequence p ts) := by
  obtain ⟨parts, rfl, hchildren, hparts⟩ := exists_parts hts
  have hextract := extract_sequence (p := p) (forall₂_extract_of_recovers hparts)
  rw [sequenceShape, hselect, hmerges, under_mergeName] at hextract
  set selected := (Shape.object (mergeShapes (parts.map (·.2.2)))).getD field with hselected
  refine ⟨selected, hextract, injects_sequence hp hkind (hmerges.fieldOf_eq selected)
    (forall₂_injects_of_recovers hpairwise hchildren hparts fun part hpart key hkey => ?_)⟩
  -- there is only one key to look at
  obtain rfl := hkeys part.2.1 (hchildren ▸ List.mem_map_of_mem hpart) key hkey
  rw [hselect, unselect, under_eq hfield, ← hselected]
  simp [Shape.getD, Shape.get?, Fields.get?]

/-! ### Choices, repetitions and options -/

section

variable {alternatives : List PatternId} {mode : ChoiceMode} {names : Option (List String)}
  {index : Nat} {alternative : PatternId} {name : String} {value : Shape} {tagged : Tagged}

theorem recovers_choice (hp : g.pattern? id = some p)
    (hkind : p.kind = .choice alternatives mode names) (hname : p.name = some name)
    (hmerge : name ≠ mergeName) (halternative : alternatives[index]? = some alternative)
    (hextract : t.extract g codec = .ok value)
    (hshape : codec.taggedShape ⟨alternativeName p index, value⟩ (p.label.bind g.labelText?) =
      .ok shape) (hnull : shape ≠ .null)
    (htagged : codec.shapeTagged shape (p.label.bind g.labelText?) = .ok tagged)
    (hindex : alternativeIndex? alternatives names tagged.kind = some index)
    (ht : Injects g codec alternative tagged.value t) :
    Recovers g codec id (.choice p index t) (.under name shape) := by
  refine recovers_of_named hp (by rw [hkind]; rfl) hname hmerge
    (extract_choice hname hextract hshape) fun shape' hfound => ?_
  exact injects_choice hp hkind hname (fieldOf_eq_ok hmerge hfound hnull) htagged hindex
    halternative ht

/-- A named choice comes back from its shape, under whatever name. -/
theorem roundTrips_choice (hp : g.pattern? id = some p)
    (hkind : p.kind = .choice alternatives mode names) (hname : p.name = some name)
    (halternative : alternatives[index]? = some alternative)
    (hextract : t.extract g codec = .ok value)
    (hshape : codec.taggedShape ⟨alternativeName p index, value⟩ (p.label.bind g.labelText?) =
      .ok shape)
    (htagged : codec.shapeTagged shape (p.label.bind g.labelText?) = .ok tagged)
    (hindex : alternativeIndex? alternatives names tagged.kind = some index)
    (ht : Injects g codec alternative tagged.value t) :
    RoundTrips g codec id (.choice p index t) :=
  ⟨_, extract_choice hname hextract hshape,
    injects_choice hp hkind hname (fieldOf_under name shape) htagged hindex halternative ht⟩

end

theorem recovers_many (hp : g.pattern? id = some p) {item : PatternId}
    {separator : Option PatternId} (hkind : p.kind = .many item separator) (hfield : p.HasField)
    (hkeyless : ∀ s, separator = some s → ∀ key, ¬ g.Key s key) {items separators : List (Tree ν)} (hitems : ∀ t ∈ items, RoundTrips g codec item t)
    (hlength : separators.length = if separator.isSome then items.length - 1 else 0)
    (hseparators : ∀ t ∈ separators, ∃ s, separator = some s ∧
      ∃ shape, Recovers g codec s t shape) :
    ∃ shape, Recovers g codec id (.many p items separators) shape := by
  obtain ⟨name, hname, hmerge⟩ := hfield
  obtain ⟨shapes, hshapes⟩ := exists_forall₂ hitems
  refine ⟨_, recovers_of_named hp (by rw [hkind]; rfl) hname hmerge
    (extract_many hname (hshapes.imp fun _ _ h => h.1)) fun shape' hfound => ?_⟩
  refine injects_many hp hkind hname (fieldOf_eq_ok hmerge hfound (by simp)) ?_ hlength ?_
  · exact hshapes.flip.imp fun shape t h => h.2
  · rintro t ht s rfl
    obtain ⟨s', hs, shape, h⟩ := hseparators t ht
    obtain rfl := Option.some.inj hs
    -- a separator has no field that the empty object would miss
    exact h.injects _ fun key hkey => absurd hkey (hkeyless s rfl key)

/-- A missing item has the shape that the option gives to it. -/
theorem recovers_absent_value (hp : g.pattern? id = some p) {item : PatternId}
    (hkind : p.kind = .option item) {name : String} (hname : p.name = some name)
    (hmerge : name ≠ mergeName)
    (hequal : (p.absent.getD .null).equals (p.absent.getD .null) = true) :
    Recovers g codec id (.absent p) (.under name (p.absent.getD .null)) := by
  refine recovers_of_named hp (by rw [hkind]; rfl) hname hmerge ?_ fun shape' hfound =>
    injects_absent hp hkind hname hmerge (.inl (hfound ▸ hequal))
  simp only [Tree.extract, hname, optionShape, hequal, if_true]
  split <;> rfl

/-- An item comes back from a value that is not that of a missing one. -/
theorem recovers_present_value (hp : g.pattern? id = some p) {item : PatternId}
    (hkind : p.kind = .option item) {name : String} (hname : p.name = some name)
    (hmerge : name ≠ mergeName) {content : Shape} (hextract : t.extract g codec = .ok content)
    (value : Shape) (hvalue : optionShape p name content = .under name value)
    (hdiffers : value.equals (p.absent.getD .null) = false) (hnull : value ≠ .null)
    (hinject : Injects g codec item (unselect p.select value) t) :
    Recovers g codec id (.present p t) (.under name value) := by
  refine recovers_of_named hp (by rw [hkind]; rfl) hname hmerge ?_ fun shape' hfound => ?_
  · simp only [Tree.extract, hname, hextract, hvalue, bind, Except.bind, pure, Except.pure]
  · exact injects_present hp hkind hname hmerge (hfound ▸ hdiffers) (hfound ▸ hnull)
      (hfound ▸ hinject)

theorem recovers_absent (hp : g.pattern? id = some p) (hrev : g.ReversibleAt p) {item : PatternId}
    (hkind : p.kind = .option item) : ∃ shape, Recovers g codec id (.absent p) shape := by
  obtain ⟨name, hname, hmerge⟩ := hrev.option_hasField _ hkind
  refine ⟨_, recovers_absent_value hp hkind hname hmerge ?_⟩
  rw [hrev.absent_eq_none]
  rfl

theorem Shape.equals_null_eq_false {shape : Shape} (h : shape ≠ .null) :
    shape.equals .null = false := by
  cases shape <;> first | rfl | exact absurd rfl h

theorem recovers_present (hp : g.pattern? id = some p) (hrev : g.ReversibleAt p) {item : PatternId}
    (hkind : p.kind = .option item) (ht : Recovers g codec item t shape) :
    ∃ shape, Recovers g codec id (.present p t) shape := by
  obtain ⟨name, hname, hmerge⟩ := hrev.option_hasField _ hkind
  have hnull : shape ≠ .null := fun h => hrev.item_keeps _ hkind (h ▸ ht).silent_of_null
  refine ⟨_, recovers_present_value hp hkind hname hmerge ht.extract_eq shape ?_ ?_ hnull
    ?_⟩
  · rw [optionShape, hrev.select_eq_none]
  · rw [hrev.absent_eq_none]
    exact shape.equals_null_eq_false hnull
  · rw [hrev.select_eq_none]
    exact ht.injects shape (.refl _ _)

/-! ### Thunks and layout -/

/-- A thunk comes back from its shape if its body does. -/
theorem roundTrips_thunk (hp : g.pattern? id = some p) {rule : RuleId}
    (hkind : p.kind = .thunk rule) {body : PatternId} (hbody : g.ruleBody? rule = some body)
    (ht : RoundTrips g codec body t) : RoundTrips g codec id (.wrapped p t) := by
  obtain ⟨shape, hextract, hinject⟩ := ht
  exact ⟨_, extract_thunk hkind hextract,
    injects_thunk hp hkind hbody (fieldOf_under (p.name.getD mergeName) shape) hinject⟩

/-- Under its own name, a thunk needs no more than the shape of its body. -/
theorem recovers_thunk_named (hp : g.pattern? id = some p) {rule : RuleId}
    (hkind : p.kind = .thunk rule) (hfield : p.HasField) {body : PatternId}
    (hbody : g.ruleBody? rule = some body) (hextract : t.extract g codec = .ok shape)
    (hnull : shape ≠ .null) (hinject : Injects g codec body shape t) :
    ∃ shape, Recovers g codec id (.wrapped p t) shape := by
  obtain ⟨name, hname, hmerge⟩ := hfield
  have hextract := extract_thunk hkind hextract
  rw [hname] at hextract
  refine ⟨_, recovers_of_named hp (by rw [hkind]; rfl) hname hmerge hextract
    fun shape' hfound => injects_thunk hp hkind hbody ?_ hinject⟩
  rw [hname]
  exact fieldOf_eq_ok hmerge hfound hnull

theorem recovers_thunk_merged (hp : g.pattern? id = some p) {rule : RuleId}
    (hkind : p.kind = .thunk rule) (hmerges : p.Merges) {body : PatternId}
    (hbody : g.ruleBody? rule = some body) (ht : Recovers g codec body t shape) :
    Recovers g codec id (.wrapped p t) shape := by
  refine ⟨?_, ht.ordered, fun key hnot => ?_,
    ht.eq_null_or_object.imp_left (And.imp_right (.body hp hkind hmerges hbody)),
    fun shape' hagrees => ?_⟩
  · rw [extract_thunk hkind ht.extract_eq, hmerges, under_mergeName]
  · exact ht.get?_eq_none key fun hkey => hnot (.body hp hkind hmerges hbody hkey)
  · exact injects_thunk hp hkind hbody (hmerges.fieldOf_eq shape') (ht.injects shape'
      fun key hkey => hagrees key (.body hp hkind hmerges hbody hkey))

theorem recovers_thunk (hp : g.pattern? id = some p) (hrev : g.ReversibleAt p) {rule : RuleId}
    (hkind : p.kind = .thunk rule) {body : PatternId} (hbody : g.ruleBody? rule = some body)
    (ht : Recovers g codec body t shape) : ∃ shape, Recovers g codec id (.wrapped p t) shape := by
  rcases p.merges_or_hasField with hmerges | hfield
  · exact ⟨shape, recovers_thunk_merged hp hkind hmerges hbody ht⟩
  · have hnull : shape ≠ .null := fun h =>
      hrev.body_keeps _ _ hkind hfield hbody (h ▸ ht).silent_of_null
    exact recovers_thunk_named hp hkind hfield hbody ht.extract_eq hnull
      (ht.injects shape (.refl _ _))

theorem recovers_layout (hp : g.pattern? id = some p) {wrapper : Wrapper} {child : PatternId}
    (hkind : p.kind.wrapped? g = some (wrapper, child)) (hthunk : ∀ rule, p.kind ≠ .thunk rule)
    (ht : Recovers g codec child t shape) : Recovers g codec id (.wrapped p t) shape := by
  have hlayout : p.kind.layoutChild? = some child := by
    cases hk : p.kind with
    | thunk rule => exact absurd hk (hthunk rule)
    | _ =>
      rw [hk] at hkind
      cases hkind
      try rfl
  refine ⟨extract_layout hthunk ht.extract_eq, ht.ordered, fun key hnot => ?_,
    ht.eq_null_or_object.imp_left (And.imp_right (.layout hp hlayout)), fun shape' hagrees => ?_⟩
  · exact ht.get?_eq_none key fun hkey => hnot (.layout hp hlayout hkey)
  · refine injects_layout hp hkind hthunk (ht.injects shape' ?_)
    exact fun key hkey => hagrees key (.layout hp hlayout hkey)

end

end ReversibleGrammar
