/-
Grammars whose shapes say everything.

A shape keeps the named parts of a tree.  It says everything about the tree if no part
that matters is without a name, and no two parts of a sequence write under one name.

* `Grammar.Key` — the fields that a pattern can give to the shape around it;
* `Grammar.Silent` — the pattern leaves nothing at all in a shape;
* `Grammar.Reversible` — the class of grammars;
* `reversibleAt_of_check`, `reversible_of_check` — membership in the class, computed.
-/
import ReversibleGrammar.Proofs.Grammar.Derivation
import ReversibleGrammar.Text.Numeral

namespace ReversibleGrammar

/-- The shape of a match takes no field of its own: its fields are those of its parts. -/
def Pattern.Merges (p : Pattern) : Prop := p.name.getD mergeName = mergeName

/-- The shape of a match has a field of its own. -/
def Pattern.HasField (p : Pattern) : Prop := ∃ name, p.name = some name ∧ name ≠ mergeName

instance (p : Pattern) : Decidable p.Merges := inferInstanceAs (Decidable (_ = _))

theorem Pattern.merges_or_hasField (p : Pattern) : p.Merges ∨ p.HasField := by
  cases hname : p.name with
  | none => exact .inl (by rw [Merges, hname]; rfl)
  | some name =>
    by_cases hmerge : name = mergeName
    · exact .inl (by rw [Merges, hname, hmerge]; rfl)
    · exact .inr ⟨name, hname, hmerge⟩

theorem Pattern.HasField.not_merges {p : Pattern} (h : p.HasField) : ¬ p.Merges := by
  obtain ⟨name, hname, hmerge⟩ := h
  rw [Merges, hname]
  exact hmerge

/-- Layout around a child passes the child on. -/
def PatternKind.layoutChild? : PatternKind → Option PatternId
  | indent child => some child
  | group child => some child
  | conditional child _ _ _ => some child
  | _ => none

namespace Grammar

/-- A field that a match of the pattern can give to the shape around it. -/
inductive Key (g : Grammar) : PatternId → String → Prop
  | named {id : PatternId} {p : Pattern} {name : String} (hp : g.pattern? id = some p)
    (hlayout : p.kind.isLayout = false) (hname : p.name = some name) (hmerge : name ≠ mergeName) :
    Key g id name
  | child {id : PatternId} {p : Pattern} {children : List PatternId} {child : PatternId}
    {key : String} (hp : g.pattern? id = some p) (hkind : p.kind = .sequence children)
    (hmerges : p.Merges) (hchild : child ∈ children) (h : Key g child key) : Key g id key
  | body {id : PatternId} {p : Pattern} {rule : RuleId} {body : PatternId} {key : String}
    (hp : g.pattern? id = some p) (hkind : p.kind = .thunk rule) (hmerges : p.Merges)
    (hbody : g.ruleBody? rule = some body) (h : Key g body key) : Key g id key
  | layout {id : PatternId} {p : Pattern} {child : PatternId} {key : String}
    (hp : g.pattern? id = some p) (hkind : p.kind.layoutChild? = some child)
    (h : Key g child key) : Key g id key

/-- Matches of the pattern leave nothing in a shape: it is an unnamed token or a mark, seen
through thunks without a field and through layout. -/
inductive Silent (g : Grammar) : PatternId → Prop
  | token {id : PatternId} {p : Pattern} {terminal : String} (hp : g.pattern? id = some p)
    (hkind : p.kind = .consume terminal) (hname : p.name = none) : Silent g id
  | mark {id : PatternId} {p : Pattern} {marker : Marker} (hp : g.pattern? id = some p)
    (hkind : p.kind.mark? = some marker) : Silent g id
  | body {id : PatternId} {p : Pattern} {rule : RuleId} {body : PatternId}
    (hp : g.pattern? id = some p) (hkind : p.kind = .thunk rule) (hmerges : p.Merges)
    (hbody : g.ruleBody? rule = some body) (h : Silent g body) : Silent g id
  | layout {id : PatternId} {p : Pattern} {child : PatternId} (hp : g.pattern? id = some p)
    (hkind : p.kind.layoutChild? = some child) (h : Silent g child) : Silent g id

/-- What a pattern has to keep to, so that shapes say everything. -/
structure ReversibleAt (g : Grammar) (p : Pattern) : Prop where
  select_eq_none : p.select = none
  absent_eq_none : p.absent = none
  token_keeps : ∀ terminal, p.kind = .consume terminal → p.name ≠ some mergeName
  choice_hasField : ∀ alternatives mode names, p.kind = .choice alternatives mode names →
    p.HasField
  many_hasField : ∀ item separator, p.kind = .many item separator → p.HasField
  option_hasField : ∀ item, p.kind = .option item → p.HasField
  nodup_typeNames : ∀ alternatives mode names, p.kind = .choice alternatives mode (some names) →
    names.Nodup
  /-- Alternatives without type names have numbers, and numbers are machine words. -/
  length_le : ∀ alternatives mode, p.kind = .choice alternatives mode none →
    alternatives.length ≤ Text.naturalLimit
  /-- No field belongs to two children of a sequence. -/
  pairwise_keys : ∀ children, p.kind = .sequence children →
    children.Pairwise fun a b => ∀ key, g.Key a key → ¬ g.Key b key
  body_keeps : ∀ rule body, p.kind = .thunk rule → p.HasField →
    g.ruleBody? rule = some body → ¬ g.Silent body
  item_keeps : ∀ item, p.kind = .option item → ¬ g.Silent item
  /-- Separators are not kept, so they have nothing to keep. -/
  separator_keyless : ∀ item separator, p.kind = .many item (some separator) →
    ∀ key, ¬ g.Key separator key

/-- Shapes say everything about the trees of the grammar. -/
def Reversible (g : Grammar) : Prop := ∀ id p, g.pattern? id = some p → g.ReversibleAt p

/-! ### Computing the class -/

section

variable (g : Grammar) (keys : PatternId → List String) (silent : PatternId → Bool)

/-- The fields of a pattern, if `keys` are those of the patterns in it. -/
def keysAt (p : Pattern) : List String :=
  match p.kind with
  | .sequence children => if p.Merges then children.flatMap keys else p.name.toList
  | .thunk rule => if p.Merges then (g.ruleBody? rule).toList.flatMap keys else p.name.toList
  | .indent child | .group child | .conditional child _ _ _ => keys child
  | .literal _ | .line _ => []
  | .consume _ | .choice .. | .many .. | .option _ => p.name.toList

/-- Whether a pattern leaves nothing, if `silent` says so of the patterns in it. -/
def silentAt (p : Pattern) : Bool :=
  match p.kind with
  | .consume _ => p.name.isNone
  | .literal _ | .line _ => true
  | .thunk rule => decide p.Merges && (g.ruleBody? rule).any silent
  | .indent child | .group child | .conditional child _ _ _ => silent child
  | .sequence _ | .choice .. | .many .. | .option _ => false

/-- `keys` and `silent` are right. -/
def checkKeys : Bool :=
  g.patterns.toList.zipIdx.all fun x =>
    decide (g.keysAt keys x.1 ⊆ keys x.2) && (!g.silentAt silent x.1 || silent x.2)

/-- Checks a pattern for `ReversibleAt`, if `keys` and `silent` are right. -/
def checkReversibleAt (p : Pattern) : Bool :=
  p.select.isNone && p.absent.isNone &&
    match p.kind with
    | .consume _ => decide (p.name ≠ some mergeName)
    | .sequence children =>
      decide (children.Pairwise fun a b => ∀ key ∈ keys a, key ∉ keys b)
    | .choice alternatives _ names => !decide p.Merges &&
      match names with
      | some names => decide names.Nodup
      | none => decide (alternatives.length ≤ Text.naturalLimit)
    | .many _ separator => !decide p.Merges && separator.all fun s => (keys s).isEmpty
    | .option item => !decide p.Merges && !silent item
    | .thunk rule => decide p.Merges || !(g.ruleBody? rule).any silent
    | _ => true

variable {g keys silent}

theorem checkKeys_pattern (h : g.checkKeys keys silent = true) {id : PatternId} {p : Pattern}
    (hp : g.pattern? id = some p) :
    g.keysAt keys p ⊆ keys id ∧ (g.silentAt silent p = true → silent id = true) := by
  have hmem : (p, id) ∈ g.patterns.toList.zipIdx := by
    rw [List.mem_zipIdx_iff_getElem?, Array.getElem?_toList]
    exact hp
  have hcheck := List.all_eq_true.1 h _ hmem
  simp only [Bool.and_eq_true, decide_eq_true_eq] at hcheck
  exact ⟨hcheck.1, fun hsilent => by simpa [hsilent] using hcheck.2⟩

theorem mem_of_key (h : g.checkKeys keys silent = true) {id : PatternId} {key : String}
    (hkey : g.Key id key) : key ∈ keys id := by
  induction hkey with
  | @named id p name hp hlayout hname hmerge =>
    have hnot : ¬ p.Merges := Pattern.HasField.not_merges ⟨name, hname, hmerge⟩
    refine (checkKeys_pattern h hp).1 ?_
    cases hkind : p.kind <;> simp_all [keysAt, PatternKind.isLayout]
  | @child id p children child key hp hkind hmerges hchild _ ih =>
    refine (checkKeys_pattern h hp).1 ?_
    rw [keysAt, hkind]
    simpa only [if_pos hmerges] using List.mem_flatMap.2 ⟨child, hchild, ih⟩
  | @body id p rule body key hp hkind hmerges hbody _ ih =>
    refine (checkKeys_pattern h hp).1 ?_
    rw [keysAt, hkind]
    simpa only [if_pos hmerges, hbody] using List.mem_flatMap.2 ⟨body, by simp, ih⟩
  | @layout id p child key hp hkind _ ih =>
    refine (checkKeys_pattern h hp).1 ?_
    cases hk : p.kind <;> simp_all [keysAt, PatternKind.layoutChild?]

theorem eq_true_of_silent (h : g.checkKeys keys silent = true) {id : PatternId}
    (hsilent : g.Silent id) : silent id = true := by
  induction hsilent with
  | @token id p terminal hp hkind hname =>
    exact (checkKeys_pattern h hp).2 (by simp [silentAt, hkind, hname])
  | @mark id p marker hp hkind =>
    refine (checkKeys_pattern h hp).2 ?_
    cases hk : p.kind <;> simp_all [silentAt, PatternKind.mark?]
  | @body id p rule body hp hkind hmerges hbody _ ih =>
    exact (checkKeys_pattern h hp).2 (by simp [silentAt, hkind, hmerges, hbody, ih])
  | @layout id p child hp hkind _ ih =>
    refine (checkKeys_pattern h hp).2 ?_
    cases hk : p.kind <;> simp_all [silentAt, PatternKind.layoutChild?]

theorem pairwise_of_check (h : g.checkKeys keys silent = true) {children : List PatternId}
    (hcheck : children.Pairwise fun a b => ∀ key ∈ keys a, key ∉ keys b) :
    children.Pairwise fun a b => ∀ key, g.Key a key → ¬ g.Key b key :=
  hcheck.imp fun hdisjoint key ha hb => hdisjoint key (mem_of_key h ha) (mem_of_key h hb)

/-- A pattern that passes the check keeps to the rules. -/
theorem reversibleAt_of_check (h : g.checkKeys keys silent = true) {p : Pattern}
    (hp : g.checkReversibleAt keys silent p = true) : g.ReversibleAt p := by
  obtain ⟨hattributes, hcheck⟩ := Bool.and_eq_true_iff.1 hp
  obtain ⟨hselect, habsent⟩ := Bool.and_eq_true_iff.1 hattributes
  have hfield : (!decide p.Merges) = true → p.HasField := fun hmerges =>
    p.merges_or_hasField.resolve_left (by simpa using hmerges)
  refine
    { select_eq_none := Option.isNone_iff_eq_none.1 hselect
      absent_eq_none := Option.isNone_iff_eq_none.1 habsent
      token_keeps := fun terminal hkind => ?_
      choice_hasField := fun alternatives mode names hkind => ?_
      many_hasField := fun item separator hkind => ?_
      option_hasField := fun item hkind => ?_
      nodup_typeNames := fun alternatives mode names hkind => ?_
      length_le := fun alternatives mode hkind => ?_
      pairwise_keys := fun children hkind => ?_
      body_keeps := fun rule body hkind hname hbody => ?_
      item_keeps := fun item hkind => ?_
      separator_keyless := fun item separator hkind key => ?_ } <;>
    simp only [hkind, Bool.and_eq_true, decide_eq_true_eq] at hcheck
  · exact hcheck
  · exact hfield hcheck.1
  · exact hfield hcheck.1
  · exact hfield hcheck.1
  · exact hcheck.2
  · exact hcheck.2
  · exact pairwise_of_check h hcheck
  · have hnot := hname.not_merges
    intro hsilent
    simp [hnot, hbody, eq_true_of_silent h hsilent] at hcheck
  · intro hsilent
    simp [eq_true_of_silent h hsilent] at hcheck
  · intro hkey
    have hempty := List.isEmpty_iff.1 (by simpa using hcheck.2)
    exact absurd (mem_of_key h hkey) (by simp [hempty])

/-- A grammar whose patterns pass the check is in the class. -/
theorem reversible_of_check (h : g.checkKeys keys silent = true)
    (hall : g.patterns.toList.all (g.checkReversibleAt keys silent) = true) : g.Reversible :=
  fun _ p hp => reversibleAt_of_check h
    (List.all_eq_true.1 hall p (Array.mem_toList_iff.2 (Array.mem_of_getElem? hp)))

end

end Grammar

end ReversibleGrammar
