/-
Grammars whose shapes say everything but whether an empty list is there.

An option may shape as a list, and as the empty list if it is missing.  Its list is then a
selected field of what stands between two signs.  Besides, a choice or a token may leave no
field of its own, if it is only found where its pattern is given its own shape: in an
alternative, as an item, or under the name of a thunk.

* `Grammar.OptionForm` — the options that there may be;
* `Grammar.Tells` — the class of grammars;
* `Grammar.keysTo`, `silentTo`, `aloneTo` — the tables for the check, to a depth;
* `tells_of_check` — membership in the class, computed.
-/
import ReversibleGrammar.Proofs.Grammar.Keys

namespace ReversibleGrammar

namespace Grammar

/-! ### The class -/

/-- An unnamed token. -/
def IsSign (g : Grammar) (id : PatternId) (terminal : String) : Prop :=
  ∃ p, g.pattern? id = some p ∧ p.kind = .consume terminal ∧ p.name = none

/-- A list between signs, seen through unnamed thunks. -/
inductive Encloses (g : Grammar) (opening closing field : String) : PatternId → Prop
  | sequence {id : PatternId} {p q : Pattern} {first list last item : PatternId}
    {separator : Option PatternId} (hp : g.pattern? id = some p)
    (hkind : p.kind = .sequence [first, list, last]) (hname : p.name = none)
    (hselect : p.select = none) (hfirst : g.IsSign first opening) (hq : g.pattern? list = some q)
    (hmany : q.kind = .many item separator) (hlist : q.name = some field)
    (hlast : g.IsSign last closing) : Encloses g opening closing field id
  | body {id : PatternId} {p : Pattern} {rule : RuleId} {body : PatternId}
    (hp : g.pattern? id = some p) (hkind : p.kind = .thunk rule) (hname : p.name = none)
    (hbody : g.ruleBody? rule = some body) (h : Encloses g opening closing field body) :
    Encloses g opening closing field id

variable (g : Grammar) (alone : PatternId → Bool) (opening closing : String)

/-- The options whose items come back. -/
inductive OptionForm (p : Pattern) (item : PatternId) : Prop
  /-- The item as it is. -/
  | plain {name : String} (hname : p.name = some name) (hmerge : name ≠ mergeName)
    (hselect : p.select = none) (habsent : p.absent = none) (hitem : ¬ g.Silent item)
  /-- What a sequence has under its own name. -/
  | selected {name field : String} {q : Pattern} {children : List PatternId}
    (hname : p.name = some name) (hmerge : name ≠ mergeName) (hselect : p.select = some field)
    (hfield : field ≠ mergeName) (habsent : p.absent = none) (hq : g.pattern? item = some q)
    (hkind : q.kind = .sequence children) (hqname : q.name = some field)
  /-- A list, which is empty if it is missing. -/
  | list {name field : String} (hname : p.name = some name) (hmerge : name ≠ mergeName)
    (hselect : p.select = some field) (hfield : field ≠ mergeName)
    (habsent : p.absent = some (.list [])) (hitem : g.Encloses opening closing field item)

/-- What a pattern has to keep to, where the patterns in `alone` are only given shapes of their
own. -/
structure TellsAt (id : PatternId) (p : Pattern) : Prop where
  token_keeps : ∀ terminal, p.kind = .consume terminal → p.name = some mergeName →
    alone id = true
  choice_named : ∀ alternatives mode names, p.kind = .choice alternatives mode names →
    ∃ name, p.name = some name ∧ (name = mergeName → alone id = true)
  typeNames_nodup : ∀ alternatives mode names, p.kind = .choice alternatives mode names →
    ∃ texts, names = some texts ∧ texts.Nodup
  many_hasField : ∀ item separator, p.kind = .many item separator → p.HasField
  /-- Separators are not kept, so they have nothing to keep. -/
  separator_keyless : ∀ item separator, p.kind = .many item (some separator) →
    alone separator = false ∧ ∀ key, ¬ g.Key separator key
  select_eq_none : ∀ children, p.kind = .sequence children → p.select = none
  children_fields : ∀ children, p.kind = .sequence children → ∀ child ∈ children,
    alone child = false
  /-- No field belongs to two children of a sequence. -/
  pairwise_keys : ∀ children, p.kind = .sequence children →
    children.Pairwise fun a b => ∀ key, g.Key a key → ¬ g.Key b key
  body_keeps : ∀ rule body, p.kind = .thunk rule → p.HasField →
    g.ruleBody? rule = some body → ¬ g.Silent body
  body_alone : ∀ rule body, p.kind = .thunk rule → p.Merges → g.ruleBody? rule = some body →
    alone body = true → alone id = true
  layout_fields : ∀ child, p.kind.layoutChild? = some child → alone child = false
  optionForm : ∀ item, p.kind = .option item → g.OptionForm opening closing p item

/-- Shapes say everything about the trees of the grammar, but whether an empty list is there. -/
def Tells : Prop := ∀ id p, g.pattern? id = some p → g.TellsAt alone opening closing id p

/-! ### Computing the class -/

variable (keys : PatternId → List String) (silent : PatternId → Bool)

/-- Checks for `IsSign`. -/
def checkSign (id : PatternId) (terminal : String) : Bool :=
  (g.pattern? id).any fun p => decide (p.kind = .consume terminal) && p.name.isNone

/-- Checks for `Encloses`, through as many thunks. -/
def checkEncloses (field : String) : Nat → PatternId → Bool
  | 0, _ => false
  | depth + 1, id => (g.pattern? id).any fun p => p.name.isNone &&
    match p.kind with
    | .sequence [first, list, last] => p.select.isNone && g.checkSign first opening &&
      g.checkSign last closing && (g.pattern? list).any fun q =>
        decide (q.name = some field) && match q.kind with
        | .many .. => true
        | _ => false
    | .thunk rule => (g.ruleBody? rule).any (checkEncloses field depth)
    | _ => false

/-- Checks for `OptionForm`. -/
def checkOption (depth : Nat) (p : Pattern) (item : PatternId) : Bool :=
  !decide p.Merges &&
    match p.select, p.absent with
    | none, none => !silent item
    | some field, none => decide (field ≠ mergeName) &&
      (g.pattern? item).any fun q => decide (q.name = some field) && match q.kind with
        | .sequence _ => true
        | _ => false
    | some field, some (.list []) => decide (field ≠ mergeName) &&
      g.checkEncloses opening closing field depth item
    | _, _ => false

/-- Checks a pattern for `TellsAt`, if `keys` and `silent` are right. -/
def checkTellsAt (depth : Nat) (id : PatternId) (p : Pattern) : Bool :=
  match p.kind with
  | .consume _ => decide (p.name ≠ some mergeName) || alone id
  | .choice _ _ names => p.name.isSome && (decide (p.name ≠ some mergeName) || alone id) &&
    names.any fun texts => decide texts.Nodup
  | .many _ separator => !decide p.Merges &&
    separator.all fun s => !alone s && (keys s).isEmpty
  | .sequence children => p.select.isNone && (children.all fun child => !alone child) &&
    decide (children.Pairwise fun a b => ∀ key ∈ keys a, key ∉ keys b)
  | .thunk rule =>
    if p.Merges then alone id || !(g.ruleBody? rule).any alone
    else !(g.ruleBody? rule).any silent
  | .indent child | .group child | .conditional child _ _ _ => !alone child
  | .option item => g.checkOption opening closing silent depth p item
  | .literal _ | .line _ => true

/-- Whether a pattern leaves no field of its own, if `alone` says so of the bodies of rules. -/
def aloneAt (p : Pattern) : Bool :=
  match p.kind with
  | .consume _ | .choice .. => decide (p.name = some mergeName)
  | .thunk rule => decide p.Merges && (g.ruleBody? rule).any alone
  | _ => false

/-- The fields of a pattern, as far as they come from so deep in it. -/
def keysTo : Nat → PatternId → List String
  | 0, _ => []
  | depth + 1, id => (g.pattern? id).toList.flatMap (g.keysAt (keysTo depth))

/-- Whether a pattern leaves nothing, as far as can be seen so deep in it. -/
def silentTo : Nat → PatternId → Bool
  | 0, _ => false
  | depth + 1, id => (g.pattern? id).any (g.silentAt (silentTo depth))

/-- Whether a pattern leaves no field of its own, as far as can be seen so deep in it. -/
def aloneTo : Nat → PatternId → Bool
  | 0, _ => false
  | depth + 1, id => (g.pattern? id).any (g.aloneAt (aloneTo depth))

/-- Checks the tables and each pattern, to a depth. -/
def checkTells (depth : Nat) : Bool :=
  g.checkKeys (g.keysTo depth) (g.silentTo depth) &&
    g.patterns.toList.zipIdx.all fun x =>
      g.checkTellsAt (g.aloneTo depth) opening closing (g.keysTo depth) (g.silentTo depth) depth
        x.2 x.1

variable {g alone opening closing keys silent}

theorem isSign_of_check {id : PatternId} {terminal : String}
    (h : g.checkSign id terminal = true) : g.IsSign id terminal := by
  obtain ⟨p, hp, h⟩ := (Option.any_eq_true _ _).1 h
  simp only [Bool.and_eq_true, decide_eq_true_eq, Option.isNone_iff_eq_none] at h
  exact ⟨p, hp, h⟩

theorem encloses_of_check {field : String} {depth : Nat} {id : PatternId}
    (h : g.checkEncloses opening closing field depth id = true) :
    g.Encloses opening closing field id := by
  induction depth generalizing id with
  | zero => cases h
  | succ depth ih =>
    rw [checkEncloses] at h
    obtain ⟨p, hp, h⟩ := (Option.any_eq_true _ _).1 h
    rw [Bool.and_eq_true, Option.isNone_iff_eq_none] at h
    obtain ⟨hname, h⟩ := h
    split at h
    · rename_i first list last hkind
      simp only [Bool.and_eq_true, Option.isNone_iff_eq_none] at h
      obtain ⟨⟨⟨hselect, hfirst⟩, hlast⟩, h⟩ := h
      obtain ⟨q, hq, h⟩ := (Option.any_eq_true _ _).1 h
      rw [Bool.and_eq_true, decide_eq_true_eq] at h
      obtain ⟨hlist, h⟩ := h
      split at h
      · rename_i hmany
        exact .sequence hp hkind hname hselect (isSign_of_check hfirst) hq hmany hlist
          (isSign_of_check hlast)
      · cases h
    · rename_i rule hkind
      obtain ⟨body, hbody, h⟩ := (Option.any_eq_true _ _).1 h
      exact .body hp hkind hname hbody (ih h)
    · cases h

theorem optionForm_of_check (htables : g.checkKeys keys silent = true) {depth : Nat} {p : Pattern}
    {item : PatternId} (h : g.checkOption opening closing silent depth p item = true) :
    g.OptionForm opening closing p item := by
  rw [checkOption, Bool.and_eq_true] at h
  obtain ⟨hmerges, h⟩ := h
  obtain ⟨name, hname, hmerge⟩ := p.merges_or_hasField.resolve_left (by simpa using hmerges)
  split at h
  · rename_i hselect habsent
    refine .plain hname hmerge hselect habsent fun hsilent => ?_
    rw [eq_true_of_silent htables hsilent] at h
    cases h
  · rename_i field hselect habsent
    rw [Bool.and_eq_true, decide_eq_true_eq] at h
    obtain ⟨hfield, h⟩ := h
    obtain ⟨q, hq, h⟩ := (Option.any_eq_true _ _).1 h
    rw [Bool.and_eq_true, decide_eq_true_eq] at h
    obtain ⟨hqname, h⟩ := h
    split at h
    · rename_i hkind
      exact .selected hname hmerge hselect hfield habsent hq hkind hqname
    · cases h
  · rename_i field hselect habsent
    rw [Bool.and_eq_true, decide_eq_true_eq] at h
    exact .list hname hmerge hselect h.1 habsent (encloses_of_check h.2)
  · cases h

/-- A pattern that passes the check keeps to the rules. -/
theorem tellsAt_of_check (htables : g.checkKeys keys silent = true) {depth : Nat} {id : PatternId}
    {p : Pattern} (h : g.checkTellsAt alone opening closing keys silent depth id p = true) :
    g.TellsAt alone opening closing id p := by
  have hfield (hmerges : (!decide p.Merges) = true) : p.HasField :=
    p.merges_or_hasField.resolve_left (by simpa using hmerges)
  have hlayout (child : PatternId) (hkind : p.kind.layoutChild? = some child) :
      alone child = false := by
    cases hk : p.kind <;> simp_all [checkTellsAt, PatternKind.layoutChild?]
  refine
    { token_keeps := fun terminal hkind hname => ?_
      choice_named := fun alternatives mode names hkind => ?_
      typeNames_nodup := fun alternatives mode names hkind => ?_
      many_hasField := fun item separator hkind => ?_
      separator_keyless := fun item separator hkind => ?_
      select_eq_none := fun children hkind => ?_
      children_fields := fun children hkind child hchild => ?_
      pairwise_keys := fun children hkind => ?_
      body_keeps := fun rule body hkind hname hbody => ?_
      body_alone := fun rule body hkind hmerges hbody halone => ?_
      layout_fields := hlayout
      optionForm := fun item hkind => ?_ } <;>
    simp only [checkTellsAt, hkind, Bool.and_eq_true, Bool.or_eq_true, decide_eq_true_eq] at h
  · exact h.resolve_left fun hne => hne hname
  · obtain ⟨name, hname⟩ := Option.isSome_iff_exists.1 h.1.1
    exact ⟨name, hname, fun heq => h.1.2.resolve_left fun hne => hne (heq ▸ hname)⟩
  · obtain ⟨texts, htexts, hnodup⟩ := (Option.any_eq_true _ _).1 h.2
    exact ⟨texts, htexts, of_decide_eq_true hnodup⟩
  · exact hfield h.1
  · simp only [Option.all_some, Bool.and_eq_true, Bool.not_eq_true', List.isEmpty_iff] at h
    refine ⟨h.2.1, fun key hkey => ?_⟩
    have hmem := mem_of_key htables hkey
    rw [h.2.2] at hmem
    cases hmem
  · exact Option.isNone_iff_eq_none.1 h.1.1
  · simpa using List.all_eq_true.1 h.1.2 child hchild
  · exact pairwise_of_check htables h.2
  · intro hsilent
    rw [if_neg hname.not_merges] at h
    simp [hbody, eq_true_of_silent htables hsilent] at h
  · rw [if_pos hmerges] at h
    simpa [hbody, halone] using h
  · exact optionForm_of_check htables h

/-- A grammar that passes the check is in the class. -/
theorem tells_of_check {depth : Nat} (h : g.checkTells opening closing depth = true) :
    g.Tells (g.aloneTo depth) opening closing := by
  rw [checkTells, Bool.and_eq_true] at h
  intro id p hp
  have hmem : (p, id) ∈ g.patterns.toList.zipIdx := by
    rw [List.mem_zipIdx_iff_getElem?, Array.getElem?_toList]
    exact hp
  exact tellsAt_of_check h.1 (List.all_eq_true.1 h.2 _ hmem)

end Grammar

end ReversibleGrammar
