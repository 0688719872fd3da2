/-
Shapes that say everything but whether an empty list is there.

Over the grammars of `Grammar.Tells`, a list that is there and empty has the shape of one that
is missing.  Without such lists a tree has the same shape, and this shape gives it back.

* `Tree.dropEmpty`, `Tree.Filled` — the tree without empty lists, and trees that have none;
* `extract_dropEmpty` — a tree has the same shape without its empty lists;
* `returns_of_filled` — trees without empty lists come back;
* `exists_shape_dropEmpty` — so that every tree comes back without its empty lists;
* `filled_of_isChain` — a tree whose signs are never neighbours has no empty list.
-/
import Mathlib.Logic.Relation
import ReversibleGrammar.Proofs.Grammar.Built
import ReversibleGrammar.Proofs.Grammar.Omission
import ReversibleGrammar.Proofs.Shaping.RoundTrip
import ReversibleGrammar.Tree.Document

namespace ReversibleGrammar

variable {ν : Type}

/-! ### Empty lists -/

namespace Tree

/-- An item that is no empty list, where the option has a list at all. -/
def holdsList (p : Pattern) (item : Tree ν) : Bool :=
  p.absent.isNone || item.holdsTruthy (p.select.getD mergeName)

mutual

/-- The tree with its empty lists missing. -/
def dropEmpty : Tree ν → Tree ν
  | leaf p v => leaf p v
  | sequence p ts => sequence p (dropEmptyAll ts)
  | choice p index t => choice p index t.dropEmpty
  | many p items separators => many p (dropEmptyAll items) (dropEmptyAll separators)
  | absent p => absent p
  | present p item => if holdsList p item then present p item.dropEmpty else absent p
  | wrapped p t => wrapped p t.dropEmpty
  | mark p => mark p

/-- The trees with their empty lists missing. -/
def dropEmptyAll : List (Tree ν) → List (Tree ν)
  | [] => []
  | t :: ts => t.dropEmpty :: dropEmptyAll ts

end

theorem dropEmptyAll_eq_map (ts : List (Tree ν)) : dropEmptyAll ts = ts.map dropEmpty := by
  induction ts with
  | nil => rfl
  | cons t ts ih => rw [dropEmptyAll, ih, List.map_cons]

/-- No list in the tree is there and empty. -/
def Filled (t : Tree ν) : Prop :=
  ∀ u, Relation.ReflTransGen (fun t u => u ∈ t.children) t u →
    ∀ p item, u = present p item → holdsList p item = true

theorem Filled.child {t u : Tree ν} (h : t.Filled) (hu : u ∈ t.children) : u.Filled :=
  fun v hv => h v (.head hu hv)

theorem filled_iff {t : Tree ν} : t.Filled ↔
    (∀ p item, t = present p item → holdsList p item = true) ∧ ∀ u ∈ t.children, u.Filled := by
  refine ⟨fun h => ⟨h t .refl, fun u hu => h.child hu⟩, fun ⟨hroot, hchildren⟩ u hu => ?_⟩
  rcases hu.cases_head with rfl | ⟨v, hv, hu⟩
  · exact hroot
  · exact hchildren v hv u hu

/-- The tree encloses a list with these items, without giving it another name. -/
inductive Lists (field : String) : Tree ν → List (Tree ν) → Prop
  | sequence {p first q last : Pattern} {v w : ν} {items separators : List (Tree ν)}
    (hname : p.name = none) (hselect : p.select = none) (hfirst : first.name = none)
    (hlist : q.name = some field) (hlast : last.name = none) :
    Lists field (.sequence p [.leaf first v, .many q items separators, .leaf last w]) items
  | wrapped {p : Pattern} {rule : RuleId} {t : Tree ν} {items : List (Tree ν)}
    (hname : p.name = none) (hkind : p.kind = .thunk rule) (h : Lists field t items) :
    Lists field (.wrapped p t) items

namespace Lists

variable {field : String} {t : Tree ν} {items : List (Tree ν)}

theorem findNamed? (h : Lists field t items) : ∃ q separators,
    t.findNamed? field = some (.many q items separators) := by
  induction h with
  | @sequence p first q last v w items separators hname hselect hfirst hlist hlast =>
    exact ⟨q, separators, by simp [Tree.findNamed?, findNamedIn?, hname, hfirst, hlist]⟩
  | wrapped hname hkind h ih => simpa [Tree.findNamed?, hname] using ih

theorem holdsTruthy (h : Lists field t items) : t.holdsTruthy field = !items.isEmpty := by
  obtain ⟨q, separators, hfind⟩ := h.findNamed?
  rw [Tree.holdsTruthy, hfind]
  rfl

theorem dropEmpty (h : Lists field t items) : Lists field t.dropEmpty (dropEmptyAll items) := by
  induction h with
  | sequence hname hselect hfirst hlist hlast => exact .sequence hname hselect hfirst hlist hlast
  | wrapped hname hkind h ih => exact .wrapped hname hkind ih

/-- The shape has the shapes of the items under the name of the list. -/
theorem extract_eq (h : Lists field t items) (hfield : field ≠ mergeName) (g : Grammar)
    (codec : ShapeCodec ν) : t.extract g codec =
      (extractAll g codec items).map fun shapes => .under field (.list shapes) := by
  induction h with
  | @sequence p first q last v w items separators hname hselect hfirst hlist hlast =>
    have hwhole (shapes : List Shape) : sequenceShape p
        [.null, .under field (.list shapes), .null] = .under field (.list shapes) := by
      rw [sequenceShape, hname, hselect, under_eq hfield]
      simp [mergeShapes, Fields.merge, Fields.insert, Shape.isNull, Shape.under]
    cases hitems : extractAll g codec items with
    | error e => simp [extract, extractAll, hfirst, hitems, bind, Except.bind, Except.map]
    | ok shapes =>
      simp [extract, extractAll, hfirst, hitems, hlist, hlast, hwhole, bind, Except.bind, pure,
        Except.pure, Except.map]
  | @wrapped p rule t items hname hkind h ih =>
    rw [extract, ih, hkind, hname]
    cases extractAll g codec items <;>
      simp [bind, Except.bind, pure, Except.pure, Except.map, under_mergeName]

end Lists

end Tree

section

variable {g : Grammar} {codec : ShapeCodec ν} {alone : PatternId → Bool} {opening closing : String}
  {id : PatternId} {t : Tree ν}

/-- What fits a pattern that encloses a list encloses the items of one, and without items holds
the two signs only. -/
theorem Grammar.Encloses.lists {field : String} (h : g.Encloses opening closing field id)
    (hfits : t.Fits g id) : ∃ items, t.Lists field items ∧
      (items = [] → ∃ first last v w, t.values = [v, w] ∧ (first, v) ∈ t.leaves ∧
        first.kind = .consume opening ∧ (last, w) ∈ t.leaves ∧ last.kind = .consume closing) := by
  induction h generalizing t with
  | @sequence id p q first list last item separator hp hkind hname hselect hfirst hq hmany hlist
      hlast =>
    obtain ⟨ts, rfl, hts⟩ := hfits.eq_sequence hp hkind
    obtain _ | ⟨ht₁, _ | ⟨ht₂, _ | ⟨ht₃, _ | _⟩⟩⟩ := hts
    obtain ⟨p₁, hp₁, hkind₁, hname₁⟩ := hfirst
    obtain ⟨p₃, hp₃, hkind₃, hname₃⟩ := hlast
    obtain ⟨v, rfl⟩ := ht₁.eq_leaf hp₁ hkind₁
    obtain ⟨w, rfl⟩ := ht₃.eq_leaf hp₃ hkind₃
    obtain ⟨items, separators, rfl, -, hlength, -⟩ := ht₂.eq_many hq hmany
    refine ⟨items, .sequence hname hselect hname₁ hlist hname₃, ?_⟩
    rintro rfl
    obtain rfl : separators = [] := by
      refine List.length_eq_zero_iff.1 (hlength.trans ?_)
      split <;> rfl
    exact ⟨p₁, p₃, v, w, rfl, by simp [Tree.leaves, Tree.leavesAll], hkind₁,
      by simp [Tree.leaves, Tree.leavesAll], hkind₃⟩
  | body hp hkind hname hbody h ih =>
    obtain ⟨u, rfl, hu⟩ := hfits.eq_wrapped hp (by rw [hkind, PatternKind.wrapped?, hbody]; rfl)
    obtain ⟨items, hlists, hempty⟩ := ih hu
    exact ⟨items, .wrapped hname hkind hlists, hempty⟩

/-! ### Shapes without empty lists -/

namespace Tree

theorem holdsList_eq {p : Pattern} {item : Tree ν} {field : String} {items : List (Tree ν)}
    (h : item.Lists field items) (hselect : p.select = some field)
    (habsent : p.absent = some (.list [])) : holdsList p item = !items.isEmpty := by
  rw [holdsList, hselect, habsent]
  exact h.holdsTruthy

/-- The parts of a tree without its empty lists fit what they did. -/
theorem fits_dropEmpty (h : t.Fits g id) : t.dropEmpty.Fits g id := by
  induction t using childrenInduction generalizing id with
  | h t ih =>
  cases t with
  | leaf | absent | mark => exact h
  | sequence p ts =>
    obtain ⟨hp, children, hkind, hts⟩ := fits_sequence_iff.1 h
    refine fits_sequence_iff.2 ⟨hp, children, hkind, ?_⟩
    rw [dropEmptyAll_eq_map, List.forall₂_map_left_iff]
    exact forall₂_imp_of_mem (fun t ht child hchild => ih t ht hchild) hts
  | choice p index t =>
    obtain ⟨hp, alternatives, mode, names, alternative, hkind, halternative, ht⟩ := h
    exact ⟨hp, alternatives, mode, names, alternative, hkind, halternative,
      ih t List.mem_cons_self ht⟩
  | many p items separators =>
    obtain ⟨hp, item, separator, hkind, hitems, hlength, hseparators⟩ := fits_many_iff.1 h
    refine fits_many_iff.2 ⟨hp, item, separator, hkind, ?_, ?_, ?_⟩
    · rw [dropEmptyAll_eq_map, List.forall_mem_map]
      exact fun t ht => ih t (List.mem_append_left _ ht) (hitems t ht)
    · simpa only [dropEmptyAll_eq_map, List.length_map] using hlength
    · rw [dropEmptyAll_eq_map, List.forall_mem_map]
      intro t ht
      obtain ⟨s, hs, hfit⟩ := hseparators t ht
      exact ⟨s, hs, ih t (List.mem_append_right _ ht) hfit⟩
  | present p item =>
    obtain ⟨hp, child, hkind, hitem⟩ := h
    rw [dropEmpty]
    split
    · exact ⟨hp, child, hkind, ih item List.mem_cons_self hitem⟩
    · exact ⟨hp, child, hkind⟩
  | wrapped p t =>
    obtain ⟨hp, wrapper, child, hkind, ht⟩ := h
    exact ⟨hp, wrapper, child, hkind, ih t List.mem_cons_self ht⟩

theorem height_dropEmpty_le (t : Tree ν) : t.dropEmpty.height ≤ t.height := by
  induction t using childrenInduction with
  | h t ih =>
  have hall {ts : List (Tree ν)} (hts : ∀ u ∈ ts, u ∈ t.children) :
      heightAll (dropEmptyAll ts) ≤ heightAll ts := by
    induction ts with
    | nil => exact Nat.le_refl _
    | cons u ts ihts =>
      obtain ⟨hu, hts⟩ := List.forall_mem_cons.1 hts
      exact max_le_max (ih u hu) (ihts hts)
  cases t with
  | leaf | absent | mark => exact Nat.le_refl _
  | sequence p ts => exact Nat.succ_le_succ (hall fun _ hu => hu)
  | choice p index t | wrapped p t => exact Nat.succ_le_succ (ih t List.mem_cons_self)
  | many p items separators =>
    exact Nat.succ_le_succ (max_le_max (hall fun _ hu => List.mem_append_left _ hu)
      (hall fun _ hu => List.mem_append_right _ hu))
  | present p item =>
    rw [dropEmpty]
    split
    · exact Nat.succ_le_succ (ih item List.mem_cons_self)
    · exact Nat.succ_pos _

/-- The leaves of a tree without its empty lists are among those of the tree. -/
theorem mem_leaves_of_mem_dropEmpty {l : Pattern × ν} (h : l ∈ t.dropEmpty.leaves) :
    l ∈ t.leaves := by
  induction t using childrenInduction with
  | h t ih =>
  have hall {ts : List (Tree ν)} (hts : ∀ u ∈ ts, u ∈ t.children)
      (h : l ∈ leavesAll (dropEmptyAll ts)) : l ∈ leavesAll ts := by
    rw [dropEmptyAll_eq_map] at h
    obtain ⟨_, hu, hl⟩ := mem_leavesAll.1 h
    obtain ⟨u, hmem, rfl⟩ := List.mem_map.1 hu
    exact mem_leavesAll.2 ⟨u, hmem, ih u (hts u hmem) hl⟩
  cases t with
  | leaf | absent | mark => exact h
  | sequence p ts => exact hall (fun _ hu => hu) h
  | choice p index t => exact ih t List.mem_cons_self h
  | many p items separators =>
    rcases List.mem_append.1 h with h | h
    · exact List.mem_append_left _ (hall (fun _ hu => List.mem_append_left _ hu) h)
    · exact List.mem_append_right _ (hall (fun _ hu => List.mem_append_right _ hu) h)
  | present p item =>
    rw [dropEmpty] at h
    split at h
    · exact ih item List.mem_cons_self h
    · cases h
  | wrapped p t => exact ih t List.mem_cons_self h

/-- A tree has the same shape without its empty lists. -/
theorem extract_dropEmpty (hg : g.Tells alone opening closing) (codec : ShapeCodec ν)
    (h : t.Fits g id) : t.dropEmpty.extract g codec = t.extract g codec := by
  induction t using childrenInduction generalizing id with
  | h t ih =>
  have hone {u : Tree ν} (hu : u ∈ t.children) : u.dropEmpty.extract g codec = u.extract g codec :=
    have ⟨_, hfits⟩ := exists_fits_of_mem_children h hu
    ih u hu hfits
  have hall {ts : List (Tree ν)} (hts : ∀ u ∈ ts, u ∈ t.children) :
      extractAll g codec (dropEmptyAll ts) = extractAll g codec ts := by
    induction ts with
    | nil => rfl
    | cons u ts ihts =>
      obtain ⟨hu, hts⟩ := List.forall_mem_cons.1 hts
      rw [dropEmptyAll, extractAll, extractAll, hone hu, ihts hts]
  cases t with
  | leaf | absent | mark => rfl
  | sequence p ts => rw [dropEmpty, extract, extract, @hall ts fun _ hu => hu]
  | choice p index t => rw [dropEmpty, extract, extract, hone List.mem_cons_self]
  | many p items separators =>
    rw [dropEmpty, extract, extract, @hall items fun _ hu => List.mem_append_left _ hu]
  | wrapped p t => rw [dropEmpty, extract, extract, hone List.mem_cons_self]
  | present p item =>
    obtain ⟨hp, child, hkind, hitem⟩ := h
    rw [dropEmpty]
    split
    · rw [extract, extract, hone List.mem_cons_self]
    · rename_i hempty
      -- the list is there and empty, and this is the shape of a missing one
      cases (hg id p hp).optionForm child hkind with
      | plain hname hmerge hselect habsent | selected hname hmerge hselect hfield habsent =>
        rw [holdsList, habsent] at hempty
        exact absurd rfl hempty
      | @list name field hname hmerge hselect hfield habsent hencloses =>
        obtain ⟨items, hlists, -⟩ := hencloses.lists hitem
        rw [holdsList_eq hlists hselect habsent, Bool.not_eq_true', Bool.not_eq_false,
          List.isEmpty_iff] at hempty
        subst hempty
        have hextract : item.extract g codec = .ok (.object [(field, .list [])]) := by
          rw [hlists.extract_eq hfield, extractAll, Except.map, under_eq hfield]
        have hdefault : p.absent.getD .null = .list [] := by
          rw [habsent]
          rfl
        have hpresent :
            optionShape p name (.object [(field, .list [])]) = .under name (.list []) := by
          rw [optionShape, hselect, hdefault]
          simp [Shape.equals, Shape.getD, Shape.get?, Fields.get?]
        have hmissing : optionShape p name (.list []) = .under name (.list []) := by
          rw [optionShape, hselect, hdefault]
          rfl
        simp only [extract, hname, hextract, hpresent, hdefault, hmissing, bind, Except.bind,
          pure, Except.pure]

/-- No empty list is left. -/
theorem filled_dropEmpty (hg : g.Tells alone opening closing) (h : t.Fits g id) :
    t.dropEmpty.Filled := by
  induction t using childrenInduction generalizing id with
  | h t ih =>
  have hone {u : Tree ν} (hu : u ∈ t.children) : u.dropEmpty.Filled :=
    have ⟨_, hfits⟩ := exists_fits_of_mem_children h hu
    ih u hu hfits
  have hall {ts : List (Tree ν)} (hts : ∀ u ∈ ts, u ∈ t.children) :
      ∀ v ∈ dropEmptyAll ts, v.Filled := by
    rw [dropEmptyAll_eq_map, List.forall_mem_map]
    exact fun u hu => hone (hts u hu)
  have hother {u : Tree ν} (hroot : ∀ p item, u ≠ present p item)
      (hchildren : ∀ v ∈ u.children, v.Filled) : u.Filled :=
    filled_iff.2 ⟨fun p item heq => absurd heq (hroot p item), hchildren⟩
  cases t with
  | leaf | absent | mark => exact hother (by simp [dropEmpty]) (List.forall_mem_nil _)
  | sequence p ts => exact hother (by simp [dropEmpty]) (hall fun _ hu => hu)
  | choice p index t | wrapped p t =>
    exact hother (by simp [dropEmpty]) (List.forall_mem_singleton.2 (hone List.mem_cons_self))
  | many p items separators =>
    exact hother (by simp [dropEmpty]) (List.forall_mem_append.2
      ⟨hall fun _ hu => List.mem_append_left _ hu, hall fun _ hu => List.mem_append_right _ hu⟩)
  | present p item =>
    obtain ⟨hp, child, hkind, hitem⟩ := h
    rw [dropEmpty]
    split
    · rename_i hholds
      refine filled_iff.2 ⟨?_, List.forall_mem_singleton.2 (hone List.mem_cons_self)⟩
      rintro p' item' heq
      obtain ⟨rfl, rfl⟩ := present.inj heq
      cases (hg id p hp).optionForm child hkind with
      | plain hname hmerge hselect habsent | selected hname hmerge hselect hfield habsent =>
        rw [holdsList, habsent]
        rfl
      | list hname hmerge hselect hfield habsent hencloses =>
        -- the list has as many items as before
        obtain ⟨items, hlists, -⟩ := hencloses.lists hitem
        rw [holdsList_eq hlists hselect habsent] at hholds
        rw [holdsList_eq hlists.dropEmpty hselect habsent, dropEmptyAll_eq_map, List.isEmpty_map]
        exact hholds
    · exact hother (by simp) (List.forall_mem_nil _)

/-- A tree without empty lists is left as it is. -/
theorem dropEmpty_of_filled (h : t.Filled) : t.dropEmpty = t := by
  induction t using childrenInduction with
  | h t ih =>
  have hall {ts : List (Tree ν)} (hts : ∀ u ∈ ts, u ∈ t.children) : dropEmptyAll ts = ts := by
    rw [dropEmptyAll_eq_map]
    exact (List.map_congr_left fun u hu => ih u (hts u hu) (h.child (hts u hu))).trans
      (List.map_id ts)
  have hone {u : Tree ν} (hu : u ∈ t.children) : u.dropEmpty = u := ih u hu (h.child hu)
  cases t with
  | leaf | absent | mark => rfl
  | sequence p ts => rw [dropEmpty, @hall ts fun _ hu => hu]
  | choice p index t => rw [dropEmpty, hone List.mem_cons_self]
  | many p items separators =>
    rw [dropEmpty, hall fun _ hu => List.mem_append_left _ hu,
      hall fun _ hu => List.mem_append_right _ hu]
  | wrapped p t => rw [dropEmpty, hone List.mem_cons_self]
  | present p item =>
    rw [dropEmpty, if_pos ((filled_iff.1 h).1 p item rfl), hone List.mem_cons_self]

end Tree

/-! ### Trees without empty lists -/

/-- How the leaves of a tree come back: those without a name from their terminal, and the others
from their shapes, which are not null. -/
def Tree.ReadBack (codec : ShapeCodec ν) (t : Tree ν) : Prop :=
  ∀ l ∈ t.leaves, ∀ terminal, l.1.kind = .consume terminal →
    (l.1.name = none → l.2 = codec.terminalToken terminal) ∧
      codec.shapeToken (codec.tokenShape l.2) terminal = .ok l.2 ∧ codec.tokenShape l.2 ≠ .null

/-- The tree comes back from its shape, which is null only if the pattern leaves nothing. -/
def Returns (g : Grammar) (codec : ShapeCodec ν) (id : PatternId) (t : Tree ν) : Prop :=
  ∃ shape, t.extract g codec = .ok shape ∧ (shape = .null → g.Silent id) ∧
    Injects g codec id shape t

theorem Recovers.returns {shape : Shape} (h : Recovers g codec id t shape) :
    Returns g codec id t :=
  ⟨shape, h.extract_eq, fun hnull => (hnull ▸ h).silent_of_null, h.injects shape (.refl _ _)⟩

/-- The shape of a list that is there and not empty. -/
theorem exists_cons_of_extract {field : String} {item : Tree ν} {items : List (Tree ν)}
    (h : item.Lists field items) (hfield : field ≠ mergeName) (hitems : items ≠ []) {shape : Shape}
    (hshape : item.extract g codec = .ok shape) :
    ∃ first rest, shape = .object [(field, .list (first :: rest))] := by
  obtain ⟨t, ts, rfl⟩ := List.exists_cons_of_ne_nil hitems
  rw [h.extract_eq hfield, map_eq_ok_iff] at hshape
  obtain ⟨shapes, hshapes, rfl⟩ := hshape
  obtain ⟨first, -, hshapes⟩ := bind_eq_ok_iff.1 hshapes
  obtain ⟨rest, -, hshapes⟩ := bind_eq_ok_iff.1 hshapes
  cases hshapes
  exact ⟨first, rest, under_eq hfield _⟩

section

variable {p : Pattern} {child : PatternId} {shape : Shape}

/-- An option comes back, unless it is an empty list. -/
theorem recovers_option (hg : g.Tells alone opening closing) (hp : g.pattern? id = some p)
    (hkind : p.kind = .option child) (hfits : t.Fits g child)
    (hholds : Tree.holdsList p t = true) (ht : Returns g codec child t) :
    ∃ shape, Recovers g codec id (.present p t) shape := by
  obtain ⟨content, hextract, hnull, hinject⟩ := ht
  cases (hg id p hp).optionForm child hkind with
  | plain hname hmerge hselect habsent hitem =>
    have hcontent : content ≠ .null := fun h => hitem (hnull h)
    refine ⟨_, recovers_present_value hp hkind hname hmerge hextract content ?_ ?_ hcontent
      ?_⟩
    · rw [optionShape, hselect]
    · rw [habsent]
      exact content.equals_null_eq_false hcontent
    · rw [hselect]
      exact hinject
  | @selected name field q children hname hmerge hselect hfield habsent hq hqkind hqname =>
    obtain ⟨ts, rfl, -⟩ := hfits.eq_sequence hq hqkind
    obtain ⟨shapes, -, hshape⟩ := bind_eq_ok_iff.1 hextract
    obtain rfl : sequenceShape q shapes = content := Except.ok.inj hshape
    have hcontent : sequenceShape q shapes = .object [(field, .object (mergeShapes shapes))] := by
      rw [sequenceShape, (hg child q hq).select_eq_none _ hqkind, hqname]
      exact under_eq hfield _
    rw [hcontent] at hextract hinject
    refine ⟨_, recovers_present_value hp hkind hname hmerge hextract
      (.object (mergeShapes shapes)) ?_ ?_ (by simp) ?_⟩
    · rw [optionShape, hselect, habsent]
      simp [Shape.equals, Shape.getD, Shape.get?, Fields.get?]
    · rw [habsent]
      rfl
    · rwa [hselect, unselect, under_eq hfield]
  | @list name field hname hmerge hselect hfield habsent hencloses =>
    obtain ⟨items, hlists, -⟩ := hencloses.lists hfits
    rw [Tree.holdsList_eq hlists hselect habsent, Bool.not_eq_true', List.isEmpty_eq_false_iff]
      at hholds
    obtain ⟨first, rest, rfl⟩ := exists_cons_of_extract hlists hfield hholds hextract
    refine ⟨_, recovers_present_value hp hkind hname hmerge hextract
      (.list (first :: rest)) ?_ ?_ (by simp) ?_⟩
    · rw [optionShape, hselect, habsent]
      simp [Shape.equals, Shape.getD, Shape.get?, Fields.get?]
    · rw [habsent]
      rfl
    · rwa [hselect, unselect, under_eq hfield]

theorem recovers_missing (hg : g.Tells alone opening closing) (hp : g.pattern? id = some p)
    (hkind : p.kind = .option child) : ∃ shape, Recovers g codec id (.absent p) shape := by
  cases (hg id p hp).optionForm child hkind with
  | plain hname hmerge hselect habsent | selected hname hmerge hselect hfield habsent
  | list hname hmerge hselect hfield habsent =>
    refine ⟨_, recovers_absent_value hp hkind hname hmerge ?_⟩
    rw [habsent]
    rfl

/-- A choice comes back if what is chosen does. -/
theorem returns_choice (hg : g.Tells alone opening closing) (hclosed : g.Closed)
    (htagged : ∀ tagged label, codec.taggedShape tagged label = .ok tagged.toShape)
    (hshape : ∀ shape label, codec.shapeTagged shape label = Tagged.ofShape shape)
    (hp : g.pattern? id = some p) {alternatives : List PatternId} {mode : ChoiceMode}
    {names : Option (List String)} (hkind : p.kind = .choice alternatives mode names) {index : Nat}
    (halternative : alternatives[index]? = some child) (ht : Returns g codec child t) :
    Returns g codec id (.choice p index t) ∧
      (alone id = false → ∃ shape, Recovers g codec id (.choice p index t) shape) := by
  obtain ⟨value, hextract, -, hinject⟩ := ht
  obtain ⟨name, hname, halone⟩ := (hg id p hp).choice_named _ _ _ hkind
  obtain ⟨texts, rfl, hnodup⟩ := (hg id p hp).typeNames_nodup _ _ _ hkind
  obtain ⟨hindex, -⟩ := List.getElem?_eq_some_iff.1 halternative
  have hname' := alternativeIndex?_typeName (hclosed.closedAt id p hp) hkind hnodup hindex
  have hback (tagged : Tagged) :
      codec.shapeTagged tagged.toShape (p.label.bind g.labelText?) = .ok tagged :=
    (hshape _ _).trans (Tagged.ofShape_toShape _)
  have hnull (tagged : Tagged) : tagged.toShape ≠ .null := by simp [Tagged.toShape]
  have hrecovers (hmerge : name ≠ mergeName) :=
    recovers_choice hp hkind hname hmerge halternative hextract (htagged _ _) (hnull _) (hback _)
      hname' hinject
  refine ⟨?_, fun hid => ⟨_, hrecovers fun hmerge => ?_⟩⟩
  · by_cases hmerge : name = mergeName
    · obtain ⟨shape, hextract, hinject⟩ := roundTrips_choice hp hkind hname halternative hextract
        (htagged _ _) (hback _) hname' hinject
      refine ⟨shape, hextract, fun hshape => ?_, hinject⟩
      have heq := hextract.symm.trans (extract_choice hname ‹_› (htagged _ _))
      rw [hshape, hmerge, under_mergeName] at heq
      exact absurd (Except.ok.inj heq).symm (hnull _)
    · exact (hrecovers hmerge).returns
  · rw [halone hmerge] at hid
    cases hid

/-- A thunk comes back if its body does, and needs no more than that under its own name. -/
theorem returns_thunk (hg : g.Tells alone opening closing) (hp : g.pattern? id = some p)
    {rule : RuleId} (hkind : p.kind = .thunk rule) {body : PatternId}
    (hbody : g.ruleBody? rule = some body) (ht : Returns g codec body t)
    (hrecovers : alone body = false → ∃ shape, Recovers g codec body t shape) :
    Returns g codec id (.wrapped p t) ∧
      (alone id = false → ∃ shape, Recovers g codec id (.wrapped p t) shape) := by
  obtain ⟨shape, hextract, hnull, hinject⟩ := ht
  rcases p.merges_or_hasField with hmerges | hfield
  · refine ⟨⟨shape, ?_, fun h => .body hp hkind hmerges hbody (hnull h), ?_⟩, fun hid => ?_⟩
    · rw [extract_thunk hkind hextract, hmerges, under_mergeName]
    · exact injects_thunk hp hkind hbody (hmerges.fieldOf_eq shape) hinject
    · have halone : alone body = false := by
        by_contra h
        rw [(hg id p hp).body_alone rule body hkind hmerges hbody (by simpa using h)] at hid
        cases hid
      obtain ⟨shape, h⟩ := hrecovers halone
      exact ⟨shape, recovers_thunk_merged hp hkind hmerges hbody h⟩
  · have hsilent := (hg id p hp).body_keeps rule body hkind hfield hbody
    obtain ⟨shape, h⟩ := recovers_thunk_named hp hkind hfield hbody hextract
      (fun h => hsilent (hnull h)) hinject
    exact ⟨h.returns, fun _ => ⟨shape, h⟩⟩

end

/-- Trees without empty lists come back from their shapes. -/
theorem returns_of_filled (hg : g.Tells alone opening closing) (hclosed : g.Closed)
    (htagged : ∀ tagged label, codec.taggedShape tagged label = .ok tagged.toShape)
    (hshape : ∀ shape label, codec.shapeTagged shape label = Tagged.ofShape shape)
    (hfits : t.Fits g id) (hleaves : t.ReadBack codec) (hfilled : t.Filled) :
    Returns g codec id t ∧ (alone id = false → ∃ shape, Recovers g codec id t shape) := by
  induction t using Tree.childrenInduction generalizing id with
  | h t ih =>
  have ih {u : Tree ν} (hu : u ∈ t.children) {child : PatternId} (hchild : u.Fits g child) :=
    ih u hu hchild (fun l hl => hleaves l (Tree.mem_leaves_of_mem_children hu hl))
      (hfilled.child hu)
  have hboth {id : PatternId} {t : Tree ν} (h : ∃ shape, Recovers g codec id t shape) :
      Returns g codec id t ∧ (alone id = false → ∃ shape, Recovers g codec id t shape) :=
    ⟨h.choose_spec.returns, fun _ => h⟩
  cases t with
  | leaf p v =>
    obtain ⟨hp, terminal, hkind⟩ := hfits
    obtain ⟨hunnamed, hnamed, hnull⟩ := hleaves (p, v) List.mem_cons_self terminal hkind
    by_cases hname : p.name = some mergeName
    · have halone := (hg id p hp).token_keeps terminal hkind hname
      obtain ⟨shape, hextract, hinject⟩ := roundTrips_leaf hp hkind hname hnamed
      refine ⟨⟨shape, hextract, fun h => ?_, hinject⟩, fun hid => ?_⟩
      · have heq := hextract.symm.trans (extract_leaf_named hname v)
        rw [h, under_mergeName] at heq
        exact absurd (Except.ok.inj heq).symm hnull
      · rw [halone] at hid
        cases hid
    · exact hboth (recovers_leaf hp hkind hname hunnamed hnamed hnull)
  | sequence p ts =>
    obtain ⟨hp, children, hkind, hts⟩ := Tree.fits_sequence_iff.1 hfits
    have htells := hg id p hp
    refine hboth (recovers_sequence hp hkind (htells.select_eq_none _ hkind)
      (htells.pairwise_keys _ hkind) ?_)
    exact forall₂_imp_of_mem_mem (fun u hu child hchild hfit =>
      (ih hu hfit).2 (htells.children_fields _ hkind child hchild)) hts
  | choice p index t =>
    obtain ⟨hp, alternatives, mode, names, alternative, hkind, halternative, ht⟩ := hfits
    exact returns_choice hg hclosed htagged hshape hp hkind halternative (ih List.mem_cons_self ht).1
  | many p items separators =>
    obtain ⟨hp, item, separator, hkind, hitems, hlength, hseparators⟩ := Tree.fits_many_iff.1 hfits
    have htells := hg id p hp
    refine hboth (recovers_many hp hkind (htells.many_hasField _ _ hkind)
      (fun s hs => (htells.separator_keyless _ _ (hs ▸ hkind)).2) (fun t ht => ?_) hlength
      fun t ht => ?_)
    · obtain ⟨shape, hextract, -, hinject⟩ := (ih (List.mem_append_left _ ht) (hitems t ht)).1
      exact ⟨shape, hextract, hinject⟩
    · obtain ⟨s, rfl, hfit⟩ := hseparators t ht
      exact ⟨s, rfl, (ih (List.mem_append_right _ ht) hfit).2
        (htells.separator_keyless _ _ hkind).1⟩
  | absent p =>
    obtain ⟨hp, item, hkind⟩ := hfits
    exact hboth (recovers_missing hg hp hkind)
  | present p t =>
    obtain ⟨hp, item, hkind, ht⟩ := hfits
    exact hboth (recovers_option hg hp hkind ht ((Tree.filled_iff.1 hfilled).1 p t rfl)
      (ih List.mem_cons_self ht).1)
  | wrapped p t =>
    obtain ⟨hp, wrapper, child, hkind, ht⟩ := hfits
    cases hk : p.kind with
    | thunk rule =>
      rw [hk] at hkind
      obtain ⟨body, hbody, hpair⟩ := Option.map_eq_some_iff.1 hkind
      obtain rfl : body = child := (Prod.mk.inj hpair).2
      obtain ⟨hreturns, hrecovers⟩ := ih List.mem_cons_self ht
      exact returns_thunk hg hp hk hbody hreturns hrecovers
    | indent inner | group inner | conditional inner =>
      have hchild : child = inner := by
        rw [hk] at hkind
        cases hkind
        rfl
      have halone := (hg id p hp).layout_fields child (by rw [hk, hchild]; rfl)
      obtain ⟨shape, h⟩ := (ih List.mem_cons_self ht).2 halone
      exact hboth ⟨shape, recovers_layout hp hkind (by simp [hk]) h⟩
    | _ => simp [hk, PatternKind.wrapped?] at hkind
  | mark p =>
    obtain ⟨hp, marker, hkind⟩ := hfits
    exact hboth ⟨.null, recovers_mark hp hkind⟩

/-- A tree has a shape, and its shape gives it back without its empty lists. -/
theorem exists_shape_dropEmpty (hg : g.Tells alone opening closing) (hclosed : g.Closed)
    (htagged : ∀ tagged label, codec.taggedShape tagged label = .ok tagged.toShape)
    (hshape : ∀ shape label, codec.shapeTagged shape label = Tagged.ofShape shape)
    (hfits : t.Fits g id) (hleaves : t.ReadBack codec) :
    ∃ shape, t.extract g codec = .ok shape ∧ Injects g codec id shape t.dropEmpty := by
  obtain ⟨⟨shape, hextract, -, hinject⟩, -⟩ := returns_of_filled hg hclosed htagged hshape
    (Tree.fits_dropEmpty hfits)
    (fun l hl => hleaves l (Tree.mem_leaves_of_mem_dropEmpty hl)) (Tree.filled_dropEmpty hg hfits)
  rw [Tree.extract_dropEmpty hg codec hfits] at hextract
  exact ⟨shape, hextract, hinject⟩

/-- A tree without neighbours as around an empty list has no empty list. -/
theorem filled_of_isChain (hg : g.Tells alone opening closing) (hfits : t.Fits g id)
    {kindOf : ν → String} (hleaves : ∀ l ∈ t.leaves, l.1.kind = .consume (kindOf l.2))
    (happart : t.values.IsChain fun v w => ¬ (kindOf v = opening ∧ kindOf w = closing)) :
    t.Filled := by
  induction t using Tree.childrenInduction generalizing id with
  | h t ih =>
  have ih {u : Tree ν} (hu : u ∈ t.children) {child : PatternId} (hchild : u.Fits g child) :
      u.Filled := by
    refine ih u hu hchild (fun l hl => hleaves l (Tree.mem_leaves_of_mem_children hu hl)) ?_
    exact List.IsChain.infix happart (Tree.values_infix_of_mem_children hfits hu)
  refine Tree.filled_iff.2 ⟨?_, fun u hu => ?_⟩
  · rintro p item rfl
    obtain ⟨hp, child, hkind, hitem⟩ := hfits
    cases (hg id p hp).optionForm child hkind with
    | plain hname hmerge hselect habsent | selected hname hmerge hselect hfield habsent =>
      rw [Tree.holdsList, habsent]
      rfl
    | list hname hmerge hselect hfield habsent hencloses =>
      obtain ⟨items, hlists, hempty⟩ := hencloses.lists hitem
      rw [Tree.holdsList_eq hlists hselect habsent, Bool.not_eq_true', List.isEmpty_eq_false_iff]
      intro hnil
      obtain ⟨first, last, v, w, hvalues, hv, hfirst, hw, hlast⟩ := hempty hnil
      rw [show (Tree.present p item).values = [v, w] from hvalues, List.isChain_pair] at happart
      exact happart ⟨(PatternKind.consume.inj (hfirst.symm.trans (hleaves _ hv))).symm,
        (PatternKind.consume.inj (hlast.symm.trans (hleaves _ hw))).symm⟩
  · obtain ⟨child, hchild⟩ := Tree.exists_fits_of_mem_children hfits hu
    exact ih hu hchild

end

end ReversibleGrammar
