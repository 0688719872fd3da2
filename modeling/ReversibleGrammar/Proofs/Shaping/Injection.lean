/-
When a shape gives a tree, node by node.

Injection walks down the pattern.  For each kind of pattern, a lemma says what the
shape has to hold at that place for the walk to rebuild a given tree, if the walks
below it rebuild the children.

* `Injects` — the tree is what the shape gives, as soon as the walk may go as deep as the tree;
* `injects_leaf_named`, `injects_sequence`, `injects_choice`, `injects_many` and so on — kind by
  kind;
* `extractAll_eq_ok_iff`, `extract_sequence` and so on — the shapes of a tree in the same form.
-/
import ReversibleGrammar.Proofs.Grammar.Fitting
import ReversibleGrammar.Proofs.Shaping.Merging

namespace ReversibleGrammar

variable {ν : Type}

-- the lemmas below all take single steps of the walk
attribute [local simp] injectTo

/-- The shape gives the tree for the pattern, if the walk may go as deep as the tree. -/
def Injects (g : Grammar) (codec : ShapeCodec ν) (id : PatternId) (shape : Shape)
    (t : Tree ν) : Prop :=
  ∀ depth, t.height ≤ depth → injectTo g codec depth id shape = .ok t

section

variable {g : Grammar} {codec : ShapeCodec ν} {id : PatternId} {p : Pattern} {shape : Shape}

/-- It is enough to look at one step, from where the walk may go as deep as the children. -/
theorem injects_of_step {t : Tree ν} (h : ∀ depth, (∀ u ∈ t.children, u.height ≤ depth) →
    injectTo g codec (depth + 1) id shape = .ok t) : Injects g codec id shape t := by
  intro depth hdepth
  cases depth with
  | zero => exact absurd hdepth (Nat.not_le.2 t.height_pos)
  | succ depth =>
    refine h depth fun u hu => ?_
    have hlt := Tree.height_lt_of_mem_children hu
    omega

theorem injects_leaf_unnamed (hp : g.pattern? id = some p) {terminal : String}
    (hkind : p.kind = .consume terminal) (hname : p.name = none) (shape : Shape) :
    Injects g codec id shape (.leaf p (codec.terminalToken terminal)) :=
  injects_of_step fun depth _ => by simp only [injectTo, hp, hkind, hname]

theorem injects_leaf_named (hp : g.pattern? id = some p) {terminal : String}
    (hkind : p.kind = .consume terminal) {name : String} (hname : p.name = some name)
    {value : Shape} (hvalue : shape.fieldOf name = .ok value) {v : ν}
    (hv : codec.shapeToken value terminal = .ok v) : Injects g codec id shape (.leaf p v) :=
  injects_of_step fun depth _ => by
    simp only [injectTo, hp, hkind, hname, hvalue, hv, bind, Except.bind, pure, Except.pure]

theorem injects_mark (hp : g.pattern? id = some p) {marker : Marker}
    (hkind : p.kind.mark? = some marker) (shape : Shape) :
    Injects g codec id shape (.mark p) :=
  injects_of_step fun depth _ => by
    cases hk : p.kind with
    | literal | line => simp only [injectTo, hp, hk]
    | _ => simp [hk, PatternKind.mark?] at hkind

theorem injects_sequence (hp : g.pattern? id = some p) {children : List PatternId}
    (hkind : p.kind = .sequence children) {value : Shape}
    (hvalue : shape.fieldOf (p.name.getD mergeName) = .ok value) {ts : List (Tree ν)}
    (hts : List.Forall₂ (fun child t => Injects g codec child (unselect p.select value) t)
      children ts) : Injects g codec id shape (.sequence p ts) := by
  refine injects_of_step fun depth hdepth => ?_
  have hchildren : children.mapM (fun child =>
      injectTo g codec depth child (unselect p.select value)) = .ok ts := by
    rw [mapM_eq_ok_iff]
    exact (forall₂_imp_of_mem (fun t ht child h => h depth (hdepth t ht)) hts.flip).flip
  simp only [injectTo, hp, hkind, hvalue, hchildren, bind, Except.bind, pure, Except.pure]

theorem injects_choice (hp : g.pattern? id = some p) {alternatives : List PatternId}
    {mode : ChoiceMode} {names : Option (List String)}
    (hkind : p.kind = .choice alternatives mode names) {name : String} (hname : p.name = some name)
    {value : Shape} (hvalue : shape.fieldOf name = .ok value) {tagged : Tagged}
    (htagged : codec.shapeTagged value (p.label.bind g.labelText?) = .ok tagged) {index : Nat}
    (hindex : alternativeIndex? alternatives names tagged.kind = some index)
    {alternative : PatternId} (halternative : alternatives[index]? = some alternative)
    {t : Tree ν} (ht : Injects g codec alternative tagged.value t) :
    Injects g codec id shape (.choice p index t) := by
  refine injects_of_step fun depth hdepth => ?_
  have hchosen := ht depth (hdepth t List.mem_cons_self)
  simp only [injectTo, hp, hkind, hname, hvalue, htagged, hindex, halternative, hchosen, bind,
    Except.bind, pure, Except.pure]

theorem injects_many (hp : g.pattern? id = some p) {item : PatternId}
    {separator : Option PatternId} (hkind : p.kind = .many item separator) {name : String}
    (hname : p.name = some name) {shapes : List Shape}
    (hvalue : shape.fieldOf name = .ok (.list shapes)) {items separators : List (Tree ν)}
    (hitems : List.Forall₂ (fun shape t => Injects g codec item shape t) shapes items)
    (hlength : separators.length = if separator.isSome then items.length - 1 else 0)
    (hseparators : ∀ t ∈ separators, ∀ s, separator = some s →
      Injects g codec s (.object []) t) :
    Injects g codec id shape (.many p items separators) := by
  refine injects_of_step fun depth hdepth => ?_
  have hmapM : shapes.mapM (fun shape => injectTo g codec depth item shape) = .ok items := by
    rw [mapM_eq_ok_iff]
    refine (forall₂_imp_of_mem (fun t ht shape h => ?_) hitems.flip).flip
    exact h depth (hdepth t (List.mem_append_left _ ht))
  cases separator with
  | none =>
    obtain rfl : separators = [] := List.length_eq_zero_iff.1 hlength
    simp only [injectTo, hp, hkind, hname, hvalue, hmapM, bind, Except.bind, pure, Except.pure]
  | some s =>
    -- each separator comes from the empty object
    have hmapM' : (List.range (items.length - 1)).mapM (fun _ =>
        injectTo g codec depth s (.object [])) = .ok separators := by
      rw [mapM_eq_ok_iff, List.forall₂_iff_get]
      refine ⟨by simpa using hlength.symm, fun n hn hn' => ?_⟩
      have hmem := List.get_mem separators ⟨n, hn'⟩
      exact hseparators _ hmem s rfl depth (hdepth _ (List.mem_append_right _ hmem))
    simp only [injectTo, hp, hkind, hname, hvalue, hmapM, hmapM', bind, Except.bind, pure,
      Except.pure]

theorem injects_absent (hp : g.pattern? id = some p) {item : PatternId}
    (hkind : p.kind = .option item) {name : String} (hname : p.name = some name)
    (hne : name ≠ mergeName) (hvalue : (shape.getD name).equals (p.absent.getD .null) = true ∨
      shape.getD name = .null) : Injects g codec id shape (.absent p) := by
  refine injects_of_step fun depth _ => ?_
  have hskip : ((shape.getD name).equals (p.absent.getD .null) || (shape.getD name).isNull) =
      true := by
    rcases hvalue with h | h
    · rw [h, Bool.true_or]
    · rw [h]
      exact Bool.or_true _
  simp only [injectTo, hp, hkind, hname, if_neg hne, hskip, if_true]

theorem injects_present (hp : g.pattern? id = some p) {item : PatternId}
    (hkind : p.kind = .option item) {name : String} (hname : p.name = some name)
    (hne : name ≠ mergeName)
    (hdiffers : (shape.getD name).equals (p.absent.getD .null) = false)
    (hnull : shape.getD name ≠ .null) {t : Tree ν}
    (ht : Injects g codec item (unselect p.select (shape.getD name)) t) :
    Injects g codec id shape (.present p t) := by
  refine injects_of_step fun depth hdepth => ?_
  have hisNull : (shape.getD name).isNull = false := by
    cases hshape : shape.getD name <;> first | rfl | exact absurd hshape hnull
  have hitem := ht depth (hdepth t List.mem_cons_self)
  simp only [injectTo, hp, hkind, hname, if_neg hne, hdiffers, hisNull, Bool.or_self,
    Bool.false_eq_true, if_false, hitem, bind, Except.bind, pure, Except.pure]

theorem injects_thunk (hp : g.pattern? id = some p) {rule : RuleId}
    (hkind : p.kind = .thunk rule) {body : PatternId} (hbody : g.ruleBody? rule = some body)
    {value : Shape} (hvalue : shape.fieldOf (p.name.getD mergeName) = .ok value) {t : Tree ν}
    (ht : Injects g codec body value t) : Injects g codec id shape (.wrapped p t) := by
  refine injects_of_step fun depth hdepth => ?_
  have hchild := ht depth (hdepth t List.mem_cons_self)
  simp only [injectTo, hp, hkind, hvalue, hbody, hchild, bind, Except.bind, pure, Except.pure]

/-- Layout around a child passes the shape on. -/
theorem injects_layout (hp : g.pattern? id = some p) {wrapper : Wrapper} {child : PatternId}
    (hkind : p.kind.wrapped? g = some (wrapper, child)) (hthunk : ∀ rule, p.kind ≠ .thunk rule)
    {t : Tree ν} (ht : Injects g codec child shape t) :
    Injects g codec id shape (.wrapped p t) := by
  refine injects_of_step fun depth hdepth => ?_
  have hchild := ht depth (hdepth t List.mem_cons_self)
  cases hk : p.kind with
  | thunk rule => exact absurd hk (hthunk rule)
  | indent | group | conditional =>
    rw [hk] at hkind
    cases hkind
    simp only [injectTo, hp, hk, hchild, bind, Except.bind, pure, Except.pure]
  | _ => simp [hk, PatternKind.wrapped?] at hkind

/-! ### Shapes -/

-- and these take single steps of the walk up the tree
attribute [local simp] Tree.extract

theorem extractAll_eq_ok_iff {ts : List (Tree ν)} {shapes : List Shape} :
    Tree.extractAll g codec ts = .ok shapes ↔
      List.Forall₂ (fun t shape => t.extract g codec = .ok shape) ts shapes := by
  have heq : Tree.extractAll g codec ts = ts.mapM fun t => t.extract g codec := by
    induction ts with
    | nil => rfl
    | cons t ts ih => rw [Tree.extractAll, List.mapM_cons, ih]
  rw [heq, mapM_eq_ok_iff]

theorem extract_leaf_named {name : String} (hname : p.name = some name) (v : ν) :
    (Tree.leaf p v).extract g codec = .ok (.under name (codec.tokenShape v)) := by
  simp only [Tree.extract, hname]

theorem extract_leaf_unnamed (hname : p.name = none) (v : ν) :
    (Tree.leaf p v).extract g codec = .ok .null := by
  simp only [Tree.extract, hname]

theorem extract_sequence {ts : List (Tree ν)} {shapes : List Shape}
    (h : List.Forall₂ (fun t shape => t.extract g codec = .ok shape) ts shapes) :
    (Tree.sequence p ts).extract g codec = .ok (sequenceShape p shapes) := by
  simp only [Tree.extract, extractAll_eq_ok_iff.2 h, bind, Except.bind, pure, Except.pure]

theorem extract_choice {name : String} (hname : p.name = some name) {index : Nat} {t : Tree ν}
    {value shape : Shape} (ht : t.extract g codec = .ok value)
    (hshape : codec.taggedShape ⟨alternativeName p index, value⟩ (p.label.bind g.labelText?) =
      .ok shape) : (Tree.choice p index t).extract g codec = .ok (.under name shape) := by
  simp only [Tree.extract, hname, ht, hshape, bind, Except.bind, pure, Except.pure]

theorem extract_many {name : String} (hname : p.name = some name)
    {items separators : List (Tree ν)} {shapes : List Shape}
    (h : List.Forall₂ (fun t shape => t.extract g codec = .ok shape) items shapes) :
    (Tree.many p items separators).extract g codec = .ok (.under name (.list shapes)) := by
  simp only [Tree.extract, extractAll_eq_ok_iff.2 h, hname, bind, Except.bind, pure, Except.pure]

theorem extract_thunk {rule : RuleId} (hkind : p.kind = .thunk rule) {t : Tree ν} {shape : Shape}
    (ht : t.extract g codec = .ok shape) :
    (Tree.wrapped p t).extract g codec = .ok (.under (p.name.getD mergeName) shape) := by
  simp only [Tree.extract, ht, hkind, bind, Except.bind, pure, Except.pure]

theorem extract_layout (hthunk : ∀ rule, p.kind ≠ .thunk rule) {t : Tree ν} {shape : Shape}
    (ht : t.extract g codec = .ok shape) : (Tree.wrapped p t).extract g codec = .ok shape := by
  cases hk : p.kind with
  | thunk rule => exact absurd hk (hthunk rule)
  | _ => simp only [Tree.extract, ht, hk, bind, Except.bind, pure, Except.pure]

end

end ReversibleGrammar
