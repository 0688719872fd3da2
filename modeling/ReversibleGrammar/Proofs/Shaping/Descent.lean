/-
Why an injection ends.

The walk follows the grammar, which may well be recursive, and not the shape: it passes a shape on
as it is, or even puts it back into an object.  What ends it is a measure of pattern and shape
together, which every call of the walk makes smaller: the size of the shape counts most, and a rank
of the pattern counts where the size stays the same.

* `InjectCall` — the parts that the walk asks for, with their shapes;
* `injectTo_congr`, `injectTo_error` — a step of the walk depends on its calls alone;
* `Grammar.Descends`, `Grammar.descends_of_check` — the calls make shapes or else ranks smaller;
* `Grammar.Descends.ends` — then the walk has an answer, from a depth that the shape gives.
-/
import ReversibleGrammar.Proofs.Grammar.Built
import ReversibleGrammar.Shaping.Inject

namespace ReversibleGrammar

/-! ### Sizes of shapes -/

mutual

/-- The number of values in a shape. -/
def Shape.size : Shape → Nat
  | .list items => 1 + Shape.listSize items
  | .object fields => 1 + Shape.fieldsSize fields
  | _ => 1

/-- The number of values in a list of shapes. -/
def Shape.listSize : List Shape → Nat
  | [] => 0
  | item :: items => item.size + Shape.listSize items

/-- The number of values in the fields of an object. -/
def Shape.fieldsSize : List (String × Shape) → Nat
  | [] => 0
  | (_, value) :: fields => value.size + Shape.fieldsSize fields

end

namespace Shape

theorem size_pos (shape : Shape) : 0 < shape.size := by
  cases shape <;> simp only [size] <;> omega

theorem size_le_listSize {item : Shape} {items : List Shape} (h : item ∈ items) :
    item.size ≤ listSize items := by
  induction items with
  | nil => cases h
  | cons first rest ih =>
    rw [listSize]
    rcases List.mem_cons.1 h with rfl | h
    · exact Nat.le_add_right _ _
    · exact Nat.le_add_left_of_le (ih h)

theorem length_le_listSize (items : List Shape) : items.length ≤ listSize items := by
  induction items with
  | nil => exact Nat.le_refl _
  | cons item items ih =>
    rw [listSize, List.length_cons]
    have := item.size_pos
    omega

theorem size_le_fieldsSize {key : String} {value : Shape} {fields : Fields}
    (h : Fields.get? key fields = some value) : value.size ≤ fieldsSize fields := by
  induction fields with
  | nil => cases h
  | cons field rest ih =>
    rw [fieldsSize]
    unfold Fields.get? at h
    split at h
    · rw [← Option.some.inj h]
      exact Nat.le_add_right _ _
    · exact Nat.le_add_left_of_le (ih h)

/-- A field is smaller than the object. -/
theorem size_lt_of_get? {key : String} {shape value : Shape} (h : shape.get? key = some value) :
    value.size < shape.size := by
  cases shape with
  | object fields =>
    rw [size]
    have := size_le_fieldsSize h
    omega
  | _ => cases h

theorem size_fieldOf_le {name : String} {shape value : Shape}
    (h : shape.fieldOf name = .ok value) :
    value.size + (if name = mergeName then 0 else 1) ≤ shape.size := by
  unfold fieldOf at h
  split at h
  · rename_i hname
    rw [Except.ok.inj h, if_pos hname, Nat.add_zero]
  · rename_i hname
    split at h
    · rename_i found hfound
      rw [← Except.ok.inj h, if_neg hname]
      exact size_lt_of_get? hfound
    · cases h

theorem size_getD_lt {name : String} {shape : Shape} (h : (shape.getD name).isNull = false) :
    (shape.getD name).size < shape.size := by
  cases hget : shape.get? name with
  | none => simp [getD, hget, isNull] at h
  | some value =>
    rw [getD, hget, Option.getD_some]
    exact size_lt_of_get? hget

theorem size_unselect_le (select : Option String) (value : Shape) :
    (unselect select value).size ≤
      value.size + (if select.any (· ≠ mergeName) then 1 else 0) := by
  cases select with
  | none => exact Nat.le_add_right _ _
  | some field =>
    by_cases hfield : field = mergeName
    · simp [unselect, under, hfield]
    · simp [unselect, under, hfield, size, fieldsSize, Nat.add_comm]

end Shape

/-- What a tagged value holds is smaller than the value. -/
theorem Tagged.size_lt_of_ofShape {shape : Shape} {tagged : Tagged}
    (h : Tagged.ofShape shape = .ok tagged) : tagged.value.size < shape.size := by
  have hvalue {kind : Shape} (hkind : shape.get? "type" = some kind) :
      (shape.getD "value").size < shape.size := by
    cases hget : shape.get? "value" with
    | none =>
      have hlt := Nat.lt_of_le_of_lt kind.size_pos (Shape.size_lt_of_get? hkind)
      simpa [Shape.getD, hget, Shape.size] using hlt
    | some value =>
      rw [Shape.getD, hget, Option.getD_some]
      exact Shape.size_lt_of_get? hget
  unfold Tagged.ofShape at h
  split at h
  · rename_i hkind
    rw [← Except.ok.inj h]
    exact hvalue hkind
  · rename_i hkind
    rw [← Except.ok.inj h]
    exact hvalue hkind
  · cases h

/-! ### The calls of the walk -/

/-- Says nothing about a shape: a number is out of range, or the fuel did not last. -/
def ShapeError.isInternal : ShapeError → Bool
  | .unknownPattern _ | .unknownRule _ | .outOfFuel => true
  | _ => false

theorem Shape.isInternal_fieldOf {name : String} {shape : Shape} {e : ShapeError}
    (h : shape.fieldOf name = .error e) : e.isInternal = false := by
  unfold fieldOf at h
  split at h
  · cases h
  · split at h
    · cases h
    · exact Except.error.inj h ▸ rfl

/-- The codec finds fault with nothing but shapes. -/
structure ShapeCodec.BlamesShapes (codec : ShapeCodec ν) : Prop where
  shapeToken : ∀ {value terminal e}, codec.shapeToken value terminal = .error e →
    e.isInternal = false
  shapeTagged : ∀ {value label e}, codec.shapeTagged value label = .error e → e.isInternal = false

/-- For a tree of the first pattern with the first shape, the walk asks for one of the second
pattern with the second shape. -/
inductive InjectCall (g : Grammar) (codec : ShapeCodec ν) :
    PatternId → Shape → PatternId → Shape → Prop
  | thunk {id rule body : Nat} {p : Pattern} {shape value : Shape}
      (hp : g.pattern? id = some p) (hkind : p.kind = .thunk rule)
      (hvalue : shape.fieldOf (p.name.getD mergeName) = .ok value)
      (hbody : g.ruleBody? rule = some body) : InjectCall g codec id shape body value
  | layout {id child : Nat} {p : Pattern} {shape : Shape} (hp : g.pattern? id = some p)
      (hkind : p.kind.isLayout = true) (hchild : child ∈ p.kind.children) :
      InjectCall g codec id shape child shape
  | sequence {id child : Nat} {p : Pattern} {children : List PatternId} {shape value : Shape}
      (hp : g.pattern? id = some p) (hkind : p.kind = .sequence children)
      (hvalue : shape.fieldOf (p.name.getD mergeName) = .ok value) (hchild : child ∈ children) :
      InjectCall g codec id shape child (unselect p.select value)
  | choice {id alternative : Nat} {p : Pattern} {alternatives : List PatternId}
      {mode : ChoiceMode} {typeNames : Option (List String)} {name : String}
      {shape value : Shape} {tagged : Tagged} (hp : g.pattern? id = some p)
      (hkind : p.kind = .choice alternatives mode typeNames) (hname : p.name = some name)
      (hvalue : shape.fieldOf name = .ok value)
      (htagged : codec.shapeTagged value (p.label.bind g.labelText?) = .ok tagged)
      (halternative : alternative ∈ alternatives) :
      InjectCall g codec id shape alternative tagged.value
  | item {id item : Nat} {p : Pattern} {separator : Option PatternId} {name : String}
      {shape value : Shape} {shapes : List Shape} (hp : g.pattern? id = some p)
      (hkind : p.kind = .many item separator) (hname : p.name = some name)
      (hvalue : shape.fieldOf name = .ok (.list shapes)) (hmem : value ∈ shapes) :
      InjectCall g codec id shape item value
  | separator {id item separator : Nat} {p : Pattern} {name : String} {shape : Shape}
      {shapes : List Shape} (hp : g.pattern? id = some p)
      (hkind : p.kind = .many item (some separator)) (hname : p.name = some name)
      (hvalue : shape.fieldOf name = .ok (.list shapes)) (hlength : 1 < shapes.length) :
      InjectCall g codec id shape separator (.object [])
  | option {id item : Nat} {p : Pattern} {name : String} {shape : Shape}
      (hp : g.pattern? id = some p) (hkind : p.kind = .option item) (hname : p.name = some name)
      (hnull : (shape.getD name).isNull = false) :
      InjectCall g codec id shape item (unselect p.select (shape.getD name))

section

variable {g : Grammar} {codec : ShapeCodec ν}

/-- Calls from patterns of a closed grammar are calls of its patterns. -/
theorem Grammar.Closed.lt_size_of_injectCall (hg : g.Closed) {id child : PatternId}
    {shape value : Shape} (h : InjectCall g codec id shape child value) : child < g.size := by
  cases h with
  | thunk hp hkind hvalue hbody =>
    obtain ⟨rule, hrule, rfl⟩ := Option.map_eq_some_iff.1 hbody
    exact hg.body_lt _ _ hrule
  | layout hp hkind hchild => exact (hg.closedAt _ _ hp).children_lt _ hchild
  | sequence hp hkind hvalue hchild | choice hp hkind hname hvalue htagged hchild =>
    exact (hg.closedAt _ _ hp).children_lt _ (by rw [hkind]; exact hchild)
  | item hp hkind | separator hp hkind | option hp hkind =>
    exact (hg.closedAt _ _ hp).children_lt _ (by rw [hkind]; simp [PatternKind.children])

theorem bind_eq_error_iff {f : α → Except ε β} {x : Except ε α} {e : ε} :
    x >>= f = .error e ↔ x = .error e ∨ ∃ a, x = .ok a ∧ f a = .error e := by
  cases x <;> simp [bind, Except.bind]

theorem bind_pure_eq_error_iff {f : α → β} {x : Except ε α} {e : ε} :
    (x >>= fun a => pure (f a)) = .error e ↔ x = .error e := by
  cases x <;> simp [bind, Except.bind, pure, Except.pure]

theorem bind_congr_of_eq_ok {f f' : α → Except ε β} {x : Except ε α}
    (h : ∀ a, x = .ok a → f a = f' a) : x >>= f = x >>= f' := by
  cases x with
  | error e => rfl
  | ok a => exact h a rfl

theorem mapM_congr {f f' : α → Except ε β} {xs : List α} (h : ∀ x ∈ xs, f x = f' x) :
    xs.mapM f = xs.mapM f' := by
  induction xs with
  | nil => rfl
  | cons x xs ih =>
    rw [List.mapM_cons, List.mapM_cons, h x List.mem_cons_self,
      ih fun y hy => h y (List.mem_cons_of_mem x hy)]

/-- A step of the walk has the same answer at two depths if its calls have. -/
theorem injectTo_congr {depth depth' : Nat} {id : PatternId} {shape : Shape}
    (h : ∀ child value, InjectCall g codec id shape child value →
      injectTo g codec depth child value = injectTo g codec depth' child value) :
    injectTo g codec (depth + 1) id shape = injectTo g codec (depth' + 1) id shape := by
  cases hp : g.pattern? id with
  | none => simp only [injectTo, hp]
  | some p =>
    cases hkind : p.kind with
    | consume terminal => simp only [injectTo, hp, hkind]
    | literal text | line kind => simp only [injectTo, hp, hkind]
    | indent child | group child | conditional child =>
      have hchild := h child shape (.layout hp (by rw [hkind]; rfl) (by simp [hkind,
        PatternKind.children]))
      simp only [injectTo, hp, hkind, hchild]
    | thunk rule =>
      cases hvalue : shape.fieldOf (p.name.getD mergeName) with
      | error e => simp only [injectTo, hp, hkind, hvalue, bind, Except.bind]
      | ok value =>
        cases hbody : g.ruleBody? rule with
        | none => simp only [injectTo, hp, hkind, hvalue, hbody, bind, Except.bind]
        | some body =>
          have hcall := h body value (.thunk hp hkind hvalue hbody)
          simp only [injectTo, hp, hkind, hvalue, hbody, hcall, bind, Except.bind]
    | sequence children =>
      cases hvalue : shape.fieldOf (p.name.getD mergeName) with
      | error e => simp only [injectTo, hp, hkind, hvalue, bind, Except.bind]
      | ok value =>
        have hcalls := mapM_congr fun child hchild =>
          h child (unselect p.select value) (.sequence hp hkind hvalue hchild)
        simp only [injectTo, hp, hkind, hvalue, hcalls, bind, Except.bind]
    | choice alternatives mode typeNames =>
      cases hname : p.name with
      | none => simp only [injectTo, hp, hkind, hname]
      | some name =>
        simp only [injectTo, hp, hkind, hname]
        refine bind_congr_of_eq_ok fun value hvalue => bind_congr_of_eq_ok fun tagged htagged => ?_
        cases hindex : alternativeIndex? alternatives typeNames tagged.kind with
        | none => rfl
        | some index =>
          cases halternative : alternatives[index]? with
          | none => simp only [halternative]
          | some alternative =>
            have hcall := h alternative tagged.value
              (.choice hp hkind hname hvalue htagged (List.mem_of_getElem? halternative))
            simp only [halternative, hcall]
    | many item separator =>
      cases hname : p.name with
      | none => simp only [injectTo, hp, hkind, hname]
      | some name =>
        simp only [injectTo, hp, hkind, hname]
        refine bind_congr_of_eq_ok fun value hvalue => ?_
        cases value with
        | list shapes =>
          have hitems := mapM_congr fun shape hshape =>
            h item shape (.item hp hkind hname hvalue hshape)
          simp only [hitems]
          refine bind_congr_of_eq_ok fun items heq => ?_
          cases separator with
          | none => rfl
          | some separator =>
            have hseparators : ∀ i ∈ List.range (items.length - 1), _ = _ := fun i hi =>
              h separator (.object []) (.separator hp hkind hname hvalue (by
                rw [(mapM_eq_ok_iff.1 heq).length_eq]
                have := List.mem_range.1 hi
                omega))
            simp only [mapM_congr hseparators]
        | _ => rfl
    | option item =>
      cases hname : p.name with
      | none => simp only [injectTo, hp, hkind, hname]
      | some name =>
        cases hnull : (shape.getD name).isNull with
        | true => simp only [injectTo, hp, hkind, hname, hnull, Bool.or_true, if_true]
        | false =>
          have hcall := h item _ (.option hp hkind hname hnull)
          simp only [injectTo, hp, hkind, hname, hcall]

/-- An error comes from a call, or else speaks of the shape. -/
theorem Grammar.Closed.injectTo_error (hg : g.Closed) (hcodec : codec.BlamesShapes) {depth : Nat}
    {id : PatternId} (hid : id < g.size) {shape : Shape} {e : ShapeError}
    (h : injectTo g codec (depth + 1) id shape = .error e) :
    e.isInternal = false ∨ ∃ child value, InjectCall g codec id shape child value ∧
      injectTo g codec depth child value = .error e := by
  obtain ⟨p, hp⟩ : ∃ p, g.pattern? id = some p := ⟨_, Array.getElem?_eq_getElem hid⟩
  -- a field that is missing, a field that is there, and what is made of it
  have hfield {name : String} {f : Shape → Except ShapeError (Tree ν)}
      (h : (shape.fieldOf name >>= f) = .error e) :
      e.isInternal = false ∨ ∃ value, shape.fieldOf name = .ok value ∧ f value = .error e :=
    (bind_eq_error_iff.1 h).imp_left Shape.isInternal_fieldOf
  have hwrapped {child : PatternId} {value : Shape} {f : Tree ν → Tree ν}
      (hcall : InjectCall g codec id shape child value)
      (h : (injectTo g codec depth child value >>= fun t => pure (f t)) = .error e) :
      ∃ child value, InjectCall g codec id shape child value ∧
        injectTo g codec depth child value = .error e :=
    ⟨child, value, hcall, bind_pure_eq_error_iff.1 h⟩
  cases hkind : p.kind with
  | consume terminal =>
    cases hname : p.name with
    | none => simp only [injectTo, hp, hkind, hname, reduceCtorEq] at h
    | some name =>
      simp only [injectTo, hp, hkind, hname] at h
      refine Or.inl ?_
      rcases hfield h with he | ⟨value, -, h⟩
      · exact he
      · exact hcodec.shapeToken (bind_pure_eq_error_iff.1 h)
  | literal text | line kind => simp only [injectTo, hp, hkind, reduceCtorEq] at h
  | indent child | group child | conditional child =>
    simp only [injectTo, hp, hkind] at h
    exact Or.inr (hwrapped (.layout hp (by rw [hkind]; rfl) (by simp [hkind,
      PatternKind.children])) h)
  | thunk rule =>
    simp only [injectTo, hp, hkind] at h
    obtain he | ⟨value, hvalue, h⟩ := hfield h
    · exact Or.inl he
    · have hrule := (hg.closedAt id p hp).rule_lt rule hkind
      have hbody : g.ruleBody? rule = some g.rules[rule].body := by
        simp [Grammar.ruleBody?, Array.getElem?_eq_getElem hrule]
      rw [hbody] at h
      exact Or.inr (hwrapped (.thunk hp hkind hvalue hbody) h)
  | sequence children =>
    simp only [injectTo, hp, hkind] at h
    obtain he | ⟨value, hvalue, h⟩ := hfield h
    · exact Or.inl he
    · obtain ⟨child, hchild, h⟩ := exists_of_mapM_eq_error (bind_pure_eq_error_iff.1 h)
      exact Or.inr ⟨child, _, .sequence hp hkind hvalue hchild, h⟩
  | choice alternatives mode typeNames =>
    cases hname : p.name with
    | none =>
      simp only [injectTo, hp, hkind, hname, Except.error.injEq] at h
      exact Or.inl (h ▸ rfl)
    | some name =>
      simp only [injectTo, hp, hkind, hname] at h
      obtain he | ⟨value, hvalue, h⟩ := hfield h
      · exact Or.inl he
      obtain he | ⟨tagged, htagged, h⟩ := bind_eq_error_iff.1 h
      · exact Or.inl (hcodec.shapeTagged he)
      split at h
      · exact Or.inl (Except.error.inj h ▸ rfl)
      split at h
      · exact Or.inl (Except.error.inj h ▸ rfl)
      · rename_i halternative
        exact Or.inr (hwrapped (.choice hp hkind hname hvalue htagged
          (List.mem_of_getElem? halternative)) h)
  | many item separator =>
    cases hname : p.name with
    | none =>
      simp only [injectTo, hp, hkind, hname, Except.error.injEq] at h
      exact Or.inl (h ▸ rfl)
    | some name =>
      simp only [injectTo, hp, hkind, hname] at h
      obtain he | ⟨value, hvalue, h⟩ := hfield h
      · exact Or.inl he
      split at h
      · rename_i shapes
        rcases bind_eq_error_iff.1 h with he | ⟨items, hitems, h⟩
        · obtain ⟨value, hmem, he⟩ := exists_of_mapM_eq_error he
          exact Or.inr ⟨item, value, .item hp hkind hname hvalue hmem, he⟩
        · cases separator with
          | none => cases h
          | some separator =>
            obtain ⟨i, hi, he⟩ := exists_of_mapM_eq_error (bind_pure_eq_error_iff.1 h)
            refine Or.inr ⟨separator, _, .separator hp hkind hname hvalue ?_, he⟩
            rw [(mapM_eq_ok_iff.1 hitems).length_eq]
            have := List.mem_range.1 hi
            omega
      · exact Or.inl (Except.error.inj h ▸ rfl)
  | option item =>
    cases hname : p.name with
    | none =>
      simp only [injectTo, hp, hkind, hname, Except.error.injEq] at h
      exact Or.inl (h ▸ rfl)
    | some name =>
      simp only [injectTo, hp, hkind, hname] at h
      split at h
      · exact Or.inl (Except.error.inj h ▸ rfl)
      split at h
      · cases h
      · rename_i hskip
        have hnull : (shape.getD name).isNull = false := by
          simp only [Bool.or_eq_true, not_or, Bool.not_eq_true] at hskip
          exact hskip.2
        exact Or.inr (hwrapped (.option hp hkind hname hnull) h)

end

/-! ### Descent -/

/-- Values of choices never grow by being read, and get smaller under all labels but those that
`keeps` names. -/
structure ShapeCodec.Narrows (codec : ShapeCodec ν) (keeps : Option String → Bool) : Prop where
  size_le : ∀ {value label tagged}, codec.shapeTagged value label = .ok tagged →
    tagged.value.size ≤ value.size
  size_lt : ∀ {value label tagged}, codec.shapeTagged value label = .ok tagged →
    keeps label = false → tagged.value.size < value.size

/-- How much smaller than the shape for a pattern the shapes for its parts are, at least, before a
selected field is put back. -/
def Grammar.loss (g : Grammar) (keeps : Option String → Bool) (p : Pattern) : Nat :=
  match p.kind with
  | .many .. | .option _ => 1
  | .thunk _ | .sequence _ => if p.name.getD mergeName = mergeName then 0 else 1
  | .choice .. => if p.name = some mergeName ∧ keeps (p.label.bind g.labelText?) then 0 else 1
  | _ => 0

/-- How much larger the shapes for the parts of a pattern get where a selected field is put back. -/
def Pattern.gain (p : Pattern) : Nat :=
  match p.kind with
  | .sequence _ | .option _ => if p.select.any (· ≠ mergeName) then 1 else 0
  | _ => 0

/-- The patterns that the walk asks for at a pattern of the kind. -/
def PatternKind.injectCalls (g : Grammar) : PatternKind → List PatternId
  | thunk rule => (g.ruleBody? rule).toList
  | kind => kind.children

section

variable {g : Grammar} {codec : ShapeCodec ν} {keeps : Option String → Bool}

theorem InjectCall.size_le (hcodec : codec.Narrows keeps) {id child : PatternId}
    {shape value : Shape} (h : InjectCall g codec id shape child value) :
    ∃ p, g.pattern? id = some p ∧ child ∈ p.kind.injectCalls g ∧
      value.size + g.loss keeps p ≤ shape.size + p.gain := by
  cases h with
  | thunk hp hkind hvalue hbody =>
    refine ⟨_, hp, by simp [hkind, PatternKind.injectCalls, hbody], ?_⟩
    simp only [Grammar.loss, Pattern.gain, hkind]
    exact Shape.size_fieldOf_le hvalue
  | layout hp hkind hchild =>
    refine ⟨_, hp, ?_, ?_⟩
    · simp only [PatternKind.injectCalls]
      split <;> simp_all [PatternKind.isLayout]
    · simp only [Grammar.loss]
      split <;> simp_all [PatternKind.isLayout]
  | sequence hp hkind hvalue hchild =>
    refine ⟨_, hp, by rw [hkind]; exact hchild, ?_⟩
    have hfield := Shape.size_fieldOf_le hvalue
    simp only [Grammar.loss, Pattern.gain, hkind]
    refine Nat.le_trans (Nat.add_le_add_right (Shape.size_unselect_le _ _) _) ?_
    omega
  | choice hp hkind hname hvalue htagged halternative =>
    refine ⟨_, hp, by rw [hkind]; exact halternative, ?_⟩
    have hfield := Shape.size_fieldOf_le hvalue
    have hle := hcodec.size_le htagged
    simp only [Grammar.loss, Pattern.gain, hkind, hname, Option.some.injEq]
    split
    · omega
    · rename_i hkeeps
      split at hfield
      · rename_i hmerge
        have hlt := hcodec.size_lt htagged (by simpa [hmerge] using hkeeps)
        omega
      · omega
  | item hp hkind hname hvalue hmem =>
    refine ⟨_, hp, by simp [hkind, PatternKind.injectCalls, PatternKind.children], ?_⟩
    have hfield := Shape.size_fieldOf_le hvalue
    have hitem := Shape.size_le_listSize hmem
    simp only [Grammar.loss, Pattern.gain, hkind]
    rw [Shape.size] at hfield
    omega
  | separator hp hkind hname hvalue hlength =>
    refine ⟨_, hp, by simp [hkind, PatternKind.injectCalls, PatternKind.children], ?_⟩
    have hfield := Shape.size_fieldOf_le hvalue
    -- there are no separators between less than two items
    have hitems := Nat.lt_of_lt_of_le hlength (Shape.length_le_listSize _)
    simp only [Grammar.loss, Pattern.gain, hkind, Shape.size, Shape.fieldsSize]
    rw [Shape.size] at hfield
    omega
  | option hp hkind hname hnull =>
    refine ⟨_, hp, by simp [hkind, PatternKind.injectCalls, PatternKind.children], ?_⟩
    have hfield := Shape.size_getD_lt hnull
    simp only [Grammar.loss, Pattern.gain, hkind]
    refine Nat.le_trans (Nat.add_le_add_right (Shape.size_unselect_le _ _) _) ?_
    omega

/-- With `weight` for each value of a shape, pattern and shape together come to less in every
call. -/
def Grammar.Descends (g : Grammar) (codec : ShapeCodec ν) (weight : Nat)
    (rank : PatternId → Nat) : Prop :=
  ∀ ⦃id child : PatternId⦄ ⦃shape value : Shape⦄, InjectCall g codec id shape child value →
    weight * value.size + rank child < weight * shape.size + rank id

/-- Checks that calls come to less. -/
def Grammar.checkDescent (g : Grammar) (keeps : Option String → Bool) (weight : Nat)
    (rank : PatternId → Nat) : Bool :=
  g.patterns.toList.zipIdx.all fun x => (x.1.kind.injectCalls g).all fun child =>
    rank child + weight * x.1.gain < rank x.2 + weight * g.loss keeps x.1

theorem Grammar.descends_of_check {weight : Nat} {rank : PatternId → Nat}
    (hcodec : codec.Narrows keeps) (h : g.checkDescent keeps weight rank = true) :
    g.Descends codec weight rank := by
  intro id child shape value hcall
  obtain ⟨p, hp, hchild, hsize⟩ := hcall.size_le hcodec
  have hmem : (p, id) ∈ g.patterns.toList.zipIdx := by
    rw [List.mem_zipIdx_iff_getElem?, Array.getElem?_toList]
    exact hp
  have hrank : rank child + weight * p.gain < rank id + weight * g.loss keeps p :=
    of_decide_eq_true (List.all_eq_true.1 (List.all_eq_true.1 h _ hmem) child hchild)
  have hweight := Nat.mul_le_mul_left weight hsize
  rw [Nat.mul_add, Nat.mul_add] at hweight
  omega

namespace Grammar.Descends

variable {weight : Nat} {rank : PatternId → Nat} {id : PatternId} {shape : Shape}

/-- All walks that go deep enough give one answer. -/
theorem injectTo_eq (h : g.Descends codec weight rank) {depth depth' : Nat}
    (hdepth : weight * shape.size + rank id < depth)
    (hdepth' : weight * shape.size + rank id < depth') :
    injectTo g codec depth id shape = injectTo g codec depth' id shape := by
  induction depth generalizing depth' id shape with
  | zero => exact absurd hdepth (Nat.not_lt_zero _)
  | succ depth ih =>
    cases depth' with
    | zero => exact absurd hdepth' (Nat.not_lt_zero _)
    | succ depth' =>
      refine injectTo_congr fun child value hcall => ?_
      have hlt := h hcall
      exact ih (by omega) (by omega)

/-- An error after a walk that goes deep enough speaks of the shape. -/
theorem isInternal_error (h : g.Descends codec weight rank) (hg : g.Closed)
    (hcodec : codec.BlamesShapes) (hid : id < g.size) {depth : Nat}
    (hdepth : weight * shape.size + rank id < depth) {e : ShapeError}
    (he : injectTo g codec depth id shape = .error e) : e.isInternal = false := by
  induction depth generalizing id shape with
  | zero => exact absurd hdepth (Nat.not_lt_zero _)
  | succ depth ih =>
    rcases hg.injectTo_error hcodec hid he with he | ⟨child, value, hcall, he⟩
    · exact he
    · have hlt := h hcall
      exact ih (hg.lt_size_of_injectCall hcall) (by omega) he

/-- Injection ends: walks that go deep enough all give one answer, a tree or an error that speaks of
the shape. -/
theorem ends (h : g.Descends codec weight rank) (hg : g.Closed) (hcodec : codec.BlamesShapes)
    (hid : id < g.size) (shape : Shape) : ∃ answer : Except ShapeError (Tree ν),
      (∀ depth, weight * shape.size + rank id < depth →
        injectTo g codec depth id shape = answer) ∧
      ∀ e, answer = .error e → e.isInternal = false :=
  ⟨injectTo g codec (weight * shape.size + rank id + 1) id shape,
    fun _ hdepth => h.injectTo_eq hdepth (Nat.lt_succ_self _),
    fun _ he => h.isInternal_error hg hcodec hid (Nat.lt_succ_self _) he⟩

end Grammar.Descends

end

end ReversibleGrammar
