/-
Trees with other values at their leaves.

Printing sees no more of a value than its text, shaping no more than its shape, and matching
no more of a token than its types.  With values that look the same, a tree has the same print
and the same shape, and with tokens that look the same, a grammar matches the same trees, but
for the values.

* `Tree.map` — a tree with other values;
* `print_map`, `extract_map` — its print and its shape;
* `Pattern.readings_map`, `Solves.map` — matches among other tokens.
-/
import ReversibleGrammar.Proofs.Grammar.Readings
import ReversibleGrammar.Shaping.Extract
import ReversibleGrammar.Tree.Document

namespace ReversibleGrammar

variable {ν μ : Type}

/-! ### Trees -/

namespace Tree

mutual

/-- The tree with another value at each leaf. -/
def map (f : ν → μ) : Tree ν → Tree μ
  | leaf p v => leaf p (f v)
  | sequence p ts => sequence p (mapAll f ts)
  | choice p index t => choice p index (t.map f)
  | many p items separators => many p (mapAll f items) (mapAll f separators)
  | absent p => absent p
  | present p t => present p (t.map f)
  | wrapped p t => wrapped p (t.map f)
  | mark p => mark p

/-- Several trees with other values. -/
def mapAll (f : ν → μ) : List (Tree ν) → List (Tree μ)
  | [] => []
  | t :: ts => t.map f :: mapAll f ts

end

theorem mapAll_eq_map (f : ν → μ) (ts : List (Tree ν)) : mapAll f ts = ts.map (map f) := by
  induction ts with
  | nil => rfl
  | cons t ts ih => rw [mapAll, ih, List.map_cons]

mutual

theorem findNamed?_map (f : ν → μ) (name : String) :
    ∀ t : Tree ν, (t.map f).findNamed? name = (t.findNamed? name).map (map f)
  | leaf p v => by
    simp only [map, findNamed?]
    split <;> rfl
  | sequence p ts => by
    simp only [map, findNamed?, findNamedIn?_map f name ts]
    split <;> simp [map]
  | choice p index t => by
    simp only [map, findNamed?, findNamed?_map f name t]
    split <;> simp [map]
  | many p items separators => by
    simp only [map, findNamed?, findNamedIn?_map f name items, findNamedIn?_map f name separators]
    split
    · simp [map]
    · rw [Option.map_or]
  | absent p => by
    simp only [map, findNamed?]
    split <;> rfl
  | present p t => by
    simp only [map, findNamed?, findNamed?_map f name t]
    split <;> simp [map]
  | wrapped p t => by
    simp only [map, findNamed?, findNamed?_map f name t]
    split <;> simp [map]
  | mark p => by
    simp only [map, findNamed?]
    split <;> rfl

theorem findNamedIn?_map (f : ν → μ) (name : String) :
    ∀ ts : List (Tree ν), findNamedIn? name (mapAll f ts) = (findNamedIn? name ts).map (map f)
  | [] => rfl
  | t :: ts => by
    simp only [mapAll, findNamedIn?, findNamed?_map f name t, findNamedIn?_map f name ts,
      Option.map_or]

end

theorem isTruthy_map (f : ν → μ) (t : Tree ν) : (t.map f).isTruthy = t.isTruthy := by
  cases t with
  | many p items separators => cases items <;> rfl
  | _ => rfl

theorem holdsTruthy_map (f : ν → μ) (reference : String) (t : Tree ν) :
    (t.map f).holdsTruthy reference = t.holdsTruthy reference := by
  rw [holdsTruthy, holdsTruthy, findNamed?_map]
  cases t.findNamed? reference with
  | none => rfl
  | some found => exact isTruthy_map f found

theorem wrapDoc_map (f : ν → μ) (p : Pattern) (t : Tree ν) (inner : Doc) :
    wrapDoc p (t.map f) inner = wrapDoc p t inner := by
  have hwrapped : wrapped p (t.map f) = (wrapped p t).map f := rfl
  unfold wrapDoc
  rw [hwrapped]
  simp only [holdsTruthy_map]

section

variable [TokenText ν] [TokenText μ] {f : ν → μ}

mutual

theorem toDoc_map (hf : ∀ v, TokenText.text (f v) = TokenText.text v) :
    ∀ t : Tree ν, (t.map f).toDoc = t.toDoc
  | leaf p v => by simp only [map, toDoc, hf]
  | sequence p ts => by simp only [map, toDoc, toDocs_map hf ts]
  | choice p index t => by simp only [map, toDoc, toDoc_map hf t]
  | many p items separators => by
    simp only [map, toDoc, toDocs_map hf items, toDocs_map hf separators]
  | absent p => rfl
  | present p t => by simp only [map, toDoc, toDoc_map hf t]
  | wrapped p t => by simp only [map, toDoc, toDoc_map hf t, wrapDoc_map]
  | mark p => rfl

theorem toDocs_map (hf : ∀ v, TokenText.text (f v) = TokenText.text v) :
    ∀ ts : List (Tree ν), toDocs (mapAll f ts) = toDocs ts
  | [] => rfl
  | t :: ts => by simp only [mapAll, toDocs, toDoc_map hf t, toDocs_map hf ts]

end

/-- A tree with values of the same texts prints the same. -/
theorem print_map (hf : ∀ v, TokenText.text (f v) = TokenText.text v) (t : Tree ν)
    (config : PrintConfig) : (t.map f).print config = t.print config := by
  rw [print, print, toDoc_map hf]

end

section

variable {g : Grammar} {f : ν → ν} {codec : ShapeCodec ν}

mutual

/-- A tree with values of the same shapes has the same shape. -/
theorem extract_map (hf : ∀ v, codec.tokenShape (f v) = codec.tokenShape v) :
    ∀ t : Tree ν, (t.map f).extract g codec = t.extract g codec
  | leaf p v => by simp only [map, extract, hf]
  | sequence p ts => by simp only [map, extract, extractAll_map hf ts]
  | choice p index t => by simp only [map, extract, extract_map hf t]
  | many p items separators => by simp only [map, extract, extractAll_map hf items]
  | absent p => rfl
  | present p t => by simp only [map, extract, extract_map hf t]
  | wrapped p t => by simp only [map, extract, extract_map hf t]
  | mark p => rfl

theorem extractAll_map (hf : ∀ v, codec.tokenShape (f v) = codec.tokenShape v) :
    ∀ ts : List (Tree ν), extractAll g codec (mapAll f ts) = extractAll g codec ts
  | [] => rfl
  | t :: ts => by simp only [mapAll, extractAll, extract_map hf t, extractAll_map hf ts]

end

end

end Tree

/-! ### Matches -/

theorem levels_map {α β : Type} {extend : α → List α} {extend' : β → List β} {F : α → β}
    (h : ∀ x, extend' (F x) = (extend x).map F) (rounds : Nat) (xs : List α) :
    levels extend' rounds (xs.map F) = (levels extend rounds xs).map F := by
  induction rounds generalizing xs with
  | zero => rfl
  | succ rounds ih =>
    have hnext : (xs.map F).flatMap extend' = (xs.flatMap extend).map F := by
      rw [List.flatMap_map, List.map_flatMap]
      exact List.flatMap_congr fun x _ => h x
    rw [levels, levels, hnext, ih, List.map_append]

theorem select_map {α β : Type} (F : α → β) (mode : ChoiceMode) (xss : List (List α)) :
    mode.select (xss.map (List.map F)) = (mode.select xss).map F := by
  cases mode with
  | parallel => exact List.map_flatten.symm
  | ordered =>
    have hempty : (fun xs => !List.isEmpty xs) ∘ List.map F = fun xs => !List.isEmpty xs := by
      funext xs
      cases xs <;> rfl
    simp only [ChoiceMode.select, List.find?_map, hempty]
    cases xss.find? fun xs => !xs.isEmpty <;> rfl

/-- A match with another value at each leaf. -/
def relabel (f : ν → μ) (y : Tree ν × Nat) : Tree μ × Nat := (y.1.map f, y.2)

/-- The matches with other values. -/
def Readings.map (f : ν → μ) (read : Readings ν) : Readings μ :=
  fun id i => (read id i).map (relabel f)

/-- The repetition with other values. -/
def Chain.map (f : ν → μ) (c : Chain ν) : Chain μ :=
  ⟨c.items.map (Tree.map f), c.separators.map (Tree.map f), c.mark, c.stop, c.afterItem⟩

section

variable {f : ν → μ} {read : Readings ν}

theorem prefixes_map (f : ν → μ) (read : Readings ν) (children : List PatternId) (i : Nat) :
    (read.map f).prefixes children i =
      (read.prefixes children i).map fun x => (x.1.map (Tree.map f), x.2) := by
  induction children using List.reverseRecOn with
  | nil => rfl
  | append_singleton children child ih =>
    rw [prefixes_append_singleton, prefixes_append_singleton, ih, List.flatMap_map,
      List.map_flatMap]
    refine List.flatMap_congr fun x _ => ?_
    simp [Readings.extendPrefix, Readings.map, relabel]

theorem extend_map (f : ν → μ) (read : Readings ν) (item : PatternId)
    (separator : Option PatternId) (c : Chain ν) :
    (c.map f).extend (read.map f) item separator =
      (c.extend read item separator).map (Chain.map f) := by
  have hnext : (c.map f).nextSeparator? separator = c.nextSeparator? separator := rfl
  unfold Chain.extend
  rw [hnext]
  cases c.nextSeparator? separator with
  | some s => simp [Readings.map, relabel, Chain.map, Chain.withSeparator, Function.comp_def]
  | none =>
    simp only [Readings.map, List.filter_map, List.map_map]
    simp [relabel, Chain.map, Chain.withItem, Function.comp_def]
    rfl

theorem chains_map (f : ν → μ) (read : Readings ν) (item : PatternId)
    (separator : Option PatternId) (size i : Nat) :
    (read.map f).chains item separator size i =
      (read.chains item separator size i).map (Chain.map f) :=
  levels_map (extend_map f read item separator) (2 * (size - i) + 1) [.start i]

variable {τ τ' : Type} [Token τ ν] [Token τ' μ] {e : τ → τ'}

/-- Among tokens of the same types, a pattern matches the same but for the values. -/
theorem Pattern.readings_map (his : ∀ token terminal, Token.is (e token) terminal =
      Token.is token terminal) (hvalue : ∀ token, Token.value (e token) = f (Token.value token))
    (p : Pattern) (g : Grammar) (tokens : Array τ) (read : Readings ν) (i : Nat) :
    p.readings g (tokens.map e) (read.map f) i =
      (p.readings g tokens read i).map (relabel f) := by
  cases hkind : p.kind with
  | consume terminal =>
    simp only [readings, hkind, Array.getElem?_map]
    cases tokens[i]? with
    | none => rfl
    | some token =>
      simp only [Option.map_some, his, hvalue]
      split <;> rfl
  | sequence children =>
    simp [readings, hkind, prefixes_map, relabel, Tree.map, Tree.mapAll_eq_map]
  | choice alternatives mode names =>
    simp only [readings, hkind, ← select_map]
    simp [Readings.alternatives, Readings.map, relabel, Tree.map, Function.comp_def]
  | many item separator =>
    have hcomplete : Chain.isComplete ∘ Chain.map f = Chain.isComplete := by
      funext c
      simp [Chain.isComplete, Chain.map]
    simp [readings, hkind, chains_map, List.filter_map, hcomplete, relabel, Chain.map, Tree.map,
      Tree.mapAll_eq_map]
  | option item => simp [readings, hkind, Readings.map, relabel, Tree.map]
  | thunk rule =>
    simp only [readings, hkind]
    cases g.ruleBody? rule with
    | none => rfl
    | some body => simp [Readings.map, relabel, Tree.map]
  | indent | group | conditional => simp [readings, hkind, Readings.map, relabel, Tree.map]
  | literal | line => simp [readings, hkind, relabel, Tree.map]

/-- Among tokens of the same types, the same trees are made of each other but for the values. -/
theorem Readings.Solves.map {g : Grammar} {tokens : Array τ} (his : ∀ token terminal,
      Token.is (e token) terminal = Token.is token terminal)
    (hvalue : ∀ token, Token.value (e token) = f (Token.value token))
    (h : read.Solves g tokens) : (read.map f).Solves g (tokens.map e) := by
  intro id i hi
  rw [Array.size_map] at hi
  have hread : read.map f id i = (read id i).map (relabel f) := rfl
  rw [hread, h id i hi]
  cases g.pattern? id with
  | none => rfl
  | some p => exact (p.readings_map his hvalue g tokens read i).symm

end

end ReversibleGrammar
