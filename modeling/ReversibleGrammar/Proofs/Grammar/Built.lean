/-
Grammars that a builder accepts.

A client of the builder makes calls in any order, with any numbers for patterns:
numbers that were never given out, numbers of patterns to come.  What holds of
every builder that such calls lead to, together with the checks of
`Builder.build`, makes the grammar closed:

* `Builder.Sound` — what every call keeps;
* `BuilderCall.sound_run` — that it does;
* `Grammar.Built.closed` — no look-up in an accepted grammar fails;
* `Grammar.closed_of_check` — whether a given grammar is closed, computed.
-/
import ReversibleGrammar.Grammar.Builder
import ReversibleGrammar.Proofs.Listwise

namespace ReversibleGrammar

/-- A call of the builder. -/
inductive BuilderCall where
  | consume (terminal : String)
  | consumeNamed (terminal name : String)
  | sequence (children : List PatternId)
  | choice (alternatives : List PatternId)
  | parallelChoice (alternatives : List PatternId)
  | typedChoice (alternatives : List (String × PatternId))
  | many (item : PatternId)
  | manySeparated (item separator : PatternId)
  | option (item : PatternId)
  | rule (name : String)
  | define (name : String) (body : PatternId)
  | literal (text : String)
  | line (kind : LineKind)
  | indent (child : PatternId)
  | group (child : PatternId)
  | conditional (child : PatternId) (reference : String) (before after : Option Decoration)
  | indentedMany (id : PatternId) (padding : LineKind)
  | named (id : PatternId) (name : String)
  | labeled (id : PatternId) (text : String)
  | select (id : PatternId) (field : String)
  | absentAs (id : PatternId) (shape : Shape)
  | parallel (id : PatternId)

namespace BuilderCall

/-- The builder after a call. -/
def run : BuilderCall → Builder → Builder
  | consume terminal, b => (Build.consume terminal b).2
  | consumeNamed terminal name, b => (Build.consumeNamed terminal name b).2
  | sequence children, b => (Build.sequence children b).2
  | choice alternatives, b => (Build.choice alternatives b).2
  | parallelChoice alternatives, b => (Build.parallelChoice alternatives b).2
  | typedChoice alternatives, b => (Build.typedChoice alternatives b).2
  | many item, b => (Build.many item b).2
  | manySeparated item separator, b => (Build.manySeparated item separator b).2
  | option item, b => (Build.option item b).2
  | rule name, b => (Build.rule name b).2
  | define name body, b => (Build.define name body b).2
  | literal text, b => (Build.literal text b).2
  | line kind, b => (Build.line kind b).2
  | indent child, b => (Build.indent child b).2
  | group child, b => (Build.group child b).2
  | conditional child reference before after, b =>
    (Build.conditional child reference before after b).2
  | indentedMany id padding, b => (Build.indentedMany id padding b).2
  | named id name, b => (Build.named id name b).2
  | labeled id text, b => (Build.labeled id text b).2
  | select id field, b => (Build.select id field b).2
  | absentAs id shape, b => (Build.absentAs id shape b).2
  | parallel id, b => (Build.parallel id b).2

end BuilderCall

/-- The grammar that a list of calls makes, if it is accepted. -/
def Grammar.ofCalls (calls : List BuilderCall) : Except GrammarError Grammar :=
  (calls.foldl (fun b call => call.run b) Builder.empty).build

/-- The grammar is what some calls of a builder make. -/
def Grammar.Built (g : Grammar) : Prop := ∃ calls, Grammar.ofCalls calls = .ok g

/-! ### What every call keeps -/

/-- The rule, the label and the type names of a pattern are in order, for `rules` rules and
`labels` labels. -/
structure Pattern.InOrder (p : Pattern) (rules labels : Nat) : Prop where
  rule_lt : ∀ r, p.kind = .thunk r → r < rules
  label_lt : ∀ l, p.label = some l → l < labels
  typeNames_length : ∀ alternatives mode names,
    p.kind = .choice alternatives mode (some names) → names.length = alternatives.length

theorem Pattern.InOrder.mono {p : Pattern} {rules labels rules' labels' : Nat}
    (h : p.InOrder rules labels) (hr : rules ≤ rules') (hl : labels ≤ labels') :
    p.InOrder rules' labels' where
  rule_lt r hk := Nat.lt_of_lt_of_le (h.rule_lt r hk) hr
  label_lt l hk := Nat.lt_of_lt_of_le (h.label_lt l hk) hl
  typeNames_length := h.typeNames_length

namespace Builder

/-- Every pattern is at its number and in order. -/
structure Sound (b : Builder) : Prop where
  id_eq : ∀ (i : Nat) (p : Pattern), b.patterns[i]? = some p → p.id = i
  inOrder : ∀ (i : Nat) (p : Pattern), b.patterns[i]? = some p →
    p.InOrder b.rules.size b.labels.size

theorem sound_empty : Sound empty where
  id_eq i p h := by simp [empty] at h
  inOrder i p h := by simp [empty] at h

/-- More rules and labels do no harm. -/
theorem Sound.of_patterns_eq {b c : Builder} (hb : b.Sound) (hp : c.patterns = b.patterns)
    (hr : b.rules.size ≤ c.rules.size) (hl : b.labels.size ≤ c.labels.size) : c.Sound where
  id_eq i p h := hb.id_eq i p (hp ▸ h)
  inOrder i p h := (hb.inOrder i p (hp ▸ h)).mono hr hl

theorem Sound.refuse {b : Builder} (hb : b.Sound) (error : GrammarError) :
    (b.refuse error).Sound :=
  hb.of_patterns_eq rfl le_rfl le_rfl

theorem Sound.mention {b : Builder} (hb : b.Sound) (name : String) :
    (b.mention name).2.Sound ∧ (b.mention name).1 < (b.mention name).2.rules.size := by
  unfold Builder.mention
  split
  · rename_i rule hrule
    exact ⟨hb, (Array.findIdx?_eq_some_iff_getElem.1 hrule).1⟩
  · exact ⟨hb.of_patterns_eq rfl (by simp) le_rfl, by simp⟩

theorem Sound.label {b : Builder} (hb : b.Sound) (text : String) :
    (b.label text).2.Sound ∧ (b.label text).1 < (b.label text).2.labels.size := by
  unfold Builder.label
  split
  · rename_i label hlabel
    exact ⟨hb, (Array.findIdx?_eq_some_iff_getElem.1 hlabel).1⟩
  · exact ⟨hb.of_patterns_eq rfl le_rfl (by simp), by simp⟩

theorem Sound.add {b : Builder} (hb : b.Sound) (kind : PatternKind)
    (hrule : ∀ r, kind = .thunk r → r < b.rules.size)
    (hnames : ∀ alternatives mode names, kind = .choice alternatives mode (some names) →
      names.length = alternatives.length) : (Build.add kind b).2.Sound where
  id_eq i p h := by
    simp only [Build.add, Array.getElem?_push] at h
    split at h
    · rename_i hi
      rw [← Option.some.inj h, hi]
    · exact hb.id_eq i p h
  inOrder i p h := by
    simp only [Build.add, Array.getElem?_push] at h
    split at h
    · rw [← Option.some.inj h]
      exact ⟨hrule, fun l hl => absurd hl (by simp), hnames⟩
    · exact hb.inOrder i p h

/-- A change that keeps numbers and keeps patterns in order keeps all. -/
theorem Sound.change {b : Builder} (hb : b.Sound) (id : PatternId)
    {f : Pattern → Except GrammarError Pattern}
    (hf : ∀ p q, f p = .ok q → p.InOrder b.rules.size b.labels.size →
      q.id = p.id ∧ q.InOrder b.rules.size b.labels.size) : (b.change id f).Sound := by
  unfold Builder.change
  split
  · exact hb.refuse _
  · rename_i pattern hpattern
    split
    · rename_i changed hchanged
      have hq := hf pattern changed hchanged (hb.inOrder id pattern hpattern)
      constructor
      · intro i p h
        simp only [Array.getElem?_setIfInBounds] at h
        split at h
        · rename_i hi
          split at h
          · rw [← Option.some.inj h, hq.1, ← hi]
            exact hb.id_eq id pattern hpattern
          · cases h
        · exact hb.id_eq i p h
      · intro i p h
        simp only [Array.getElem?_setIfInBounds] at h
        split at h
        · split at h
          · rw [← Option.some.inj h]
            exact hq.2
          · cases h
        · exact hb.inOrder i p h
    · exact hb.refuse _

end Builder

/-! ### Calls one by one -/

section Calls

variable {b : Builder}

/-- A pattern of a kind that mentions neither a rule nor type names. -/
theorem Builder.Sound.addPlain (hb : b.Sound) (kind : PatternKind)
    (hrule : ∀ r, kind ≠ .thunk r)
    (hnames : ∀ alternatives mode names, kind ≠ .choice alternatives mode (some names)) :
    (Build.add kind b).2.Sound :=
  hb.add kind (fun r h => absurd h (hrule r)) (fun a m n h => absurd h (hnames a m n))

/-- Attributes that leave the number, the kind and the label as they are. -/
theorem Builder.Sound.changePlain (hb : b.Sound) (id : PatternId)
    {f : Pattern → Except GrammarError Pattern}
    (hf : ∀ p q, f p = .ok q → q.id = p.id ∧ q.kind = p.kind ∧ q.label = p.label) :
    (b.change id f).Sound := by
  refine hb.change id fun p q h hp => ?_
  obtain ⟨hid, hkind, hlabel⟩ := hf p q h
  refine ⟨hid, ?_, ?_, ?_⟩
  · rw [hkind]
    exact hp.rule_lt
  · rw [hlabel]
    exact hp.label_lt
  · rw [hkind]
    exact hp.typeNames_length

theorem Builder.Sound.named (hb : b.Sound) (id : PatternId) (name : String) :
    (Build.named id name b).2.Sound := by
  show (b.change id fun p => .ok { p with name := some name }).Sound
  refine hb.changePlain id fun p q h => ?_
  rw [← Except.ok.inj h]
  exact ⟨rfl, rfl, rfl⟩

theorem Builder.Sound.parallel (hb : b.Sound) (id : PatternId) :
    (Build.parallel id b).2.Sound := by
  refine hb.change id fun p q h hp => ?_
  split at h
  · rename_i alternatives mode names hkind
    rw [← Except.ok.inj h]
    refine ⟨rfl, fun r hr => by simp at hr, hp.label_lt, fun a m n ha => ?_⟩
    simp only [PatternKind.choice.injEq] at ha
    obtain ⟨rfl, -, rfl⟩ := ha
    exact hp.typeNames_length _ _ _ hkind
  · cases h

theorem Builder.Sound.labeled (hb : b.Sound) (id : PatternId) (text : String) :
    (Build.labeled id text b).2.Sound := by
  obtain ⟨hsound, hlt⟩ := hb.label text
  show ((b.label text).2.change id
    fun p => .ok { p with label := some (b.label text).1 }).Sound
  refine hsound.change id fun p q h hp => ?_
  rw [← Except.ok.inj h]
  refine ⟨rfl, hp.rule_lt, fun l hl => ?_, hp.typeNames_length⟩
  rw [← Option.some.inj hl]
  exact hlt

theorem Builder.Sound.select (hb : b.Sound) (id : PatternId) (field : String) :
    (Build.select id field b).2.Sound := by
  refine hb.changePlain id fun p q h => ?_
  split at h
  · rw [← Except.ok.inj h]
    exact ⟨rfl, rfl, rfl⟩
  · rw [← Except.ok.inj h]
    exact ⟨rfl, rfl, rfl⟩
  · cases h

theorem Builder.Sound.absentAs (hb : b.Sound) (id : PatternId) (shape : Shape) :
    (Build.absentAs id shape b).2.Sound := by
  refine hb.changePlain id fun p q h => ?_
  split at h
  · rw [← Except.ok.inj h]
    exact ⟨rfl, rfl, rfl⟩
  · cases h

theorem Builder.Sound.rule (hb : b.Sound) (name : String) : (Build.rule name b).2.Sound := by
  obtain ⟨hsound, hlt⟩ := hb.mention name
  refine hsound.add _ (fun r hr => ?_) (fun a m n h => by cases h)
  rw [← PatternKind.thunk.inj hr]
  exact hlt

theorem Builder.Sound.define (hb : b.Sound) (name : String) (body : PatternId) :
    (Build.define name body b).2.Sound := by
  obtain ⟨hsound, -⟩ := hb.mention name
  unfold Build.define
  dsimp only
  split
  · exact hsound.refuse _
  · exact hsound.of_patterns_eq rfl (by simp) le_rfl

theorem Builder.Sound.indentedMany (hb : b.Sound) (many : PatternId) (padding : LineKind) :
    (Build.indentedMany many padding b).2.Sound := by
  unfold Build.indentedMany
  split
  · exact hb.refuse _
  · rename_i name _
    have hinner := hb.addPlain (.conditional many name (some (.line padding)) none)
      (by simp) (by simp)
    have hindent := hinner.addPlain (.indent b.patterns.size) (by simp) (by simp)
    have houter (id : PatternId) := hindent.addPlain
      (.conditional id name none (some (.line padding))) (by simp) (by simp)
    exact (houter _).addPlain (.group _) (by simp) (by simp)

end Calls

/-- Every call keeps the builder sound. -/
theorem BuilderCall.sound_run {b : Builder} (hb : b.Sound) (call : BuilderCall) :
    (call.run b).Sound := by
  cases call with
  | consumeNamed terminal name =>
    have hadd := hb.addPlain (.consume terminal) (by simp) (by simp)
    exact hadd.named b.patterns.size name
  | parallelChoice alternatives =>
    have hadd := hb.addPlain (.choice alternatives .ordered none) (by simp) (by simp)
    exact hadd.parallel b.patterns.size
  | typedChoice alternatives =>
    refine hb.add _ (fun r h => by cases h) fun a m n h => ?_
    rw [PatternKind.choice.injEq, Option.some.injEq] at h
    rw [← h.1, ← h.2.2, List.length_map, List.length_map]
  | rule name => exact hb.rule name
  | define name body => exact hb.define name body
  | indentedMany many padding => exact hb.indentedMany many padding
  | named id name => exact hb.named id name
  | labeled id text => exact hb.labeled id text
  | select id field => exact hb.select id field
  | absentAs id shape => exact hb.absentAs id shape
  | parallel id => exact hb.parallel id
  | _ => exact hb.addPlain _ (by simp) (by simp)

theorem BuilderCall.sound_foldl (calls : List BuilderCall) {b : Builder} (hb : b.Sound) :
    (calls.foldl (fun b call => call.run b) b).Sound := by
  induction calls generalizing b with
  | nil => exact hb
  | cons call calls ih => exact ih (sound_run hb call)

/-! ### Accepted grammars -/

theorem Builder.finishRule_eq_ok {size : Nat} {slot : RuleSlot} {rule : Rule}
    (h : finishRule size slot = .ok rule) : rule.body < size := by
  unfold finishRule at h
  split at h
  · cases h
  · split at h
    · rw [← Except.ok.inj h]
      assumption
    · cases h

theorem Builder.slot_eq_of_finishRule {size : Nat} {slot : RuleSlot} {rule : Rule}
    (h : finishRule size slot = .ok rule) : slot = ⟨rule.name, some rule.body⟩ := by
  obtain ⟨name, body⟩ := slot
  cases body with
  | none => cases h
  | some body =>
    simp only [finishRule] at h
    split at h
    · exact Except.ok.inj h ▸ rfl
    · cases h

/-- A builder is known from the grammar that it makes. -/
theorem Builder.eq_of_build {b : Builder} {g : Grammar} (h : b.build = .ok g) :
    b = ⟨g.patterns, g.rules.map fun rule => ⟨rule.name, some rule.body⟩, g.labels, none⟩ := by
  obtain ⟨patterns, slots, labels, misuse⟩ := b
  unfold Builder.build at h
  split at h
  · cases h
  · cases h
  · rename_i hmisuse hstray
    obtain rfl : misuse = none := hmisuse
    obtain ⟨rules, hrules, hg⟩ := bind_eq_ok_iff.1 h
    cases hg
    have hslots : slots.toList = rules.map fun rule => ⟨rule.name, some rule.body⟩ := by
      rw [← List.forall₂_eq_eq_eq, List.forall₂_map_right_iff]
      exact (mapM_eq_ok_iff.1 hrules).imp fun _ _ => slot_eq_of_finishRule
    simp [← hslots]

/-- A builder that is sound builds closed grammars. -/
theorem Builder.Sound.closed_build {b : Builder} (hb : b.Sound) {g : Grammar}
    (h : b.build = .ok g) : g.Closed := by
  unfold Builder.build at h
  split at h
  · cases h
  · cases h
  · rename_i hstray
    cases hrules : b.rules.toList.mapM (finishRule b.patterns.size) with
    | error e => simp [hrules, bind, Except.bind] at h
    | ok rules =>
      simp only [hrules, bind, Except.bind, pure, Except.pure, Except.ok.injEq] at h
      have hall := mapM_eq_ok_iff.1 hrules
      have hlength : rules.length = b.rules.size := by simpa using hall.length_eq.symm
      subst h
      refine ⟨hb.id_eq, fun i p hp => ?_, fun r rule hrule => ?_⟩
      · have hin := hb.inOrder i p hp
        refine ⟨fun c hc => ?_, fun r hr => ?_, hin.label_lt, hin.typeNames_length⟩
        · rw [Builder.strayChild?, Array.findSome?_eq_none_iff] at hstray
          have := List.find?_eq_none.1 (hstray p (Array.mem_of_getElem? hp)) c hc
          simpa using this
        · simpa [hlength] using hin.rule_lt r hr
      · rw [List.getElem?_toArray] at hrule
        obtain ⟨slot, -, hslot⟩ := exists_of_forall₂_of_mem hall (List.mem_of_getElem? hrule)
        exact finishRule_eq_ok hslot

/-- No look-up in an accepted grammar fails. -/
theorem Grammar.Built.closed {g : Grammar} (h : g.Built) : g.Closed := by
  obtain ⟨calls, hcalls⟩ := h
  exact (BuilderCall.sound_foldl calls Builder.sound_empty).closed_build hcalls

/-! ### Closed grammars, computed -/

namespace Grammar

variable {g : Grammar}

/-- Checks a pattern for its number and for `ClosedAt`. -/
def checkClosedAt (g : Grammar) (id : PatternId) (p : Pattern) : Bool :=
  p.id == id && (p.kind.children.all (· < g.patterns.size)) &&
    (p.label.all (· < g.labels.size)) &&
    match p.kind with
    | .thunk rule => decide (rule < g.rules.size)
    | .choice alternatives _ (some names) => names.length == alternatives.length
    | _ => true

/-- Checks for `Closed`. -/
def checkClosed (g : Grammar) : Bool :=
  (g.patterns.toList.zipIdx.all fun x => g.checkClosedAt x.2 x.1) &&
    g.rules.toList.all (·.body < g.patterns.size)

theorem closed_of_check (h : g.checkClosed = true) : g.Closed := by
  rw [checkClosed, Bool.and_eq_true] at h
  have hpattern (id : PatternId) (p : Pattern) (hp : g.patterns[id]? = some p) :
      g.checkClosedAt id p = true := by
    refine List.all_eq_true.1 h.1 (p, id) ?_
    rwa [List.mem_zipIdx_iff_getElem?, Array.getElem?_toList]
  refine ⟨fun id p hp => ?_, fun id p hp => ?_, fun rule r hr => ?_⟩
  · have hcheck := hpattern id p hp
    simp only [checkClosedAt, Bool.and_eq_true, beq_iff_eq] at hcheck
    exact hcheck.1.1.1
  · have hcheck := hpattern id p hp
    simp only [checkClosedAt, Bool.and_eq_true, beq_iff_eq, List.all_eq_true,
      decide_eq_true_eq] at hcheck
    obtain ⟨⟨⟨-, hchildren⟩, hlabel⟩, hkind⟩ := hcheck
    refine ⟨hchildren, fun rule hk => ?_, fun l hl => ?_, fun alternatives mode names hk => ?_⟩
    · simpa [hk] using hkind
    · simpa [hl] using hlabel
    · simpa [hk] using hkind
  · exact of_decide_eq_true
      (List.all_eq_true.1 h.2 r (Array.mem_toList_iff.2 (Array.mem_of_getElem? hr)))

/-- The bodies of rules are patterns of a closed grammar. -/
theorem Closed.lt_size_of_rule? (hg : g.Closed) {rule : String} {id : PatternId}
    (h : g.rule? rule = some id) : id < g.patterns.size := by
  obtain ⟨r, hr, rfl⟩ := Option.map_eq_some_iff.1 h
  obtain ⟨i, hi⟩ := Array.mem_iff_getElem?.1 (Array.mem_of_find?_eq_some hr)
  exact hg.body_lt i r hi

end Grammar

/-- An `a` with any number of `x` after it, left-recursively. -/
def Grammar.suffixes : Grammar where
  patterns := #[{ id := 0, kind := .thunk 0 }, { id := 1, kind := .consume "x" },
    { id := 2, kind := .sequence [0, 1] }, { id := 3, kind := .consume "a" },
    { id := 4, kind := .choice [2, 3] .parallel none }]
  rules := #[⟨"suffixes", 4⟩]
  labels := #[]

theorem Grammar.built_suffixes : suffixes.Built :=
  ⟨[.rule "suffixes", .consume "x", .sequence [0, 1], .consume "a", .parallelChoice [2, 3],
    .define "suffixes" 4], by cbv⟩

end ReversibleGrammar
