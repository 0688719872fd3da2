/-
Building grammars.

A builder hands out the numbers of patterns from zero.  Rules and labels get
their numbers when they are first mentioned.  A misuse is recorded and the call
still gives a number back, so that grammars are written as expressions; the
first misuse is what `Builder.build` reports.

* `Build` — a step of building, run on a builder;
* `Builder.build` — the grammar, or why there is none.
-/
import ReversibleGrammar.Grammar.Basic

namespace ReversibleGrammar

/-- Why a grammar is refused. -/
inductive GrammarError where
  | undefinedRule (name : String)
  | duplicateRule (name : String)
  | unknownPattern (id : PatternId)
  | invalidAttribute (setter kind : String)
  | unnamedIndentedMany
  deriving DecidableEq, Repr, Inhabited

/-- The message of an error. -/
def GrammarError.message : GrammarError → String
  | undefinedRule name => "rule '" ++ name ++ "' is referenced but never defined"
  | duplicateRule name => "rule '" ++ name ++ "' is defined more than once"
  | unknownPattern id => "pattern " ++ toString id ++ " does not belong to this grammar"
  | invalidAttribute setter kind =>
    "'" ++ setter ++ "' cannot be applied to a " ++ kind ++ " pattern"
  | unnamedIndentedMany => "'indented_many' requires a named many pattern"

/-- A rule that may not have its body yet. -/
structure RuleSlot where
  name : String
  body : Option PatternId
  deriving DecidableEq, Repr, Inhabited

/-- A grammar under construction, and its first misuse. -/
structure Builder where
  patterns : Array Pattern
  rules : Array RuleSlot
  labels : Array String
  misuse : Option GrammarError
  deriving Inhabited, Repr

/-- A step of building a grammar. -/
abbrev Build := StateM Builder

namespace Builder

/-- Nothing built yet. -/
def empty : Builder := ⟨#[], #[], #[], none⟩

/-- Records a misuse unless there was one before. -/
def refuse (b : Builder) (error : GrammarError) : Builder :=
  { b with misuse := b.misuse.or (some error) }

/-- The number of the rule called `name`, new if it was not mentioned before. -/
def mention (b : Builder) (name : String) : RuleId × Builder :=
  match b.rules.findIdx? (·.name == name) with
  | some rule => (rule, b)
  | none => (b.rules.size, { b with rules := b.rules.push ⟨name, none⟩ })

/-- The number of the label `text`, new if it was not mentioned before. -/
def label (b : Builder) (text : String) : LabelId × Builder :=
  match b.labels.findIdx? (· == text) with
  | some label => (label, b)
  | none => (b.labels.size, { b with labels := b.labels.push text })

/-- Changes the pattern `id`, or records the misuse that `f` reports. -/
def change (b : Builder) (id : PatternId) (f : Pattern → Except GrammarError Pattern) :
    Builder :=
  match b.patterns[id]? with
  | none => b.refuse (.unknownPattern id)
  | some pattern =>
    match f pattern with
    | .ok changed => { b with patterns := b.patterns.setIfInBounds id changed }
    | .error error => b.refuse error

end Builder

namespace Build

/-- Adds a pattern. -/
def add (kind : PatternKind) : Build PatternId := fun b =>
  (b.patterns.size, { b with patterns := b.patterns.push { id := b.patterns.size, kind } })

/-- Changes a pattern and gives its number back. -/
def change (id : PatternId) (f : Pattern → Except GrammarError Pattern) :
    Build PatternId := fun b =>
  (id, b.change id f)

/-- Sets the name of a match in shapes. -/
def named (id : PatternId) (name : String) : Build PatternId :=
  change id fun p => .ok { p with name := some name }

/-- Sets the label; patterns with one label are one recognizer. -/
def labeled (id : PatternId) (text : String) : Build PatternId := fun b =>
  let (label, b) := b.label text
  change id (fun p => .ok { p with label := some label }) b

/-- Reduces the shape of a sequence or an option to one field. -/
def select (id : PatternId) (field : String) : Build PatternId :=
  change id fun p =>
    match p.kind with
    | .sequence _ | .option _ => .ok { p with select := some field }
    | kind => .error (.invalidAttribute "select" kind.tag)

/-- Sets the shape of an absent option. -/
def absentAs (id : PatternId) (shape : Shape) : Build PatternId :=
  change id fun p =>
    match p.kind with
    | .option _ => .ok { p with absent := some shape }
    | kind => .error (.invalidAttribute "default_value" kind.tag)

/-- Makes a choice keep the successes of every alternative. -/
def parallel (id : PatternId) : Build PatternId :=
  change id fun p =>
    match p.kind with
    | .choice alternatives _ names =>
      .ok { p with kind := .choice alternatives .parallel names }
    | kind => .error (.invalidAttribute "parallel" kind.tag)

/-- One token of a type. -/
def consume (terminal : String) : Build PatternId := add (.consume terminal)

/-- One token of a type, named in shapes. -/
def consumeNamed (terminal name : String) : Build PatternId := do named (← consume terminal) name

/-- Patterns one after the other. -/
def sequence (children : List PatternId) : Build PatternId := add (.sequence children)

/-- The first alternative that matches. -/
def choice (alternatives : List PatternId) : Build PatternId :=
  add (.choice alternatives .ordered none)

/-- Every alternative that matches. -/
def parallelChoice (alternatives : List PatternId) : Build PatternId := do
  parallel (← choice alternatives)

/-- The first alternative that matches, each with a name in shapes. -/
def typedChoice (alternatives : List (String × PatternId)) : Build PatternId :=
  add (.choice (alternatives.map (·.2)) .ordered (some (alternatives.map (·.1))))

/-- Any number of items. -/
def many (item : PatternId) : Build PatternId := add (.many item none)

/-- Any number of items with separators between them. -/
def manySeparated (item separator : PatternId) : Build PatternId := add (.many item (some separator))

/-- The item or nothing. -/
def option (item : PatternId) : Build PatternId := add (.option item)

/-- A reference to the rule called `name`; each is a recognizer of its own. -/
def rule (name : String) : Build PatternId := fun b =>
  let (rule, b) := b.mention name
  add (.thunk rule) b

/-- Gives the rule called `name` its body. -/
def define (name : String) (body : PatternId) : Build RuleId := fun b =>
  let (rule, b) := b.mention name
  match (b.rules[rule]?).bind (·.body) with
  | some _ => (rule, b.refuse (.duplicateRule name))
  | none => (rule, { b with rules := b.rules.setIfInBounds rule ⟨name, some body⟩ })

/-- Printed text. -/
def literal (text : String) : Build PatternId := add (.literal text)

/-- A place where a printed line may end. -/
def line (kind : LineKind) : Build PatternId := add (.line kind)

/-- Prints the child one level deeper. -/
def indent (child : PatternId) : Build PatternId := add (.indent child)

/-- Prints the child on one line if it fits. -/
def group (child : PatternId) : Build PatternId := add (.group child)

/-- Prints decorations around the child if what `reference` names is not empty. -/
def conditional (child : PatternId) (reference : String) (before after : Option Decoration) :
    Build PatternId :=
  add (.conditional child reference before after)

/-- The name of the repetition `id`, if it is one and has a name. -/
def manyName? (b : Builder) (id : PatternId) : Option String :=
  match b.patterns[id]? with
  | some { kind := .many .., name, .. } => name
  | _ => none

/-- A named repetition printed on indented lines of its own if it is not empty. -/
def indentedMany (many : PatternId) (padding : LineKind) : Build PatternId := fun b =>
  match manyName? b many with
  | none => (many, b.refuse .unnamedIndentedMany)
  | some name =>
    (do
      let inner ← conditional many name (some (.line padding)) none
      let outer ← conditional (← indent inner) name none (some (.line padding))
      group outer : Build PatternId) b

end Build

namespace Builder

/-- The first child that is no pattern of the builder. -/
def strayChild? (b : Builder) : Option PatternId :=
  b.patterns.findSome? fun p => p.kind.children.find? (b.patterns.size ≤ ·)

/-- The rule of a slot, for a grammar with `size` patterns. -/
def finishRule (size : Nat) (slot : RuleSlot) : Except GrammarError Rule :=
  match slot.body with
  | none => .error (.undefinedRule slot.name)
  | some body => if body < size then .ok ⟨slot.name, body⟩ else .error (.unknownPattern body)

/-- The grammar; refused for the first misuse, else for the first child out of range, else for
the first rule without a body in range. -/
def build (b : Builder) : Except GrammarError Grammar :=
  match b.misuse, b.strayChild? with
  | some error, _ => .error error
  | none, some child => .error (.unknownPattern child)
  | none, none => do
    let rules ← b.rules.toList.mapM (finishRule b.patterns.size)
    pure ⟨b.patterns, rules.toArray, b.labels⟩

/-- Whether nothing was misused, and all children and bodies are in range. -/
def isComplete (b : Builder) : Bool :=
  b.misuse.isNone &&
    (b.patterns.toList.all fun p => p.kind.children.all (· < b.patterns.size)) &&
    b.rules.toList.all fun slot => slot.body.any (· < b.patterns.size)

theorem isOk_mapM_finishRule {size : Nat} {slots : List RuleSlot}
    (h : ∀ slot ∈ slots, slot.body.any (· < size) = true) :
    ∃ rules, slots.mapM (finishRule size) = .ok rules := by
  induction slots with
  | nil => exact ⟨[], rfl⟩
  | cons slot slots ih =>
    obtain ⟨rules, hrules⟩ := ih fun slot hslot => h slot (List.mem_cons_of_mem _ hslot)
    have hslot := h slot List.mem_cons_self
    cases hbody : slot.body with
    | none => simp [hbody] at hslot
    | some body =>
      rw [hbody, Option.any_some, decide_eq_true_iff] at hslot
      refine ⟨⟨slot.name, body⟩ :: rules, ?_⟩
      simp [finishRule, hbody, hslot, hrules, bind, Except.bind, pure, Except.pure]

theorem isSome_build {b : Builder} (h : b.isComplete = true) : b.build.toOption.isSome := by
  simp only [isComplete, Bool.and_eq_true, Option.isNone_iff_eq_none, List.all_eq_true] at h
  obtain ⟨⟨hmisuse, hchildren⟩, hbodies⟩ := h
  have hstray : b.strayChild? = none := by
    simpa [strayChild?] using hchildren
  obtain ⟨rules, hrules⟩ := isOk_mapM_finishRule hbodies
  rw [build, hmisuse, hstray, hrules]
  rfl

end Builder

/-- The grammar that a building step makes. -/
def Grammar.ofBuild (step : Build α) : Except GrammarError Grammar :=
  (step.run Builder.empty).2.build

end ReversibleGrammar
