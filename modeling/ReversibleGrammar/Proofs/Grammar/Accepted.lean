/-
Which calls a builder accepts.

A misuse is recorded when the call is made, and only the first one counts; numbers out of range and
rules without a body come out at the end.  All of it is said here of the calls alone.

* `BuilderCall.Applies` — the call asks for nothing that is not there at the time;
* `BuilderCall.Proper` — the calls are used as they should be;
* `misuse_after`, `mentions_after`, `rules_after` — what calls leave behind;
* `Grammar.ofCalls_eq_ok_iff` — a grammar comes of proper calls, and of no others.
-/
import ReversibleGrammar.Proofs.Grammar.Built

namespace ReversibleGrammar

/-- The builder after some calls. -/
def Builder.after (calls : List BuilderCall) : Builder :=
  calls.foldl (fun b call => call.run b) Builder.empty

namespace BuilderCall

/-- The patterns that the call makes parts of a new pattern, without looking for them. -/
def children : BuilderCall → List PatternId
  | sequence children | choice children | parallelChoice children => children
  | typedChoice alternatives => alternatives.map (·.2)
  | many item | option item => [item]
  | manySeparated item separator => [item, separator]
  | indent child | group child | conditional child _ _ _ => [child]
  | _ => []

/-- The rule that the call mentions. -/
def mentioned? : BuilderCall → Option String
  | rule name | define name _ => some name
  | _ => none

/-- The rule that the call defines. -/
def defined? : BuilderCall → Option String
  | define name _ => some name
  | _ => none

/-- The body that the call gives to the rule. -/
def body? (name : String) : BuilderCall → Option PatternId
  | define other body => if other = name then some body else none
  | _ => none

/-- The pattern that the call changes or looks at is there, and of the right kind. -/
def Applies (b : Builder) : BuilderCall → Prop
  | named id _ | labeled id _ => ∃ p, b.patterns[id]? = some p
  | select id _ => ∃ p, b.patterns[id]? = some p ∧
    ((∃ children, p.kind = .sequence children) ∨ ∃ item, p.kind = .option item)
  | absentAs id _ => ∃ p, b.patterns[id]? = some p ∧ ∃ item, p.kind = .option item
  | parallel id => ∃ p, b.patterns[id]? = some p ∧
    ∃ alternatives mode names, p.kind = .choice alternatives mode names
  | indentedMany id _ => ∃ p, b.patterns[id]? = some p ∧
    (∃ item separator, p.kind = .many item separator) ∧ ∃ name, p.name = some name
  | _ => True

/-- Attributes are given to existing patterns of the right kind, only named repetitions are
indented, every mentioned rule is defined exactly once, and all children and bodies are among the
patterns there are in the end. -/
structure Proper (calls : List BuilderCall) : Prop where
  applies : ∀ before call later, calls = before ++ call :: later → call.Applies (.after before)
  defined_once : ∀ name, (∃ call ∈ calls, call.mentioned? = some name) →
    (calls.filterMap defined?).count name = 1
  children_lt : ∀ call ∈ calls, ∀ c ∈ call.children, c < (Builder.after calls).patterns.size
  body_lt : ∀ name body, define name body ∈ calls → body < (Builder.after calls).patterns.size

end BuilderCall

namespace Builder

variable {b : Builder}

/-! ### Misuse -/

theorem refuse_misuse (error : GrammarError) : (b.refuse error).misuse ≠ none := by
  cases h : b.misuse <;> simp [refuse, h]

theorem change_misuse_iff {id : PatternId} {f : Pattern → Except GrammarError Pattern} :
    (b.change id f).misuse = none ↔
      b.misuse = none ∧ ∃ p, b.patterns[id]? = some p ∧ ∃ q, f p = .ok q := by
  unfold change
  cases hp : b.patterns[id]? with
  | none => simp [refuse_misuse]
  | some p =>
    cases hq : f p with
    | ok q => simp [hq]
    | error e => simp [hq, refuse_misuse]

theorem mention_misuse (name : String) : (b.mention name).2.misuse = b.misuse := by
  unfold mention
  split <;> rfl

theorem label_misuse (text : String) : (b.label text).2.misuse = b.misuse := by
  unfold label
  split <;> rfl

/-! ### Parts -/

/-- The number is that of a part of a pattern. -/
def Mentions (b : Builder) (c : PatternId) : Prop := ∃ p ∈ b.patterns, c ∈ p.kind.children

theorem strayChild?_eq_none_iff :
    b.strayChild? = none ↔ ∀ c, b.Mentions c → c < b.patterns.size := by
  simp only [strayChild?, Array.findSome?_eq_none_iff, List.find?_eq_none, Mentions,
    decide_eq_true_eq, Nat.not_le]
  constructor
  · rintro h c ⟨p, hp, hc⟩
    exact h p hp c hc
  · intro h p hp c hc
    exact h c ⟨p, hp, hc⟩

theorem mentions_add {kind : PatternKind} {c : PatternId} :
    (Build.add kind b).2.Mentions c ↔ b.Mentions c ∨ c ∈ kind.children := by
  simp only [Mentions, Build.add, Array.mem_push]
  constructor
  · rintro ⟨p, hp | rfl, hc⟩
    · exact Or.inl ⟨p, hp, hc⟩
    · exact Or.inr hc
  · rintro (⟨p, hp, hc⟩ | hc)
    · exact ⟨p, Or.inl hp, hc⟩
    · exact ⟨_, Or.inr rfl, hc⟩

theorem size_lt_add (kind : PatternKind) :
    b.patterns.size < (Build.add kind b).2.patterns.size := by
  simp [Build.add]

theorem change_patterns (b : Builder) (id : PatternId)
    (f : Pattern → Except GrammarError Pattern) :
    (b.change id f).patterns = b.patterns ∨ ∃ p q, b.patterns[id]? = some p ∧ f p = .ok q ∧
      (b.change id f).patterns = b.patterns.setIfInBounds id q := by
  unfold change
  cases hp : b.patterns[id]? with
  | none => exact Or.inl rfl
  | some p =>
    cases hq : f p with
    | ok q => exact Or.inr ⟨p, q, rfl, hq, by simp [hq]⟩
    | error e => exact Or.inl (by simp [hq, refuse])

theorem size_change (id : PatternId) (f : Pattern → Except GrammarError Pattern) :
    (b.change id f).patterns.size = b.patterns.size := by
  rcases change_patterns b id f with h | ⟨p, q, -, -, h⟩
  · rw [h]
  · rw [h, Array.size_setIfInBounds]

/-- A change that keeps parts keeps them all. -/
theorem mentions_change {id : PatternId} {f : Pattern → Except GrammarError Pattern}
    (hf : ∀ p q, f p = .ok q → q.kind.children = p.kind.children) {c : PatternId} :
    (b.change id f).Mentions c ↔ b.Mentions c := by
  rcases change_patterns b id f with h | ⟨p, q, hp, hq, h⟩
  · simp only [Mentions, h]
  · have hkeep := hf p q hq
    obtain ⟨hlt, hget⟩ := Array.getElem?_eq_some_iff.1 hp
    simp only [Mentions, h, Array.mem_iff_getElem?, Array.getElem?_setIfInBounds, hlt, if_true]
    constructor
    · rintro ⟨r, ⟨i, hi⟩, hc⟩
      split at hi
      · obtain rfl := Option.some.inj hi
        exact ⟨p, ⟨id, hp⟩, hkeep ▸ hc⟩
      · exact ⟨r, ⟨i, hi⟩, hc⟩
    · rintro ⟨r, ⟨i, hi⟩, hc⟩
      by_cases heq : id = i
      · subst heq
        obtain rfl := Option.some.inj (hp.symm.trans hi)
        exact ⟨q, ⟨id, if_pos rfl⟩, hkeep ▸ hc⟩
      · exact ⟨r, ⟨i, by rw [if_neg heq]; exact hi⟩, hc⟩

theorem mentions_congr {c : Builder} (h : c.patterns = b.patterns) (id : PatternId) :
    c.Mentions id ↔ b.Mentions id := by
  rw [Mentions, Mentions, h]

theorem mention_patterns (name : String) : (b.mention name).2.patterns = b.patterns := by
  unfold mention
  split <;> rfl

theorem label_patterns (text : String) : (b.label text).2.patterns = b.patterns := by
  unfold label
  split <;> rfl

/-! ### Rules -/

/-- The rules of the builder are those mentioned, each once, with the bodies given to them. -/
structure Rules (b : Builder) (mentioned : String → Prop) (body? : String → Option PatternId) :
    Prop where
  eq_of_name : ∀ {i j : Nat} {slot slot' : RuleSlot}, b.rules[i]? = some slot → b.rules[j]? = some slot' →
    slot.name = slot'.name → i = j
  mem_iff : ∀ slot : RuleSlot, slot ∈ b.rules ↔ mentioned slot.name ∧ slot.body = body? slot.name
  body?_eq_none : ∀ name, ¬ mentioned name → body? name = none

theorem rules_change {id : PatternId} {f : Pattern → Except GrammarError Pattern} :
    (b.change id f).rules = b.rules := by
  unfold change
  split
  · rfl
  · split <;> rfl

theorem label_rules (text : String) : (b.label text).2.rules = b.rules := by
  unfold label
  split <;> rfl

section

variable {mentioned : String → Prop} {body? : String → Option PatternId}

theorem Rules.congr {c : Builder} (h : b.Rules mentioned body?) (hrules : c.rules = b.rules) :
    c.Rules mentioned body? where
  eq_of_name := by rw [hrules]; exact h.eq_of_name
  mem_iff := by rw [hrules]; exact h.mem_iff
  body?_eq_none := h.body?_eq_none

theorem Rules.body_congr {body?' : String → Option PatternId} (h : b.Rules mentioned body?)
    (heq : ∀ n, body? n = body?' n) : b.Rules mentioned body?' :=
  funext heq ▸ h

/-- Mentioning a rule finds its slot, or makes one. -/
theorem Rules.mention (h : b.Rules mentioned body?) (name : String) :
    (b.mention name).2.Rules (fun n => mentioned n ∨ n = name) body? ∧
      (b.mention name).2.rules[(b.mention name).1]? = some ⟨name, body? name⟩ := by
  unfold Builder.mention
  split
  · rename_i i hi
    obtain ⟨hlt, hname, -⟩ := Array.findIdx?_eq_some_iff_getElem.1 hi
    have hname := eq_of_beq hname
    obtain ⟨hmem, hbody⟩ := (h.mem_iff _).1 (Array.getElem_mem hlt)
    rw [hname] at hmem hbody
    refine ⟨⟨h.eq_of_name, fun slot => ?_, fun n hn => ?_⟩, ?_⟩
    · rw [h.mem_iff]
      refine and_congr_left fun _ => ⟨Or.inl, ?_⟩
      rintro (hslot | rfl)
      · exact hslot
      · exact hmem
    · exact h.body?_eq_none n fun hm => hn (Or.inl hm)
    · rw [Array.getElem?_eq_getElem hlt, ← hbody, ← hname]
  · rename_i hnone
    have hne (slot : RuleSlot) (hslot : slot ∈ b.rules) : slot.name ≠ name := by
      simpa using Array.findIdx?_eq_none_iff.1 hnone slot hslot
    have hnot : ¬ mentioned name := fun hm =>
      hne ⟨name, body? name⟩ ((h.mem_iff _).2 ⟨hm, rfl⟩) rfl
    have hbody := h.body?_eq_none name hnot
    refine ⟨⟨fun {i j slot slot'} hi hj heq => ?_, fun slot => ?_, fun n hn => ?_⟩, ?_⟩
    · simp only [Array.getElem?_push] at hi hj
      split at hi <;> split at hj
      · omega
      · obtain rfl := Option.some.inj hi
        exact absurd heq.symm (hne _ (Array.mem_of_getElem? hj))
      · obtain rfl := Option.some.inj hj
        exact absurd heq (hne _ (Array.mem_of_getElem? hi))
      · exact h.eq_of_name hi hj heq
    · rw [Array.mem_push, h.mem_iff]
      constructor
      · rintro (⟨hm, hb⟩ | rfl)
        · exact ⟨Or.inl hm, hb⟩
        · exact ⟨Or.inr rfl, hbody.symm⟩
      · rintro ⟨hm | hm, hb⟩
        · exact Or.inl ⟨hm, hb⟩
        · obtain ⟨n, o⟩ := slot
          obtain rfl : n = name := hm
          obtain rfl : o = none := hb.trans hbody
          exact Or.inr rfl
    · exact h.body?_eq_none n fun hm => hn (Or.inl hm)
    · simp [hbody]

/-- Defining a rule gives it its first body, and is a misuse if it has one. -/
theorem Rules.define (h : b.Rules mentioned body?) (name : String) (body : PatternId) :
    (Build.define name body b).2.Rules (fun n => mentioned n ∨ n = name)
        (fun n => (body? n).or (if name = n then some body else none)) ∧
      ((Build.define name body b).2.misuse = none ↔ b.misuse = none ∧ body? name = none) := by
  obtain ⟨hrules, hslot⟩ := h.mention name
  have hmisuse := b.mention_misuse name
  unfold Build.define
  generalize b.mention name = mentionedRule at hrules hslot hmisuse ⊢
  obtain ⟨i, c⟩ := mentionedRule
  dsimp only at hrules hslot hmisuse ⊢
  rw [hslot, Option.bind_some]
  dsimp only
  cases hbody : body? name with
  | some first =>
    have hrefuse : (c.refuse (.duplicateRule name)).Rules _ body? := hrules.congr rfl
    refine ⟨hrefuse.body_congr fun n => ?_, by simp [refuse_misuse]⟩
    split
    · rename_i heq
      rw [← heq, hbody, Option.some_or]
    · rw [Option.or_none]
  | none =>
    refine ⟨⟨fun {j k slot slot'} hj hk heq => ?_, fun slot => ?_, fun n hn => ?_⟩, by simp [hmisuse]⟩
    · -- the names at all places are the same as before
      have hname {j : Nat} {slot : RuleSlot}
          (hj : (c.rules.setIfInBounds i ⟨name, some body⟩)[j]? = some slot) :
          ∃ old, c.rules[j]? = some old ∧ old.name = slot.name := by
        rw [Array.getElem?_setIfInBounds] at hj
        split at hj
        · rename_i hij
          subst hij
          split at hj
          · obtain rfl := Option.some.inj hj
            exact ⟨_, hslot, rfl⟩
          · cases hj
        · exact ⟨slot, hj, rfl⟩
      obtain ⟨old, hold, hname₁⟩ := hname hj
      obtain ⟨old', hold', hname₂⟩ := hname hk
      exact hrules.eq_of_name hold hold' (by rw [hname₁, hname₂, heq])
    · rw [Array.mem_iff_getElem?]
      simp only [Array.getElem?_setIfInBounds, (Array.getElem?_eq_some_iff.1 hslot).1, if_true]
      constructor
      · rintro ⟨j, hj⟩
        split at hj
        · obtain rfl := Option.some.inj hj
          exact ⟨Or.inr rfl, by simp [hbody]⟩
        · rename_i hne
          obtain ⟨hm, hb⟩ := (hrules.mem_iff slot).1 (Array.mem_of_getElem? hj)
          refine ⟨hm, ?_⟩
          rw [hb, if_neg fun heq => hne (hrules.eq_of_name hslot hj heq), Option.or_none]
      · rintro ⟨hm, hb⟩
        by_cases heq : name = slot.name
        · refine ⟨i, ?_⟩
          rw [← heq, hbody, if_pos rfl, Option.none_or] at hb
          rw [if_pos rfl, heq, ← hb]
        · rw [if_neg heq, Option.or_none] at hb
          obtain ⟨j, hj⟩ := Array.mem_iff_getElem?.1 ((hrules.mem_iff slot).2 ⟨hm, hb⟩)
          refine ⟨j, ?_⟩
          rw [if_neg, hj]
          rintro rfl
          exact heq (congrArg RuleSlot.name (Option.some.inj (hslot.symm.trans hj)))
    · have hne : name ≠ n := fun heq => hn (Or.inr heq.symm)
      rw [if_neg hne, Option.or_none]
      exact h.body?_eq_none n fun hm => hn (Or.inl hm)

end

end Builder

/-! ### Calls one by one -/

theorem Build.define_patterns (name : String) (body : PatternId) (b : Builder) :
    (Build.define name body b).2.patterns = b.patterns := by
  unfold Build.define
  have hpatterns := b.mention_patterns name
  dsimp only
  split <;> exact hpatterns

theorem Build.rule_eq (name : String) (b : Builder) :
    (Build.rule name b).2 = (Build.add (.thunk (b.mention name).1) (b.mention name).2).2 :=
  rfl

theorem Build.labeled_eq (id : PatternId) (text : String) (b : Builder) :
    (Build.labeled id text b).2 = (b.label text).2.change id fun p =>
      .ok { p with label := some (b.label text).1 } :=
  rfl

theorem Build.manyName?_eq_some_iff {b : Builder} {id : PatternId} {name : String} :
    Build.manyName? b id = some name ↔ ∃ p, b.patterns[id]? = some p ∧
      (∃ item separator, p.kind = .many item separator) ∧ p.name = some name := by
  unfold Build.manyName?
  cases hp : b.patterns[id]? with
  | none => simp
  | some p =>
    obtain ⟨_, kind, _, _, _, _⟩ := p
    cases kind <;> simp

/-- An indented repetition is two conditional patterns, one in the other. -/
theorem Build.indentedMany_eq {b : Builder} {id : PatternId} {name : String}
    (h : Build.manyName? b id = some name) (padding : LineKind) :
    ∃ outer : PatternKind, outer.children = [b.patterns.size + 1] ∧
      (Build.indentedMany id padding b).2 =
        (Build.add (.group (b.patterns.size + 2)) (Build.add outer (Build.add
          (.indent b.patterns.size) (Build.add (.conditional id name (some (.line padding)) none)
            b).2).2).2).2 := by
  refine ⟨.conditional (b.patterns.size + 1) name none (some (.line padding)), rfl, ?_⟩
  simp only [Build.indentedMany, h]
  simp [Build.conditional, Build.indent, Build.group, Build.add, StateT.bind, bind]

namespace BuilderCall

variable {b : Builder}

theorem applies_indentedMany {id : PatternId} {padding : LineKind} :
    (indentedMany id padding).Applies b ↔ ∃ name, Build.manyName? b id = some name := by
  simp only [Applies, Build.manyName?_eq_some_iff]
  constructor
  · rintro ⟨p, hp, hkind, name, hname⟩
    exact ⟨name, p, hp, hkind, hname⟩
  · rintro ⟨name, p, hp, hkind, hname⟩
    exact ⟨p, hp, hkind, name, hname⟩

/-- A call is a misuse if it does not apply, or defines a rule once more. -/
theorem misuse_run {mentioned : String → Prop} {body? : String → Option PatternId}
    (h : b.Rules mentioned body?) (call : BuilderCall) : (call.run b).misuse = none ↔
      b.misuse = none ∧ call.Applies b ∧ ∀ name, call.defined? = some name → body? name = none := by
  have hplain {call : BuilderCall} {c : Builder} (hc : c.misuse = none ↔ b.misuse = none ∧
      call.Applies b) (hdefined : call.defined? = none) : c.misuse = none ↔
      b.misuse = none ∧ call.Applies b ∧ ∀ name, call.defined? = some name → body? name = none := by
    simp [hc, hdefined]
  cases call with
  | define name body =>
    refine (h.define name body).2.trans (and_congr_right fun _ => ?_)
    simp [Applies, defined?]
  | rule name =>
    refine hplain ?_ rfl
    rw [run, Build.rule_eq]
    simp [Build.add, Builder.mention_misuse, Applies]
  | named id name =>
    refine hplain (Builder.change_misuse_iff.trans (and_congr_right fun _ => ?_)) rfl
    simp [Applies]
  | labeled id text =>
    refine hplain ?_ rfl
    rw [run, Build.labeled_eq, Builder.change_misuse_iff, Builder.label_misuse,
      Builder.label_patterns]
    simp [Applies]
  | select id field | absentAs id shape | parallel id =>
    refine hplain (Builder.change_misuse_iff.trans (and_congr_right fun _ => ?_)) rfl
    refine exists_congr fun p => and_congr_right fun _ => ?_
    cases p.kind <;> simp
  | consumeNamed terminal name | parallelChoice alternatives =>
    refine hplain (Builder.change_misuse_iff.trans ?_) rfl
    simp [Applies]
  | indentedMany id padding =>
    refine hplain ?_ rfl
    rw [applies_indentedMany]
    cases hname : Build.manyName? b id with
    | none => simp [run, Build.indentedMany, hname, Builder.refuse_misuse]
    | some name =>
      obtain ⟨outer, -, heq⟩ := Build.indentedMany_eq hname padding
      simp [run, heq, Build.add]
  | _ => exact hplain (and_iff_left trivial).symm rfl

/-- What a call leaves of the rules. -/
theorem rules_run {mentioned : String → Prop} {body? : String → Option PatternId}
    (h : b.Rules mentioned body?) (call : BuilderCall) :
    (call.run b).Rules (fun n => mentioned n ∨ call.mentioned? = some n)
      fun n => (body? n).or (call.body? n) := by
  have hplain {call : BuilderCall} {c : Builder} (hc : c.rules = b.rules)
      (hmentioned : call.mentioned? = none) (hbody : ∀ n, call.body? n = none) :
      c.Rules (fun n => mentioned n ∨ call.mentioned? = some n)
        fun n => (body? n).or (call.body? n) := by
    simpa [hmentioned, hbody] using h.congr hc
  cases call with
  | define name body =>
    simpa [run, mentioned?, BuilderCall.body?, eq_comm] using (h.define name body).1
  | rule name =>
    have hmention : (Build.rule name b).2.Rules _ body? := (h.mention name).1.congr rfl
    simpa [run, mentioned?, BuilderCall.body?, eq_comm] using hmention
  | named | select | absentAs | parallel | consumeNamed | parallelChoice =>
    exact hplain Builder.rules_change rfl fun _ => rfl
  | labeled id text =>
    exact hplain (Builder.rules_change.trans (b.label_rules text)) rfl fun _ => rfl
  | indentedMany id padding =>
    refine hplain ?_ rfl fun _ => rfl
    cases hname : Build.manyName? b id with
    | none => simp [run, Build.indentedMany, hname, Builder.refuse]
    | some name =>
      obtain ⟨outer, -, heq⟩ := Build.indentedMany_eq hname padding
      simp [run, heq, Build.add]
  | _ => exact hplain rfl rfl fun _ => rfl

/-- What a call leaves of the parts of patterns: there are the children it names, and none out of
range besides. -/
theorem mentions_run (call : BuilderCall) (c : Nat) :
    ((call.run b).Mentions c → b.Mentions c ∨ c ∈ call.children ∨ c < (call.run b).patterns.size) ∧
      (b.Mentions c ∨ c ∈ call.children → (call.run b).Mentions c) := by
  have hplain {call : BuilderCall} {b' : Builder} (h : b'.Mentions c ↔ b.Mentions c ∨ c ∈ call.children) :
      (b'.Mentions c → b.Mentions c ∨ c ∈ call.children ∨ c < b'.patterns.size) ∧
        (b.Mentions c ∨ c ∈ call.children → b'.Mentions c) :=
    ⟨fun hc => (h.1 hc).imp_right Or.inl, h.2⟩
  have hkeep {call : BuilderCall} {b' : Builder} (h : b'.Mentions c ↔ b.Mentions c)
      (hchildren : call.children = []) :
      (b'.Mentions c → b.Mentions c ∨ c ∈ call.children ∨ c < b'.patterns.size) ∧
        (b.Mentions c ∨ c ∈ call.children → b'.Mentions c) :=
    hplain (by simp [h, hchildren])
  cases call with
  | define name body =>
    exact hkeep (Builder.mentions_congr (Build.define_patterns name body b) c) rfl
  | rule name =>
    refine hkeep ?_ rfl
    rw [run, Build.rule_eq, Builder.mentions_add, Builder.mentions_congr (b.mention_patterns name)]
    simp [PatternKind.children]
  | named id name =>
    exact hkeep (Builder.mentions_change fun p q h => by cases h; rfl) rfl
  | labeled id text =>
    exact hkeep ((Builder.mentions_change fun p q h => by cases h; rfl).trans
      (Builder.mentions_congr (b.label_patterns text) c)) rfl
  | select id field | absentAs id shape | parallel id =>
    refine hkeep (Builder.mentions_change fun p q h => ?_) rfl
    split at h <;> cases h <;> simp_all [PatternKind.children]
  | consumeNamed terminal name =>
    exact hplain ((Builder.mentions_change fun p q h => by cases h; rfl).trans Builder.mentions_add)
  | parallelChoice alternatives =>
    refine hplain ((Builder.mentions_change fun p q h => ?_).trans Builder.mentions_add)
    split at h <;> cases h
    simp_all [PatternKind.children]
  | indentedMany id padding =>
    cases hname : Build.manyName? b id with
    | none =>
      refine hkeep (Builder.mentions_congr ?_ c) rfl
      simp [run, Build.indentedMany, hname, Builder.refuse]
    | some name =>
      obtain ⟨p, hp, -⟩ := Build.manyName?_eq_some_iff.1 hname
      have hid : id < b.patterns.size := (Array.getElem?_eq_some_iff.1 hp).1
      obtain ⟨outer, houter, heq⟩ := Build.indentedMany_eq hname padding
      have hsize : ((indentedMany id padding).run b).patterns.size = b.patterns.size + 4 := by
        simp [run, heq, Build.add]
      rw [hsize, run, heq]
      simp only [Builder.mentions_add, houter]
      simp only [PatternKind.children, children, List.mem_singleton, List.not_mem_nil, or_false,
        false_or]
      refine ⟨?_, fun hc => Or.inl (Or.inl (Or.inl (Or.inl hc)))⟩
      rintro ((((hc | rfl) | rfl) | rfl) | rfl)
      · exact Or.inl hc
      · exact Or.inr (Nat.lt_add_right 4 hid)
      all_goals exact Or.inr (by omega)
  | _ => exact hplain Builder.mentions_add

theorem size_le_run (call : BuilderCall) : b.patterns.size ≤ (call.run b).patterns.size := by
  cases call with
  | define name body => rw [run, Build.define_patterns]
  | rule name =>
    rw [run, Build.rule_eq]
    simp [Build.add, Builder.mention_patterns]
  | named | select | absentAs | parallel => exact (Builder.size_change _ _).ge
  | labeled id text =>
    rw [run, Build.labeled_eq, Builder.size_change, Builder.label_patterns]
  | consumeNamed | parallelChoice =>
    refine Nat.le_trans ?_ (Builder.size_change _ _).ge
    simp
  | indentedMany id padding =>
    cases hname : Build.manyName? b id with
    | none => simp [run, Build.indentedMany, hname, Builder.refuse]
    | some name =>
      obtain ⟨outer, -, heq⟩ := Build.indentedMany_eq hname padding
      rw [run, heq]
      simp only [Build.add, Array.size_push]
      omega
  | _ => exact Nat.le_of_lt (Builder.size_lt_add _)

theorem body?_eq_none_iff {name : String} {call : BuilderCall} :
    call.body? name = none ↔ call.defined? ≠ some name := by
  cases call <;> simp [BuilderCall.body?, defined?]

theorem findSome?_body?_eq_none_iff {name : String} {calls : List BuilderCall} :
    calls.findSome? (BuilderCall.body? name) = none ↔ name ∉ calls.filterMap defined? := by
  simp [List.findSome?_eq_none_iff, body?_eq_none_iff]

theorem mem_of_findSome?_body? {name : String} {body : PatternId} {calls : List BuilderCall}
    (h : calls.findSome? (BuilderCall.body? name) = some body) : define name body ∈ calls := by
  obtain ⟨call, hcall, hbody⟩ := List.exists_of_findSome?_eq_some h
  cases call with
  | define other body' =>
    obtain ⟨rfl, rfl⟩ : other = name ∧ body' = body := by simpa [BuilderCall.body?] using hbody
    exact hcall
  | _ => cases hbody

/-- Of a rule that is defined once, the one body is the first. -/
theorem findSome?_body?_eq_some {calls : List BuilderCall} (h : (calls.filterMap defined?).Nodup)
    {name : String} {body : PatternId} (hmem : define name body ∈ calls) :
    calls.findSome? (BuilderCall.body? name) = some body := by
  obtain ⟨before, later, rfl⟩ := List.append_of_mem hmem
  have hbefore : name ∉ before.filterMap defined? := by
    rw [List.filterMap_append] at h
    exact fun hname => (List.nodup_append.1 h).2.2 name hname name
      (List.mem_filterMap.2 ⟨_, List.mem_cons_self, rfl⟩) rfl
  rw [List.findSome?_append, findSome?_body?_eq_none_iff.2 hbefore, Option.none_or,
    List.findSome?_cons]
  simp [BuilderCall.body?]

end BuilderCall

/-! ### All calls -/

namespace Builder

theorem after_append (calls : List BuilderCall) (call : BuilderCall) :
    after (calls ++ [call]) = call.run (after calls) := by
  rw [after, List.foldl_append]
  rfl

theorem rules_after (calls : List BuilderCall) :
    (after calls).Rules (fun n => ∃ call ∈ calls, call.mentioned? = some n)
      fun n => calls.findSome? (BuilderCall.body? n) := by
  induction calls using List.reverseRecOn with
  | nil => exact ⟨by simp [after, empty], by simp [after, empty], fun _ _ => rfl⟩
  | append_singleton calls call ih =>
    have h := BuilderCall.rules_run ih call
    rw [after_append]
    refine Eq.mp (congrArg₂ (Builder.Rules _) (funext fun n => ?_) (funext fun n => ?_)) h
    · simp [or_and_right, exists_or]
    · simp [List.findSome?_append]

/-- What holds at every place of a list, with one element more at its end. -/
theorem forall_split_append_singleton {P : List α → α → Prop} {l : List α} {a : α} :
    (∀ before x later, l ++ [a] = before ++ x :: later → P before x) ↔
      (∀ before x later, l = before ++ x :: later → P before x) ∧ P l a := by
  constructor
  · intro h
    refine ⟨fun before x later heq => h before x (later ++ [a]) ?_, h l a [] rfl⟩
    rw [heq, List.append_assoc, List.cons_append]
  · rintro ⟨hl, ha⟩ before x later heq
    induction later using List.reverseRecOn with
    | nil =>
      obtain ⟨rfl, h⟩ := List.append_inj' heq rfl
      rwa [← List.head_eq_of_cons_eq h]
    | append_singleton later y =>
      rw [← List.cons_append, ← List.append_assoc] at heq
      exact hl before x later (List.append_inj_left' heq rfl)

theorem misuse_after (calls : List BuilderCall) : (after calls).misuse = none ↔
    (∀ before call later, calls = before ++ call :: later → call.Applies (after before)) ∧
      (calls.filterMap BuilderCall.defined?).Nodup := by
  induction calls using List.reverseRecOn with
  | nil => simp [after, empty]
  | append_singleton calls call ih =>
    have hnodup : ((calls ++ [call]).filterMap BuilderCall.defined?).Nodup ↔
        (calls.filterMap BuilderCall.defined?).Nodup ∧ ∀ name, call.defined? = some name →
          calls.findSome? (BuilderCall.body? name) = none := by
      rw [List.filterMap_append]
      cases hcall : call.defined? with
      | none => simp [hcall]
      | some name =>
        simp only [List.filterMap_cons, hcall, List.filterMap_nil, Option.some.injEq, forall_eq',
          BuilderCall.findSome?_body?_eq_none_iff]
        rw [List.nodup_append_comm, List.singleton_append, List.nodup_cons, and_comm]
    rw [after_append, BuilderCall.misuse_run (rules_after calls), ih,
      forall_split_append_singleton, hnodup]
    tauto

theorem mentions_after (calls : List BuilderCall) (c : Nat) :
    ((after calls).Mentions c →
      (∃ call ∈ calls, c ∈ call.children) ∨ c < (after calls).patterns.size) ∧
    ((∃ call ∈ calls, c ∈ call.children) → (after calls).Mentions c) := by
  induction calls using List.reverseRecOn with
  | nil => simp [after, empty, Mentions]
  | append_singleton calls call ih =>
    have hrun := (BuilderCall.mentions_run (b := after calls) call c)
    have hsize := (BuilderCall.size_le_run (b := after calls) call)
    simp only [after_append, List.mem_append, List.mem_singleton, or_and_right, exists_or,
      exists_eq_left]
    constructor
    · intro h
      rcases hrun.1 h with h | h | h
      · rcases ih.1 h with h | h
        · exact Or.inl (Or.inl h)
        · exact Or.inr (by omega)
      · exact Or.inl (Or.inr h)
      · exact Or.inr h
    · rintro (h | h)
      · exact hrun.2 (Or.inl (ih.2 h))
      · exact hrun.2 (Or.inr h)

theorem build_eq_ok_iff {b : Builder} : (∃ g, b.build = .ok g) ↔
    b.misuse = none ∧ b.strayChild? = none ∧
      ∀ slot ∈ b.rules, ∃ body, slot.body = some body ∧ body < b.patterns.size := by
  have hfinish (slot : RuleSlot) : (∃ rule, finishRule b.patterns.size slot = .ok rule) ↔
      ∃ body, slot.body = some body ∧ body < b.patterns.size := by
    unfold finishRule
    cases slot.body with
    | none => simp
    | some body => by_cases hbody : body < b.patterns.size <;> simp [hbody]
  have hrules : (∃ rules, b.rules.toList.mapM (finishRule b.patterns.size) = .ok rules) ↔
      ∀ slot ∈ b.rules, ∃ body, slot.body = some body ∧ body < b.patterns.size := by
    simp only [← hfinish, ← Array.mem_toList_iff]
    constructor
    · rintro ⟨rules, hrules⟩ slot hslot
      obtain ⟨rule, -, hrule⟩ := exists_of_forall₂_of_mem (mapM_eq_ok_iff.1 hrules).flip hslot
      exact ⟨rule, hrule⟩
    · intro h
      obtain ⟨rules, hrules, -⟩ := exists_mapM_eq_ok (P := fun _ => True) fun slot hslot =>
        (h slot hslot).imp fun _ hrule => ⟨hrule, trivial⟩
      exact ⟨rules, hrules⟩
  unfold build
  cases hmisuse : b.misuse with
  | some error => simp
  | none =>
    cases hstray : b.strayChild? with
    | some child => simp
    | none =>
      simp only [true_and, ← hrules, bind_eq_ok_iff]
      exact ⟨fun ⟨g, rules, h, _⟩ => ⟨rules, h⟩, fun ⟨rules, h⟩ => ⟨_, rules, h, rfl⟩⟩

end Builder

/-- A builder accepts proper calls, and no others. -/
theorem Grammar.ofCalls_eq_ok_iff {calls : List BuilderCall} :
    (∃ g, Grammar.ofCalls calls = .ok g) ↔ BuilderCall.Proper calls := by
  have hslots := (Builder.rules_after calls).mem_iff
  have hmentions := Builder.mentions_after calls
  rw [show Grammar.ofCalls calls = (Builder.after calls).build from rfl, Builder.build_eq_ok_iff,
    Builder.misuse_after, Builder.strayChild?_eq_none_iff]
  constructor
  · rintro ⟨⟨happlies, hnodup⟩, hchildren, hbodies⟩
    -- the slot of a rule that is mentioned
    have hslot {name : String} (h : ∃ call ∈ calls, call.mentioned? = some name) :
        ∃ body, calls.findSome? (BuilderCall.body? name) = some body ∧
          body < (Builder.after calls).patterns.size :=
      hbodies ⟨name, _⟩ ((hslots _).2 ⟨h, rfl⟩)
    refine ⟨happlies, fun name hname => ?_, fun call hcall c hc => ?_, fun name body hmem => ?_⟩
    · obtain ⟨body, hbody, -⟩ := hslot hname
      refine List.count_eq_one_of_mem hnodup (Decidable.byContradiction fun hnot => ?_)
      rw [BuilderCall.findSome?_body?_eq_none_iff.2 hnot] at hbody
      cases hbody
    · exact hchildren c ((hmentions c).2 ⟨call, hcall, hc⟩)
    · obtain ⟨first, hfirst, hlt⟩ := hslot ⟨_, hmem, rfl⟩
      rw [BuilderCall.findSome?_body?_eq_some hnodup hmem] at hfirst
      exact Option.some.inj hfirst ▸ hlt
  · intro h
    refine ⟨⟨h.applies, ?_⟩, fun c hc => ?_, fun slot hslot => ?_⟩
    · rw [List.nodup_iff_count_le_one]
      intro name
      by_cases hname : name ∈ calls.filterMap BuilderCall.defined?
      · obtain ⟨call, hcall, hdefined⟩ := List.mem_filterMap.1 hname
        refine (h.defined_once name ⟨call, hcall, ?_⟩).le
        cases call <;> simp_all [BuilderCall.defined?, BuilderCall.mentioned?]
      · exact (List.count_eq_zero_of_not_mem hname).trans_le (Nat.zero_le 1)
    · rcases (hmentions c).1 hc with ⟨call, hcall, hc⟩ | hlt
      · exact h.children_lt call hcall c hc
      · exact hlt
    · obtain ⟨hmentioned, hbody⟩ := (hslots slot).1 hslot
      have hdefined : slot.name ∈ calls.filterMap BuilderCall.defined? :=
        List.count_pos_iff.1 (by rw [h.defined_once slot.name hmentioned]; exact Nat.one_pos)
      cases hfound : calls.findSome? (BuilderCall.body? slot.name) with
      | none => exact absurd hdefined (BuilderCall.findSome?_body?_eq_none_iff.1 hfound)
      | some body =>
        exact ⟨body, hbody.trans hfound,
          h.body_lt _ body (BuilderCall.mem_of_findSome?_body? hfound)⟩

end ReversibleGrammar
