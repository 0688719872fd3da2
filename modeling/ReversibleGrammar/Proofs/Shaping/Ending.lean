/-
Injection into the languages that come with the library always ends.

The grammars of both languages are recursive, and that of Logic is left-recursive.  Still every way
around in them passes a field, the items of a list or the value of a choice.

* `Xml.descends_grammar`, `Logic.descends_grammar` — calls of the walk come to less;
* `Language.inject_ends` — every shape gives a tree or an error that speaks of the shape.
-/
import ReversibleGrammar.Language.Bundled
import ReversibleGrammar.Proofs.Language
import ReversibleGrammar.Proofs.Logic.Grammar
import ReversibleGrammar.Proofs.Shaping.Descent
import ReversibleGrammar.Proofs.Xml.Shapes

namespace ReversibleGrammar

/-! ### Codecs -/

theorem Tagged.isInternal_ofShape {shape : Shape} {e : ShapeError}
    (h : Tagged.ofShape shape = .error e) : e.isInternal = false := by
  unfold Tagged.ofShape at h
  split at h
  · cases h
  · cases h
  · exact Except.error.inj h ▸ rfl

theorem blamesShapes_tokenCodec (valued : List String) : (tokenCodec valued).BlamesShapes where
  shapeToken {value terminal e} h := by
    simp only [tokenCodec] at h
    split at h
    · unfold LexToken.ofShape at h
      split at h
      · cases h
      · exact Except.error.inj h ▸ rfl
    · cases h
  shapeTagged h := Tagged.isInternal_ofShape h

theorem narrows_tokenCodec (valued : List String) :
    (tokenCodec valued).Narrows fun _ => false where
  size_le h := Nat.le_of_lt (Tagged.size_lt_of_ofShape h)
  size_lt h _ := Tagged.size_lt_of_ofShape h

namespace Xml

/-- The closing of an element is read from the whole shape; all other choices are tagged. -/
def keepsSize (label : Option String) : Bool := label == some closingLabel

theorem blamesShapes_codec : codec.BlamesShapes where
  shapeToken h := by
    rw [shapeToken_codec] at h
    exact (blamesShapes_tokenCodec _).shapeToken h
  shapeTagged {value label e} h := by
    simp only [codec, shapeTagged] at h
    split at h
    · cases h
    · split at h
      · exact Tagged.isInternal_ofShape h
      · exact Except.error.inj h ▸ rfl

theorem size_closingOfShape_le (shape : Shape) : (closingOfShape shape).value.size ≤ shape.size := by
  unfold closingOfShape
  split
  · exact Nat.le_refl _
  · exact shape.size_pos

theorem narrows_codec : codec.Narrows keepsSize where
  size_le {value label tagged} h := by
    simp only [codec, shapeTagged] at h
    split at h
    · exact Except.ok.inj h ▸ size_closingOfShape_le value
    · split at h
      · exact Nat.le_of_lt (Tagged.size_lt_of_ofShape h)
      · cases h
  size_lt {value label tagged} h hlabel := by
    have hne : label ≠ some closingLabel := by simpa [keepsSize] using hlabel
    simp only [codec, shapeTagged, if_neg hne] at h
    split at h
    · exact Tagged.size_lt_of_ofShape h
    · cases h

/-! ### Grammars -/

/-- Ranks of the patterns, where a value of a shape counts ten. -/
def injectRank (id : PatternId) : Nat :=
  [2, 0, 0, 0, 3, 0, 0, 0, 0, 1, 0, 0, 0, 0, 1, 2, 3, 4, 0, 0, 0, 11, 0, 5, 2, 0, 0, 0, 0, 0,
    1].getD id 0

theorem descends_grammar : grammar.Descends codec 10 injectRank := by
  refine Grammar.descends_of_check narrows_codec ?_
  rw [grammar_eq]
  decide +kernel

theorem rank_rules : (grammar.rules.toList.all fun rule => injectRank rule.body < 10) = true := by
  rw [grammar_eq]
  decide +kernel

end Xml

/-- The longest way along calls that may leave the size of a shape as it is, as far as the fuel
goes. -/
def Grammar.levelTo (g : Grammar) : Nat → PatternId → Nat
  | 0, _ => 0
  | fuel + 1, id =>
    match g.pattern? id with
    | none => 0
    | some p =>
      if g.loss (fun _ => false) p ≤ p.gain then
        ((p.kind.injectCalls g).map fun child => g.levelTo fuel child + 1).foldr max 0
      else 0

namespace Logic

theorem descends_grammar : grammar.Descends lexer.codec 10 (grammar.levelTo 10) := by
  refine Grammar.descends_of_check (narrows_tokenCodec _) ?_
  rw [grammar_eq]
  decide +kernel

theorem rank_rules : (grammar.rules.toList.all fun r => grammar.levelTo 10 r.body < 10) = true := by
  rw [grammar_eq]
  decide +kernel

theorem isSome_expression : (grammar.rule? "expression").isSome := by
  rw [grammar_eq]
  decide +kernel

theorem blamesShapes_codec : lexer.codec.BlamesShapes := blamesShapes_tokenCodec _

end Logic

/-! ### Languages -/

/-- The injections of a language end for rules that have a rank less than `weight`. -/
theorem Language.ends_of_descends {l : Language} {weight : Nat} {rank : PatternId → Nat}
    (hl : l.grammar.Descends l.codec weight rank) (hg : l.grammar.Closed)
    (hcodec : l.codec.BlamesShapes)
    (hrank : (l.grammar.rules.toList.all fun rule => rank rule.body < weight) = true)
    {name : String} (hname : (l.grammar.rule? name).isSome) (shape : Shape) :
    ∃ answer, (∀ depth, weight * (shape.size + 1) ≤ depth →
        { l with injectDepth := depth }.inject name shape = answer) ∧
      ((∃ t, answer = .ok t) ∨ ∃ e, answer = .error (.shape e) ∧ e.isInternal = false) := by
  obtain ⟨id, hid⟩ := Option.isSome_iff_exists.1 hname
  obtain ⟨rule, hrule, rfl⟩ := Option.map_eq_some_iff.1 hid
  have hlt := of_decide_eq_true (List.all_eq_true.1 hrank rule
    (Array.mem_toList_iff.2 (Array.mem_of_find?_eq_some hrule)))
  obtain ⟨answer, hanswer, herror⟩ := hl.ends hg hcodec (hg.lt_size_of_rule? hid) shape
  refine ⟨answer.mapError LanguageError.shape, fun depth hdepth => ?_, ?_⟩
  · rw [Nat.mul_succ] at hdepth
    rw [Language.inject, Language.rule, hid]
    exact congrArg (Except.mapError LanguageError.shape) (hanswer depth (by omega))
  · cases answer with
    | ok t => exact Or.inl ⟨t, rfl⟩
    | error e => exact Or.inr ⟨e, rfl, herror e rfl⟩

/-- Injection always ends: as a rule of a language of the library, every shape gives the same tree,
or the same error that speaks of the shape, however deep above ten times its size the walk may
go. -/
theorem Language.inject_ends {l : Language} (hl : l ∈ Language.bundled) {name : String}
    (hname : (l.grammar.rule? name).isSome) (shape : Shape) :
    ∃ answer, (∀ depth, 10 * (shape.size + 1) ≤ depth →
        { l with injectDepth := depth }.inject name shape = answer) ∧
      ((∃ t, answer = .ok t) ∨ ∃ e, answer = .error (.shape e) ∧ e.isInternal = false) := by
  simp only [Language.bundled, List.mem_cons, List.not_mem_nil, or_false] at hl
  rcases hl with rfl | rfl
  · exact ends_of_descends Xml.descends_grammar Xml.built_grammar.closed Xml.blamesShapes_codec
      Xml.rank_rules hname shape
  · exact ends_of_descends Logic.descends_grammar Logic.closed_grammar
      Logic.blamesShapes_codec Logic.rank_rules hname shape

/-- A call of a function with no arguments, as a left-recursive rule, where a list should be. -/
theorem Language.inject_ends_expression : ∃ answer,
    (∀ depth, 10 * ((Shape.list [.null]).size + 1) ≤ depth →
      { Language.logic with injectDepth := depth }.inject "expression" (.list [.null]) = answer) ∧
    ((∃ t, answer = .ok t) ∨ ∃ e, answer = .error (.shape e) ∧ e.isInternal = false) :=
  Language.inject_ends (List.mem_cons_of_mem _ List.mem_cons_self) Logic.isSome_expression _

end ReversibleGrammar
