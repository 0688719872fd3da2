/-
The grammar of XML documents, pattern by pattern.

* `Xml.patterns`, `grammar_eq` — the patterns in the order of their numbers;
* `built_grammar`, `ranked_grammar` — the grammar can be built, and is not left-recursive;
* `valuedKinds_lexer` — the kinds of tokens that carry a text.
-/
import ReversibleGrammar.Language.Xml
import ReversibleGrammar.Proofs.Grammar.LeftCall
import ReversibleGrammar.Proofs.Recognizer.Meaning

namespace ReversibleGrammar

namespace Xml

/-- The patterns of the grammar. -/
def patterns : Array Pattern :=
  #[{ id := 0, kind := .thunk 0 }, { id := 1, kind := .line .default },
    { id := 2, kind := .many 0 (some 1), name := some "attributes" },
    { id := 3, kind := .consume ">" }, { id := 4, kind := .thunk 1 },
    { id := 5, kind := .many 4 none, name := some "content", label := some 0 },
    { id := 6, kind := .consume "</" },
    { id := 7, kind := .consume "name", name := some "closingTag" },
    { id := 8, kind := .consume ">" }, { id := 9, kind := .sequence [3, 5, 6, 7, 8] },
    { id := 10, kind := .consume "/>" },
    { id := 11, kind := .choice [10, 9] .ordered (some ["selfClosing", "open"]),
      name := some "content", label := some 1 },
    { id := 12, kind := .consume "<" }, { id := 13, kind := .consume "name", name := some "tag" },
    { id := 14, kind := .group 2 },
    { id := 15, kind := .conditional 14 "attributes" (some (.line .default)) none },
    { id := 16, kind := .indent 15 }, { id := 17, kind := .sequence [12, 13, 16, 11] },
    { id := 18, kind := .literal "<!--" },
    { id := 19, kind := .consume "comment", name := some "text" },
    { id := 20, kind := .literal "-->" },
    { id := 21, kind := .sequence [18, 19, 20], select := some "text" },
    { id := 22, kind := .consume "charData", name := some mergeName },
    { id := 23, kind := .thunk 2 },
    { id := 24, kind := .choice [22, 21, 23] .ordered (some ["charData", "comment", "element"]),
      name := some mergeName, label := some 2 },
    { id := 25, kind := .consume "name", name := some "name" }, { id := 26, kind := .consume "=" },
    { id := 27, kind := .literal "\"" },
    { id := 28, kind := .consume "string", name := some "value" },
    { id := 29, kind := .literal "\"" }, { id := 30, kind := .sequence [25, 26, 27, 28, 29] }]

theorem grammar_eq : grammar = ⟨patterns,
    #[⟨"attribute", 30⟩, ⟨"elementContent", 24⟩, ⟨"element", 17⟩],
    #["contentItem", closingLabel, contentLabel]⟩ := by cbv

theorem pattern?_grammar (id : PatternId) : grammar.pattern? id = patterns[id]? := by
  rw [grammar_eq]
  rfl

theorem ruleBody?_grammar (rule : RuleId) :
    grammar.ruleBody? rule = ([30, 24, 17] : List PatternId)[rule]? := by
  rw [grammar_eq]
  match rule with
  | 0 | 1 | 2 => rfl
  | rule + 3 => simp [Grammar.ruleBody?]

/-- The grammar is what a builder makes. -/
theorem built_grammar : grammar.Built := by
  refine ⟨[.rule "attribute", .line .default, .manySeparated 0 1, .named 2 "attributes",
    .consume ">", .rule "elementContent", .many 4, .named 5 "content", .labeled 5 "contentItem",
    .consume "</", .consumeNamed "name" "closingTag", .consume ">", .sequence [3, 5, 6, 7, 8],
    .consume "/>", .typedChoice [("selfClosing", 10), ("open", 9)], .named 11 "content",
    .labeled 11 closingLabel, .consume "<", .consumeNamed "name" "tag", .group 2,
    .conditional 14 "attributes" (some (.line .default)) none, .indent 15,
    .sequence [12, 13, 16, 11], .define "element" 17, .literal "<!--",
    .consumeNamed "comment" "text", .literal "-->", .sequence [18, 19, 20], .select 21 "text",
    .consumeNamed "charData" mergeName, .rule "element",
    .typedChoice [("charData", 22), ("comment", 21), ("element", 23)], .named 24 mergeName,
    .labeled 24 contentLabel, .define "elementContent" 24, .consumeNamed "name" "name",
    .consume "=", .literal "\"", .consumeNamed "string" "value", .literal "\"",
    .sequence [25, 26, 27, 28, 29], .define "attribute" 30], ?_⟩
  rw [grammar_eq]
  cbv

theorem distinctLabels_grammar : grammar.DistinctLabels := by
  have hall : ∀ i < 31, ∀ j < 31, (patterns[i]?.bind (·.label)).isSome →
      patterns[i]?.bind (·.label) = patterns[j]?.bind (·.label) → i = j := by decide
  intro i j p q l hp hq hpl hql
  rw [pattern?_grammar] at hp hq
  have hi : i < 31 := (Array.getElem?_eq_some_iff.1 hp).1
  have hj : j < 31 := (Array.getElem?_eq_some_iff.1 hq).1
  refine hall i hi j hj ?_ ?_ <;> simp [hp, hq, hpl, hql]

/-- No part of a document starts with a part of the same kind. -/
theorem ranked_grammar : ∃ rank, grammar.Ranked rank := by
  have h : grammar.checkRank (fun id => [1, 2, 5, 14, 15, 16, 18, 20, 27, 29].contains id)
      (fun id => [7, 0, 8, 0, 4, 5, 0, 0, 0, 1, 0, 2, 0, 0, 9, 10, 11, 1, 0, 0, 0, 1, 0, 2, 3, 0,
        0, 0, 0, 0, 1].getD id 0) = true := by
    rw [grammar_eq]
    decide
  exact ⟨_, Grammar.ranked_of_check h⟩

theorem valuedKinds_lexer : lexer.valuedKinds = ["comment", "charData", "string", "name"] := by
  decide +kernel

end Xml

end ReversibleGrammar
