/-
What the steps of a language come to.

* `rule_eq_ok_iff` — the body of a rule;
* `tokenizeDetached_eq_ok` — the tokens of a source without their places;
* `parseTokens_eq_ok_iff`, `parse_eq_ok_iff` — the first derivation of tokens or of a source;
* `inject_eq_ok_iff` — the tree that a shape describes.
-/
import ReversibleGrammar.Language.Basic
import ReversibleGrammar.Proofs.Lexing.Scan

namespace ReversibleGrammar

namespace Language

variable {l : Language} {name source : String} {id : PatternId} {t : Tree LexToken}

theorem rule_eq_ok_iff : l.rule name = .ok id ↔ l.grammar.rule? name = some id := by
  rw [rule]
  cases l.grammar.rule? name <;> simp

/-- The tokens of a source without their places. -/
theorem tokenizeDetached_eq_ok {tokens : List LexToken} (h : l.lexer.tokenize source = .ok tokens) :
    l.tokenizeDetached source = .ok (tokens.map LexToken.detach) := by
  rw [tokenizeDetached, Lexer.tokenizeDetached_eq, h]
  rfl

theorem parseTokens_eq_ok_iff {tokens : List LexToken} : l.parseTokens name tokens = .ok t ↔
    ∃ id, l.grammar.rule? name = some id ∧
      parseOne l.grammar l.parserConfig id tokens.toArray = .ok t := by
  simp only [parseTokens, bind_eq_ok_iff, rule_eq_ok_iff, mapError_eq_ok_iff]

theorem parse_eq_ok_iff : l.parse name source = .ok t ↔
    ∃ id tokens, l.grammar.rule? name = some id ∧ l.lexer.tokenize source = .ok tokens ∧
      parseOne l.grammar l.parserConfig id tokens.toArray = .ok t := by
  simp only [parse, bind_eq_ok_iff, parseTokens_eq_ok_iff, tokenize, mapError_eq_ok_iff]
  constructor
  · rintro ⟨tokens, htokens, id, hid, hparse⟩
    exact ⟨id, tokens, hid, htokens, hparse⟩
  · rintro ⟨id, tokens, hid, htokens, hparse⟩
    exact ⟨tokens, htokens, id, hid, hparse⟩

theorem inject_eq_ok_iff {shape : Shape} : l.inject name shape = .ok t ↔
    ∃ id, l.grammar.rule? name = some id ∧
      injectTo l.grammar l.codec l.injectDepth id shape = .ok t := by
  simp only [inject, bind_eq_ok_iff, rule_eq_ok_iff, mapError_eq_ok_iff]

end Language

end ReversibleGrammar
