/-
What the grammar of Logic keeps to.

All that is asked of the grammar is checked on the list of its patterns.

* `checks_grammar` — the checks;
* `closed_grammar`, `distinctLabels_grammar`, `tells_grammar` — what they say;
* `valuedKinds_lexer` — the kinds of tokens that carry a text.
-/
import ReversibleGrammar.Proofs.Grammar.Built
import ReversibleGrammar.Proofs.Grammar.Omission
import ReversibleGrammar.Proofs.Logic.Patterns
import ReversibleGrammar.Proofs.Recognizer.Meaning

namespace ReversibleGrammar

namespace Logic

/-- The kinds of tokens that carry a text. -/
def valuedKinds : List String := ["identifier", "string", "float", "integer", "comment"]

theorem valuedKinds_lexer : lexer.valuedKinds = valuedKinds := by decide +kernel

/-- The rules of the lexer with a group are those of the kinds that carry a text. -/
theorem groups_lexer (r : CompiledRule) (hr : r ∈ lexer.rules) :
    r.groups = if r.rule.name ∈ valuedKinds then 1 else 0 := by
  have hall : (lexer.rules.all fun r =>
      r.groups == if r.rule.name ∈ valuedKinds then 1 else 0) = true := by decide +kernel
  exact eq_of_beq (List.all_eq_true.1 hall r hr)

/-- Without a label, and with a name if it takes tokens that carry a text. -/
def checkPattern (p : Pattern) : Bool :=
  p.label.isNone && match p.kind with
    | .consume terminal => p.name.isSome || decide (terminal ∉ valuedKinds)
    | _ => true

theorem checks_grammar : (grammar.checkClosed && grammar.checkTells "<" ">" 9 &&
    grammar.patterns.toList.all checkPattern) = true := by
  rw [grammar_eq]
  decide +kernel

theorem closed_grammar : grammar.Closed :=
  Grammar.closed_of_check (Bool.and_eq_true_iff.1 (Bool.and_eq_true_iff.1 checks_grammar).1).1

/-- A pattern that leaves no field of its own. -/
def alone : PatternId → Bool := grammar.aloneTo 9

/-- Shapes say everything but whether a list of generics is there and empty. -/
theorem tells_grammar : grammar.Tells alone "<" ">" :=
  Grammar.tells_of_check (Bool.and_eq_true_iff.1 (Bool.and_eq_true_iff.1 checks_grammar).1).2

theorem checkPattern_grammar {p : Pattern} (hp : p ∈ grammar.patterns) : checkPattern p = true :=
  List.all_eq_true.1 (Bool.and_eq_true_iff.1 checks_grammar).2 p (Array.mem_toList_iff.2 hp)

theorem distinctLabels_grammar : grammar.DistinctLabels :=
  Grammar.distinctLabels_of_unlabelled fun _ hp =>
    Option.isNone_iff_eq_none.1 (Bool.and_eq_true_iff.1 (checkPattern_grammar hp)).1

/-- Only tokens without a text are left out of shapes. -/
theorem not_mem_valuedKinds {id : PatternId} {p : Pattern} (hp : grammar.pattern? id = some p)
    {terminal : String} (hkind : p.kind = .consume terminal) (hname : p.name = none) :
    terminal ∉ valuedKinds := by
  have hcheck := (Bool.and_eq_true_iff.1 (checkPattern_grammar (Array.mem_of_getElem? hp))).2
  simpa [hkind, hname] using hcheck

end Logic

end ReversibleGrammar
