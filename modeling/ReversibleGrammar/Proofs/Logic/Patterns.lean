/-
The grammar of Logic, pattern by pattern.

* `Logic.patterns`, `Logic.ruleTable` — the patterns and the rules, in the order of their numbers;
* `Logic.samePattern` — whether two patterns are the same, computed;
* `Logic.grammar_eq` — the grammar consists of them.
-/
import ReversibleGrammar.Language.Logic
import ReversibleGrammar.Proofs.Grammar.Built

namespace ReversibleGrammar

namespace Logic

/-- The patterns of the grammar. -/
def patterns : Array Pattern :=
  #[{ id := 0, kind := .thunk 0 }, { id := 1, kind := .line .hard },
    { id := 2, kind := .many 0 (some 1), name := some "declarations" },
    { id := 3, kind := .thunk 2 }, { id := 4, kind := .thunk 3 }, { id := 5, kind := .thunk 4 },
    { id := 6, kind := .thunk 5 }, { id := 7, kind := .thunk 6 }, { id := 8, kind := .thunk 7 },
    { id := 9, kind := .choice [3, 4, 5, 6, 7, 8] .ordered (some ["variableDeclaration",
      "structDeclaration", "namespaceDeclaration", "functionDeclaration", "enumDeclaration",
      "importDeclaration"]), name := some mergeName }, { id := 10, kind := .consume "import" },
    { id := 11, kind := .line .default }, { id := 12, kind := .thunk 8, name := some "name" },
    { id := 13, kind := .sequence [10, 11, 12] }, { id := 14, kind := .group 13 },
    { id := 15, kind := .literal "/*" },
    { id := 16, kind := .consume "comment", name := some "comment" },
    { id := 17, kind := .literal "*/" }, { id := 18, kind := .line .hard },
    { id := 19, kind := .sequence [15, 16, 17, 18] }, { id := 20, kind := .thunk 10 },
    { id := 21, kind := .line .hard },
    { id := 22, kind := .many 20 (some 21), name := some "attributes" },
    { id := 23, kind := .conditional 22 "attributes" none (some (.line .hard)) },
    { id := 24, kind := .consume "<" }, { id := 25, kind := .thunk 8 },
    { id := 26, kind := .consume "," }, { id := 27, kind := .line .default },
    { id := 28, kind := .sequence [26, 27] },
    { id := 29, kind := .many 25 (some 28), name := some "generics" },
    { id := 30, kind := .consume ">" }, { id := 31, kind := .sequence [24, 29, 30] },
    { id := 32, kind := .thunk 9 }, { id := 33, kind := .option 32, name := some "comment" },
    { id := 34, kind := .thunk 11 }, { id := 35, kind := .consume "let" },
    { id := 36, kind := .line .default }, { id := 37, kind := .thunk 8, name := some "name" },
    { id := 38, kind := .consume ":" }, { id := 39, kind := .line .default },
    { id := 40, kind := .thunk 13, name := some "annotation" },
    { id := 41, kind := .line .default }, { id := 42, kind := .consume "=" },
    { id := 43, kind := .line .default },
    { id := 44, kind := .thunk 14, name := some "initializer" },
    { id := 45, kind := .sequence [35, 36, 37, 38, 39, 40, 41, 42, 43, 44] },
    { id := 46, kind := .group 45 }, { id := 47, kind := .sequence [33, 34, 46] },
    { id := 48, kind := .thunk 8, name := some "name" }, { id := 49, kind := .consume ":" },
    { id := 50, kind := .line .default },
    { id := 51, kind := .thunk 13, name := some "annotation" },
    { id := 52, kind := .sequence [48, 49, 50, 51] }, { id := 53, kind := .thunk 9 },
    { id := 54, kind := .option 53, name := some "comment" }, { id := 55, kind := .thunk 11 },
    { id := 56, kind := .consume "func" }, { id := 57, kind := .line .default },
    { id := 58, kind := .thunk 8, name := some "name" }, { id := 59, kind := .thunk 12 },
    { id := 60, kind := .option 59, name := some "generics", select := some "generics",
      absent := some (.list []) }, { id := 61, kind := .consume "(" },
    { id := 62, kind := .thunk 15 }, { id := 63, kind := .consume "," },
    { id := 64, kind := .line .default }, { id := 65, kind := .sequence [63, 64] },
    { id := 66, kind := .many 62 (some 65), name := some "arguments" },
    { id := 67, kind := .conditional 66 "arguments" (some (.line .soft)) none },
    { id := 68, kind := .indent 67 },
    { id := 69, kind := .conditional 68 "arguments" none (some (.line .soft)) },
    { id := 70, kind := .group 69 }, { id := 71, kind := .consume ")" },
    { id := 72, kind := .line .default }, { id := 73, kind := .consume "->" },
    { id := 74, kind := .line .default },
    { id := 75, kind := .thunk 13, name := some "returnType" },
    { id := 76, kind := .line .default }, { id := 77, kind := .consume "\x7b" },
    { id := 78, kind := .consume "\x7d" },
    { id := 79, kind := .sequence [56, 57, 58, 60, 61, 70, 71, 72, 73, 74, 75, 76, 77, 78] },
    { id := 80, kind := .group 79 }, { id := 81, kind := .sequence [54, 55, 80] },
    { id := 82, kind := .thunk 0 }, { id := 83, kind := .thunk 9 },
    { id := 84, kind := .option 83, name := some "comment" }, { id := 85, kind := .thunk 11 },
    { id := 86, kind := .consume "struct" }, { id := 87, kind := .line .default },
    { id := 88, kind := .thunk 8, name := some "name" }, { id := 89, kind := .thunk 12 },
    { id := 90, kind := .option 89, name := some "generics", select := some "generics",
      absent := some (.list []) }, { id := 91, kind := .line .default },
    { id := 92, kind := .consume "\x7b" }, { id := 93, kind := .sequence [86, 87, 88, 90, 91, 92] },
    { id := 94, kind := .group 93 }, { id := 95, kind := .line .hard },
    { id := 96, kind := .many 82 (some 95), name := some "body" },
    { id := 97, kind := .conditional 96 "body" (some (.line .hard)) none },
    { id := 98, kind := .indent 97 },
    { id := 99, kind := .conditional 98 "body" none (some (.line .hard)) },
    { id := 100, kind := .group 99 }, { id := 101, kind := .consume "\x7d" },
    { id := 102, kind := .sequence [84, 85, 94, 100, 101] }, { id := 103, kind := .thunk 0 },
    { id := 104, kind := .thunk 9 }, { id := 105, kind := .option 104, name := some "comment" },
    { id := 106, kind := .thunk 11 }, { id := 107, kind := .consume "extension" },
    { id := 108, kind := .line .default }, { id := 109, kind := .thunk 8, name := some "name" },
    { id := 110, kind := .thunk 12 },
    { id := 111, kind := .option 110, name := some "generics", select := some "generics",
      absent := some (.list []) }, { id := 112, kind := .line .default },
    { id := 113, kind := .consume "\x7b" },
    { id := 114, kind := .sequence [107, 108, 109, 111, 112, 113] },
    { id := 115, kind := .group 114 }, { id := 116, kind := .line .hard },
    { id := 117, kind := .many 103 (some 116), name := some "body" },
    { id := 118, kind := .conditional 117 "body" (some (.line .hard)) none },
    { id := 119, kind := .indent 118 },
    { id := 120, kind := .conditional 119 "body" none (some (.line .hard)) },
    { id := 121, kind := .group 120 }, { id := 122, kind := .consume "\x7d" },
    { id := 123, kind := .sequence [105, 106, 115, 121, 122] }, { id := 124, kind := .thunk 16 },
    { id := 125, kind := .thunk 9 }, { id := 126, kind := .option 125, name := some "comment" },
    { id := 127, kind := .thunk 11 }, { id := 128, kind := .consume "enum" },
    { id := 129, kind := .line .default }, { id := 130, kind := .thunk 8, name := some "name" },
    { id := 131, kind := .thunk 12 },
    { id := 132, kind := .option 131, name := some "generics", select := some "generics",
      absent := some (.list []) }, { id := 133, kind := .line .default },
    { id := 134, kind := .consume "\x7b" },
    { id := 135, kind := .sequence [128, 129, 130, 132, 133, 134] },
    { id := 136, kind := .group 135 }, { id := 137, kind := .line .hard },
    { id := 138, kind := .many 124 (some 137), name := some "body" },
    { id := 139, kind := .conditional 138 "body" (some (.line .hard)) none },
    { id := 140, kind := .indent 139 },
    { id := 141, kind := .conditional 140 "body" none (some (.line .hard)) },
    { id := 142, kind := .group 141 }, { id := 143, kind := .consume "\x7d" },
    { id := 144, kind := .sequence [126, 127, 136, 142, 143] }, { id := 145, kind := .thunk 9 },
    { id := 146, kind := .option 145, name := some "comment" },
    { id := 147, kind := .consume "case" }, { id := 148, kind := .line .default },
    { id := 149, kind := .thunk 8, name := some "name" }, { id := 150, kind := .consume "(" },
    { id := 151, kind := .thunk 17 }, { id := 152, kind := .consume "," },
    { id := 153, kind := .line .default }, { id := 154, kind := .sequence [152, 153] },
    { id := 155, kind := .many 151 (some 154), name := some "associatedValues" },
    { id := 156, kind := .consume ")" },
    { id := 157, kind := .sequence [147, 148, 149, 150, 155, 156] },
    { id := 158, kind := .group 157 }, { id := 159, kind := .sequence [146, 158] },
    { id := 160, kind := .thunk 8 }, { id := 161, kind := .consume ":" },
    { id := 162, kind := .line .default },
    { id := 163, kind := .sequence [160, 161, 162], name := some "identifier" },
    { id := 164, kind := .option 163, name := some "label", select := some "identifier" },
    { id := 165, kind := .thunk 13, name := some "annotation" },
    { id := 166, kind := .sequence [164, 165] }, { id := 167, kind := .thunk 18 },
    { id := 168, kind := .thunk 19 }, { id := 169, kind := .thunk 20 },
    { id := 170, kind := .thunk 21 },
    { id := 171, kind := .choice [167, 168, 169, 170] .parallel (some ["functionCallExpression",
      "memberExpression", "identifierExpression", "literalExpression"]), name := some mergeName },
    { id := 172, kind := .thunk 14, name := some "expression" },
    { id := 173, kind := .consume "(" }, { id := 174, kind := .thunk 22 },
    { id := 175, kind := .consume "," }, { id := 176, kind := .line .default },
    { id := 177, kind := .sequence [175, 176] },
    { id := 178, kind := .many 174 (some 177), name := some "arguments" },
    { id := 179, kind := .conditional 178 "arguments" (some (.line .soft)) none },
    { id := 180, kind := .indent 179 },
    { id := 181, kind := .conditional 180 "arguments" none (some (.line .soft)) },
    { id := 182, kind := .group 181 }, { id := 183, kind := .consume ")" },
    { id := 184, kind := .sequence [172, 173, 182, 183] }, { id := 185, kind := .thunk 8 },
    { id := 186, kind := .consume ":" }, { id := 187, kind := .line .default },
    { id := 188, kind := .sequence [185, 186, 187], name := some "identifier" },
    { id := 189, kind := .option 188, name := some "label", select := some "identifier" },
    { id := 190, kind := .thunk 14, name := some "expression" },
    { id := 191, kind := .sequence [189, 190] },
    { id := 192, kind := .thunk 14, name := some "expression" },
    { id := 193, kind := .consume "." }, { id := 194, kind := .thunk 14, name := some "member" },
    { id := 195, kind := .sequence [192, 193, 194] }, { id := 196, kind := .thunk 8 },
    { id := 197, kind := .sequence [196] }, { id := 198, kind := .thunk 23 },
    { id := 199, kind := .thunk 24 }, { id := 200, kind := .thunk 25 },
    { id := 201, kind := .thunk 26 },
    { id := 202, kind := .choice [198, 199, 200, 201] .ordered (some ["boolean", "number",
      "string", "array"]), name := some mergeName }, { id := 203, kind := .consume "true" },
    { id := 204, kind := .consume "false" },
    { id := 205, kind := .choice [203, 204] .ordered (some ["true", "false"]),
      name := some mergeName }, { id := 206, kind := .consume "integer", name := some mergeName },
    { id := 207, kind := .consume "float", name := some mergeName },
    { id := 208, kind := .choice [206, 207] .ordered (some ["integer", "float"]),
      name := some mergeName }, { id := 209, kind := .literal "\"" },
    { id := 210, kind := .consume "string", name := some "value" },
    { id := 211, kind := .literal "\"" }, { id := 212, kind := .sequence [209, 210, 211] },
    { id := 213, kind := .consume "[" }, { id := 214, kind := .thunk 14 },
    { id := 215, kind := .consume "," }, { id := 216, kind := .line .default },
    { id := 217, kind := .sequence [215, 216] },
    { id := 218, kind := .many 214 (some 217), name := some "body" },
    { id := 219, kind := .conditional 218 "body" (some (.line .soft)) none },
    { id := 220, kind := .indent 219 },
    { id := 221, kind := .conditional 220 "body" none (some (.line .soft)) },
    { id := 222, kind := .group 221 }, { id := 223, kind := .consume "]" },
    { id := 224, kind := .sequence [213, 222, 223] }, { id := 225, kind := .consume "<" },
    { id := 226, kind := .thunk 13 }, { id := 227, kind := .consume "," },
    { id := 228, kind := .line .default }, { id := 229, kind := .sequence [227, 228] },
    { id := 230, kind := .many 226 (some 229), name := some "genericArguments" },
    { id := 231, kind := .consume ">" }, { id := 232, kind := .sequence [225, 230, 231] },
    { id := 233, kind := .thunk 8 },
    { id := 234, kind := .option 232, name := some "genericArguments",
      select := some "genericArguments", absent := some (.list []) },
    { id := 235, kind := .sequence [233, 234] },
    { id := 236, kind := .consume "identifier", name := some "value" },
    { id := 237, kind := .consume "@" },
    { id := 238, kind := .consume "identifier", name := some "value" },
    { id := 239, kind := .sequence [237, 238] }]

/-- The rules of the grammar. -/
def ruleTable : Array Rule :=
  #[⟨"declaration", 9⟩, ⟨"program", 2⟩, ⟨"variableDeclaration", 47⟩, ⟨"structDeclaration", 102⟩,
    ⟨"namespaceDeclaration", 123⟩, ⟨"functionDeclaration", 81⟩, ⟨"enumDeclaration", 144⟩,
    ⟨"importDeclaration", 14⟩, ⟨"identifier", 236⟩, ⟨"comment", 19⟩, ⟨"attribute", 239⟩,
    ⟨"attributeList", 23⟩, ⟨"genericIdentifierList", 31⟩, ⟨"typeAnnotation", 235⟩,
    ⟨"expression", 171⟩, ⟨"functionParameter", 52⟩, ⟨"enumCase", 159⟩, ⟨"associatedValue", 166⟩,
    ⟨"functionCallExpression", 184⟩, ⟨"memberExpression", 195⟩, ⟨"identifierExpression", 197⟩,
    ⟨"literalExpression", 202⟩, ⟨"functionCallArgument", 191⟩, ⟨"booleanLiteral", 205⟩,
    ⟨"numberLiteral", 208⟩, ⟨"stringLiteral", 212⟩, ⟨"arrayLiteral", 224⟩]

/-- Whether two patterns are the same, where an absent option is either shaped as the empty list or
not at all. -/
def samePattern (p q : Pattern) : Bool :=
  decide (p.id = q.id ∧ p.kind = q.kind ∧ p.name = q.name ∧ p.label = q.label ∧
    p.select = q.select) &&
  match p.absent, q.absent with
  | none, none => true
  | some (.list []), some (.list []) => true
  | _, _ => false

theorem eq_of_samePattern {p q : Pattern} (h : samePattern p q = true) : p = q := by
  obtain ⟨id, kind, name, label, select, absent⟩ := p
  obtain ⟨id', kind', name', label', select', absent'⟩ := q
  obtain ⟨hfields, habsent⟩ := Bool.and_eq_true_iff.1 h
  obtain ⟨rfl, rfl, rfl, rfl, rfl⟩ := of_decide_eq_true hfields
  have heq : absent = absent' := by
    dsimp only at habsent
    split at habsent <;> first | rfl | cases habsent
  rw [heq]

theorem eq_of_isEqv_samePattern {ps qs : List Pattern} (h : ps.isEqv qs samePattern = true) :
    ps = qs := by
  induction ps generalizing qs with
  | nil =>
    cases qs with
    | nil => rfl
    | cons q qs => cases h
  | cons p ps ih =>
    cases qs with
    | nil => cases h
    | cons q qs =>
      obtain ⟨hp, hps⟩ := Bool.and_eq_true_iff.1 h
      rw [eq_of_samePattern hp, ih hps]

theorem grammar_eq : grammar = ⟨patterns, ruleTable, #[]⟩ := by
  have hbuild : (rules.run Builder.empty).2.build = .ok grammar :=
    toOption_eq_some_iff.1 (Option.some_get isSome_grammar).symm
  have hsame : (fun b : Builder => b.patterns.toList.isEqv patterns.toList samePattern &&
      decide (b.rules = ruleTable.map (fun rule => ⟨rule.name, some rule.body⟩) ∧ b.labels = #[]))
      (rules.run Builder.empty).2 = true := by decide +kernel
  rw [Builder.eq_of_build hbuild] at hsame
  obtain ⟨hpatterns, hrest⟩ := Bool.and_eq_true_iff.1 hsame
  obtain ⟨hrules, hlabels⟩ := of_decide_eq_true hrest
  replace hpatterns := Array.toList_inj.1 (eq_of_isEqv_samePattern hpatterns)
  have hinj : Function.Injective fun rule : Rule => (⟨rule.name, some rule.body⟩ : RuleSlot) := by
    rintro ⟨name, body⟩ ⟨name', body'⟩ h
    cases h
    rfl
  replace hrules := Array.map_inj_right hinj |>.1 hrules
  -- the grammar is not to be built once more
  generalize grammar = g at hpatterns hrules hlabels ⊢
  cases g
  exact congr (congr (congrArg Grammar.mk hpatterns) hrules) hlabels

end Logic

end ReversibleGrammar
