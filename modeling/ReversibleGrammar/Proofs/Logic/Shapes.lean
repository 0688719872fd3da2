/-
The shape of a Logic program gives the program back, but for empty lists of generics.

A type may have generic arguments, and a declaration generics; both lists stand between `<` and
`>`.  The shape of such a list is the same whether it is empty or missing, so that the signs of an
empty list do not come back.

* `readBack_of_plain` — tokens without places come back;
* `logic_shape_round_trip` — so do programs, without their empty lists.
-/
import ReversibleGrammar.Proofs.Language
import ReversibleGrammar.Proofs.Logic.Grammar
import ReversibleGrammar.Proofs.Recognizer.Leaves
import ReversibleGrammar.Proofs.Recognizer.Soundness
import ReversibleGrammar.Proofs.Shaping.Omission
import ReversibleGrammar.Proofs.Shaping.Tokens

namespace ReversibleGrammar

namespace Logic

theorem codec_lexer : lexer.codec = tokenCodec valuedKinds := by
  rw [Lexer.codec, valuedKinds_lexer]

/-- The leaves of a derivation take tokens of their kinds. -/
theorem kind_of_mem_leaves {tokens : Array LexToken} {t : Tree LexToken} {id : PatternId} {i j : Nat}
    (h : t.Derives grammar tokens id i j) :
    ∀ l ∈ t.leaves, l.1.kind = .consume l.2.kind ∧ l.2 ∈ tokens := by
  intro l hl
  obtain ⟨terminal, hkind, token, htoken, his, hvalue⟩ := Tree.exists_token_of_mem_leaves h hl
  obtain rfl : l.2 = token := hvalue
  obtain rfl : l.2.kind = terminal := eq_of_beq his
  exact ⟨hkind, htoken⟩

/-- Plain tokens come back. -/
theorem readBack_of_plain {tokens : Array LexToken} {t : Tree LexToken} {id : PatternId} {i j : Nat}
    (hplain : ∀ token ∈ tokens, token.Plain valuedKinds) (h : t.Derives grammar tokens id i j) :
    t.ReadBack (tokenCodec valuedKinds) := by
  intro l hl terminal hterminal
  obtain ⟨hkind, hmem⟩ := kind_of_mem_leaves h l hl
  obtain rfl : l.2.kind = terminal := PatternKind.consume.inj (hkind.symm.trans hterminal)
  refine ⟨fun hname => ?_, (hplain l.2 hmem).shapeToken_tokenShape, Shape.noConfusion⟩
  obtain ⟨id, hid⟩ := Tree.exists_pattern?_of_mem_leaves (Tree.fits_of_derives h) hl
  exact (hplain l.2 hmem).eq_terminalToken (not_mem_valuedKinds hid hkind hname)

section

variable {config : ParserConfig} {id : PatternId} {tokens : Array LexToken} {t : Tree LexToken}

/-- A derivation has a shape, and its shape gives it back without its empty lists. -/
theorem exists_shape_of_parseOne (hid : id < grammar.patterns.size)
    (hplain : ∀ token ∈ tokens, token.Plain valuedKinds)
    (h : parseOne grammar config id tokens = .ok t) :
    ∃ shape, t.extract grammar lexer.codec = .ok shape ∧
      Injects grammar lexer.codec id shape t.dropEmpty := by
  have hderives := (covers_of_parseOne closed_grammar distinctLabels_grammar hid h).derives
  rw [codec_lexer]
  exact exists_shape_dropEmpty tells_grammar closed_grammar (fun _ _ => rfl) (fun _ _ => rfl)
    (Tree.fits_of_derives hderives) (readBack_of_plain hplain hderives)

/-- A derivation has no empty list where the signs of one are not in a row. -/
theorem dropEmpty_eq_of_parseOne (hid : id < grammar.patterns.size)
    (h : parseOne grammar config id tokens = .ok t)
    (happart : tokens.toList.IsChain fun v w => ¬ (v.kind = "<" ∧ w.kind = ">")) :
    t.dropEmpty = t := by
  have hderives := (covers_of_parseOne closed_grammar distinctLabels_grammar hid h).derives
  have hvalues : t.values = tokens.toList :=
    (values_of_parseOne closed_grammar hid h).1.trans (List.map_id _)
  refine Tree.dropEmpty_of_filled (filled_of_isChain tells_grammar (Tree.fits_of_derives hderives)
    (fun l hl => (kind_of_mem_leaves hderives l hl).1) ?_)
  rwa [hvalues]

end

end Logic

/-- A program has a shape, and its shape gives it back without its empty lists of generics; it
has none if no `<` stands right before a `>`. -/
theorem logic_shape_round_trip {config : ParserConfig} {rule source : String}
    {tokens : List LexToken} (htokens : Language.logic.tokenizeDetached source = .ok tokens)
    {t : Tree LexToken}
    (h : { Language.logic with parserConfig := config }.parseTokens rule tokens = .ok t)
    {depth : Nat} (hdepth : t.height ≤ depth) :
    ∃ shape, Language.logic.shapeOf t = .ok shape ∧
      { Language.logic with injectDepth := depth }.inject rule shape = .ok t.dropEmpty ∧
      (tokens.IsChain (fun v w => ¬ (v.kind = "<" ∧ w.kind = ">")) → t.dropEmpty = t) := by
  obtain ⟨id, hid, hparse⟩ := Language.parseTokens_eq_ok_iff.1 h
  simp only [Language.logic] at hid hparse
  simp only [Language.tokenizeDetached, Language.logic, mapError_eq_ok_iff] at htokens
  have hsize := Logic.closed_grammar.lt_size_of_rule? hid
  have hplain := Lexer.plain_of_mem_tokenizeDetached Logic.groups_lexer htokens
  obtain ⟨shape, hextract, hinject⟩ :=
    Logic.exists_shape_of_parseOne hsize (by simpa using hplain) hparse
  have hdepth' : t.dropEmpty.height ≤ depth := (Tree.height_dropEmpty_le t).trans hdepth
  refine ⟨shape, ?_, Language.inject_eq_ok_iff.2 ⟨id, ?_, ?_⟩,
    fun happart => Logic.dropEmpty_eq_of_parseOne hsize hparse happart⟩
  · simp only [Language.shapeOf, Language.logic, mapError_eq_ok_iff]
    exact hextract
  · simp only [Language.logic]
    exact hid
  · simp only [Language.logic]
    exact hinject depth hdepth'

/-- The type `A<B>` comes back from its shape. -/
theorem logic_shape_round_trip_generic :
    let source := "A<B>"
    let rule := "typeAnnotation"
    ∃ tokens t shape, Language.logic.tokenizeDetached source = .ok tokens ∧
      { Language.logic with parserConfig := ⟨3, 1000⟩ }.parseTokens rule tokens = .ok t ∧
      Language.logic.shapeOf t = .ok shape ∧
      { Language.logic with injectDepth := t.height }.inject rule shape = .ok t := by
  intro source rule
  have hrun : ((Language.logic.tokenizeDetached source >>= fun tokens =>
      ({ Language.logic with parserConfig := ⟨3, 1000⟩ }.parseTokens rule tokens).map
        fun t => (tokens, t)).map
      fun run => decide (run.1.IsChain fun v w => ¬ (v.kind = "<" ∧ w.kind = ">"))).toOption =
        some true := by
    simp only [Language.logic]
    rw [Logic.grammar_eq]
    decide +kernel
  obtain ⟨run, hrun, happart⟩ := exists_ok_of_toOption_map hrun
  obtain ⟨tokens, htokens, hrun⟩ := bind_eq_ok_iff.1 hrun
  obtain ⟨t, hparse, rfl⟩ := map_eq_ok_iff.1 hrun
  obtain ⟨shape, hshape, hinject, hwhole⟩ := logic_shape_round_trip htokens hparse le_rfl
  rw [hwhole (of_decide_eq_true happart)] at hinject
  exact ⟨tokens, t, shape, htokens, hparse, hshape, hinject⟩

/-- The type `A<>` does not come back from its shape, which is that of the type `A`. -/
theorem empty_generics_lost :
    let rule := "typeAnnotation"
    ∃ tokens t shape t', Language.logic.tokenizeDetached "A<>" = .ok tokens ∧
      { Language.logic with parserConfig := ⟨3, 1000⟩ }.parseTokens rule tokens = .ok t ∧
      Language.logic.shapeOf t = .ok shape ∧
      { Language.logic with injectDepth := 100 }.inject rule shape = .ok t' ∧
      t.values.map LexToken.text = ["A", "<", ">"] ∧ t'.values.map LexToken.text = ["A"] := by
  intro rule
  have hrun : ((Language.logic.tokenizeDetached "A<>" >>= fun tokens =>
      ({ Language.logic with parserConfig := ⟨3, 1000⟩ }.parseTokens rule tokens >>= fun t =>
        Language.logic.shapeOf t >>= fun shape =>
          ({ Language.logic with injectDepth := 100 }.inject rule shape).map
            fun t' => (tokens, t, shape, t'))).map
      fun run => (run.2.1.values.map LexToken.text, run.2.2.2.values.map LexToken.text)).toOption =
        some (["A", "<", ">"], ["A"]) := by
    simp only [Language.logic]
    rw [Logic.grammar_eq]
    decide +kernel
  obtain ⟨run, hrun, htexts⟩ := exists_ok_of_toOption_map hrun
  obtain ⟨tokens, htokens, hrun⟩ := bind_eq_ok_iff.1 hrun
  obtain ⟨t, hparse, hrun⟩ := bind_eq_ok_iff.1 hrun
  obtain ⟨shape, hshape, hrun⟩ := bind_eq_ok_iff.1 hrun
  obtain ⟨t', hinject, rfl⟩ := map_eq_ok_iff.1 hrun
  obtain ⟨htext, htext'⟩ := Prod.mk.inj htexts
  exact ⟨tokens, t, shape, t', htokens, hparse, hshape, hinject, htext, htext'⟩

end ReversibleGrammar
