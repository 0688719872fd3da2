/-
Where diagnostics point.

A parser reports failures at tokens, a lexer places tokens and errors at bytes, and a
diagnostic marks characters.  The bytes that a lexer speaks of are those before a
character or at the end of its source, so the three agree.

* `Text.exists_split_of_isValid`, `Text.isPrefix_of_byteLength_le` — what is before a place of a
  text;
* `covers_of_tokenize`, `offset_of_tokenize_eq_error` — where tokens and errors of a source are;
* `Label.Marks` — a label marks the characters of a span;
* `report_in_text` — the labels of reports lie in the text, at what they report.
-/
import ReversibleGrammar.Diagnostic.Report
import ReversibleGrammar.Language.Xml
import ReversibleGrammar.Proofs.Lexing.Coverage

namespace ReversibleGrammar

/-! ### Places of a text -/

namespace Text

/-- A place of a source is the end of the characters before it. -/
theorem exists_split_of_isValid {source : String} {offset : Nat}
    (h : String.Pos.Raw.IsValid source ⟨offset⟩) :
    ∃ cs ds, source.toList = cs ++ ds ∧ offset = byteLength cs := by
  obtain ⟨s, t, rfl, hoffset⟩ := String.Pos.Raw.isValid_iff_exists_append.1 h
  refine ⟨s.toList, t.toList, String.toList_append, ?_⟩
  rw [← utf8ByteSize_ofList, String.ofList_toList]
  exact congrArg String.Pos.Raw.byteIdx hoffset

/-- Of two places of a text, the one with fewer bytes before it is the earlier one. -/
theorem isPrefix_of_byteLength_le {cs ds cs' ds' : List Char} (h : cs ++ ds = cs' ++ ds')
    (hle : byteLength cs ≤ byteLength cs') : cs <+: cs' := by
  rcases List.append_eq_append_iff.1 h with ⟨inside, rfl, -⟩ | ⟨inside, rfl, -⟩
  · exact List.prefix_append cs inside
  · -- nothing is between the two
    have hinside : inside = [] := by
      by_contra hne
      have hpos := byteLength_pos hne
      rw [byteLength_append] at hle
      omega
    rw [hinside, List.append_nil]

end Text

theorem Span.InOrder.start_le_stop {first last : Nat} {spans : List Span}
    (h : InOrder first spans last) {s : Span} (hs : s ∈ spans) : s.start ≤ s.stop := by
  induction spans generalizing first with
  | nil => cases hs
  | cons s' spans ih =>
    rcases List.mem_cons.1 hs with rfl | hs
    · exact h.2.1
    · exact ih h.2.2 hs

/-! ### Tokens and errors of a source -/

namespace Lexer

variable {states : List LexerState} {l : Lexer} {source : String}

/-- A run that starts at the first state. -/
theorem covering_first (hl : l.Closed) (source : String) :
    l.Covering {} source ⟨0, [], 0, source.toList, []⟩ where
  known := by simpa using hl.pos
  taken := ⟨[], rfl, rfl⟩
  valid := List.forall_mem_nil _
  inOrder := Nat.zero_le _
  tile _ := rfl

theorem tokenize_eq_loop (l : Lexer) (source : String) :
    l.tokenize source = l.loop {} (matchBound l.states.size 0 source.toList.length)
      (Scan.mk 0 [] 0 source.toList []).toStack := by
  rw [loop_toStack]
  rfl

/-- The tokens of a source cover it. -/
theorem covers_of_tokenize (hmake : make states = .ok l) {tokens : List LexToken}
    (h : l.tokenize source = .ok tokens) : l.Covers {} source tokens := by
  have hl := closed_of_make hmake
  rw [tokenize_eq_loop] at h
  obtain ⟨u, hruns, hend, rfl⟩ := exists_end_of_loop h
  obtain ⟨t, rfl, ht⟩ := (covering_first hl source).runs hl hruns
  exact ht.covers (hend.resolve_right (List.cons_ne_nil _ _))

/-- An error that reports a place does so before a character. -/
theorem offset_of_tokenize_eq_error (hmake : make states = .ok l) {e : LexError} {offset : Nat}
    (h : l.tokenize source = .error e) (he : e.offset? = some offset) :
    ∃ before after, source.toList = before ++ after ∧ after ≠ [] ∧
      offset = Text.byteLength before := by
  have hl := closed_of_make hmake
  rw [tokenize_eq_loop] at h
  rcases exists_error_of_loop h with rfl | ⟨u, q, hruns, hrest, hhead, hmatch⟩
  · cases he
  obtain ⟨t, rfl, ht⟩ := (covering_first hl source).runs hl hruns
  obtain rfl : t.current = q := Option.some.inj hhead
  rw [matchOn_toStack, map_eq_error_iff] at hmatch
  obtain rfl := offset_of_step_eq_error hmatch he
  obtain ⟨taken, hsource, hoffset⟩ := ht.taken
  exact ⟨taken, t.rest, hsource, hrest, hoffset⟩

end Lexer

/-! ### Labels -/

/-- The label marks the characters that the span holds the bytes of. -/
def Label.Marks (label : Label) (source : List Char) (span : Span) : Prop :=
  ∃ before inside after, source = before ++ inside ++ after ∧
    label.start = before.length ∧ label.stop = before.length + inside.length ∧
    span.start = Text.byteLength before ∧
    span.stop = Text.byteLength before + Text.byteLength inside

/-- The token of a failure is marked. -/
theorem failureLabel_marks {l : Lexer} {source : String} {tokens : List LexToken}
    (h : l.Covers {} source tokens) {failure : FailureReport LexToken} {token : LexToken}
    (htoken : tokens[failure.position]? = some token) :
    (failureLabel source.toList tokens failure).Marks source.toList token.span := by
  have hmem := List.mem_of_getElem? htoken
  obtain ⟨hstart, hstop⟩ := h.valid token hmem
  have hle := h.inOrder.start_le_stop (List.mem_map_of_mem hmem)
  obtain ⟨before, rest, hsource, hbefore⟩ := Text.exists_split_of_isValid hstart
  obtain ⟨upto, after, hsource', hupto⟩ := Text.exists_split_of_isValid hstop
  rw [hbefore, hupto] at hle
  obtain ⟨inside, rfl⟩ := Text.isPrefix_of_byteLength_le (hsource ▸ hsource') hle
  refine ⟨before, inside, after, hsource', ?_, ?_, hbefore, ?_⟩
  · simp only [failureLabel, failureRange, htoken, hbefore]
    rw [hsource, Text.charIndex_byteLength]
  · simp only [failureLabel, failureRange, htoken, hupto]
    rw [hsource', Text.charIndex_byteLength, List.length_append]
  · rw [hupto, Text.byteLength_append]

/-- A failure after the last token is at the last character. -/
theorem failureLabel_of_length_le {source : List Char} {tokens : List LexToken}
    {failure : FailureReport LexToken} (h : tokens.length ≤ failure.position) :
    (failureLabel source tokens failure).start = source.length - 1 ∧
      (failureLabel source tokens failure).stop = source.length := by
  simp only [failureLabel, failureRange, List.getElem?_eq_none h, and_self]

theorem Label.Marks.range {label : Label} {source : List Char} {span : Span}
    (h : label.Marks source span) : label.start ≤ label.stop ∧ label.stop ≤ source.length := by
  obtain ⟨before, inside, after, rfl, hstart, hstop, -⟩ := h
  simp only [List.length_append]
  omega

/-- The labels of a report lie in the text.  A failure of a parse of the tokens of the text marks
its token, or the last character if it is after them all.  An error of the lexer that reports a
place marks the character there. -/
theorem report_in_text {states : List LexerState} {l : Language}
    (hmake : Lexer.make states = .ok l.lexer) (source : String) :
    (∀ tokens, l.tokenize source = .ok tokens → ∀ failures : List (FailureReport LexToken),
      ∃ d : Diagnostic, (ParseError.noMatch failures).report source tokens = .drawn d ∧
        List.Forall₂ (fun (failure : FailureReport LexToken) (label : Label) =>
          label.message = failure.message ∧
          label.start ≤ label.stop ∧ label.stop ≤ source.length ∧
          (∀ token, tokens[failure.position]? = some token →
            label.Marks source.toList token.span) ∧
          (tokens.length ≤ failure.position →
            label.start = source.length - 1 ∧ label.stop = source.length))
        failures d.labels) ∧
    ∀ e offset, l.tokenize source = .error (.lex e) → e.offset? = some offset →
      ∃ (d : Diagnostic) (label : Label), e.report source = .drawn d ∧ d.labels = [label] ∧
        label.stop = label.start + 1 ∧ label.stop ≤ source.length ∧
        ∃ before after, source.toList = before ++ after ∧ label.start = before.length ∧
          offset = Text.byteLength before := by
  constructor
  · intro tokens htokens failures
    have hcovers := Lexer.covers_of_tokenize hmake (mapError_eq_ok_iff.1 htokens)
    refine ⟨_, rfl, List.forall₂_map_right_iff.2 (List.forall₂_same.2 fun failure _ => ?_)⟩
    rw [← String.length_toList]
    have hlast := @failureLabel_of_length_le source.toList tokens failure
    cases htoken : tokens[failure.position]? with
    | some token =>
      have hmarks := failureLabel_marks hcovers htoken
      refine ⟨rfl, hmarks.range.1, hmarks.range.2, ?_, hlast⟩
      rintro _ ⟨⟩
      exact hmarks
    | none =>
      obtain ⟨hstart, hstop⟩ := hlast (List.getElem?_eq_none_iff.1 htoken)
      refine ⟨rfl, ?_, hstop.le, by simp, fun _ => ⟨hstart, hstop⟩⟩
      rw [hstart, hstop]
      exact Nat.sub_le _ 1
  · intro e offset herror he
    have herror : l.lexer.tokenize source = .error e := by
      cases htokenize : l.lexer.tokenize source with
      | ok tokens => simp [Language.tokenize, htokenize, Except.mapError] at herror
      | error e' =>
        simp only [Language.tokenize, htokenize, Except.mapError, Except.error.injEq,
          LanguageError.lex.injEq] at herror
        rw [herror]
    obtain ⟨before, after, hsource, hafter, rfl⟩ := Lexer.offset_of_tokenize_eq_error hmake herror he
    have hreport : e.report source =
        .drawn (.ofOffset source (Text.byteLength before) e.message) := by
      cases e with
      | noMatch | stalled =>
        cases he
        rfl
      | _ => cases he
    refine ⟨_, _, hreport, rfl, rfl, ?_, before, after, hsource, ?_, rfl⟩
    · dsimp only
      rw [hsource, Text.charIndex_byteLength, ← String.length_toList, hsource, List.length_append]
      exact Nat.add_le_add_left (List.length_pos_iff.2 hafter) _
    · dsimp only
      rw [hsource, Text.charIndex_byteLength]

/-- A sign after a letter of two bytes is marked, and so is that letter inside of a tag. -/
theorem report_in_text_accented :
    Lexer.make Xml.states = .ok Language.xml.lexer ∧
    (∃ tokens d label, Language.xml.tokenize "é<a" = .ok tokens ∧
      (ParseError.noMatch [⟨.unexpectedToken "</" 1, 1, [], "a closing tag"⟩]).report "é<a" tokens =
        .drawn d ∧
      d.labels = [label] ∧ label.Marks "é<a".toList ⟨2, 3⟩) ∧
    ∃ e d label, Language.xml.tokenize "<é" = .error (.lex e) ∧ e.offset? = some 1 ∧
      e.report "<é" = .drawn d ∧ d.labels = [label] ∧ label.stop = label.start + 1 ∧
      ∃ before after, "<é".toList = before ++ after ∧ label.start = before.length ∧
        1 = Text.byteLength before := by
  have hmake : Lexer.make Xml.states = .ok Language.xml.lexer := by
    simp only [Language.xml]
    unfold Xml.lexer
    exact toOption_eq_some_iff.1 (Option.some_get _).symm
  constructor
  · exact hmake
  constructor
  · have hspans : (Language.xml.tokenize "é<a").toOption.map (List.map (·.span)) =
        some [⟨0, 2⟩, ⟨2, 3⟩, ⟨3, 4⟩] := by decide +kernel
    obtain ⟨tokens, htokens, hspans⟩ := Option.map_eq_some_iff.1 hspans
    rw [toOption_eq_some_iff] at htokens
    obtain ⟨token, htoken, hspan⟩ : ∃ token, tokens[1]? = some token ∧ token.span = ⟨2, 3⟩ := by
      have hsecond := congrArg (·[1]?) hspans
      rw [List.getElem?_map] at hsecond
      exact Option.map_eq_some_iff.1 hsecond
    obtain ⟨d, hreport, hlabels⟩ := (report_in_text hmake "é<a").1 tokens htokens
      [⟨.unexpectedToken "</" 1, 1, [], "a closing tag"⟩]
    obtain ⟨label, _, ⟨-, -, -, hmarks, -⟩, hnil, hlabels⟩ := List.forall₂_cons_left_iff.1 hlabels
    rw [List.forall₂_nil_left_iff.1 hnil] at hlabels
    exact ⟨tokens, d, label, htokens, hreport, hlabels, hspan ▸ hmarks token htoken⟩
  · have herror : (match Language.xml.tokenize "<é" with
        | .error (.lex e) => e.offset?
        | _ => none) = some 1 := by decide +kernel
    split at herror
    · rename_i e he
      obtain ⟨d, label, hreport, hlabels, hstop, -, hplace⟩ :=
        (report_in_text hmake "<é").2 e 1 he herror
      exact ⟨e, d, label, he, herror, hreport, hlabels, hstop, hplace⟩
    · cases herror

end ReversibleGrammar
