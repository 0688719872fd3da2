/-
Formatting a Logic program keeps its tokens, unless it joins two numbers.

White space is printed between words, and no token goes on after its end with a sign, a string or a
comment: all but an integer, which a point and digits make a number with a fraction.  So `1 . 2` is
printed as one number, and a program is printed with its tokens if it holds nothing of the kind.

* `spelling`, `checks_spacing` — which tokens are words, and that the grammar keeps them apart;
* `PointsApart` — no integer stands before a point and a number without a sign;
* `lexes_of_spaced` — tokens with white space between words are made again;
* `logic_reprints` — a program is printed with its tokens, and printed again as it is;
* `point_joins_integers` — `1 . 2` is not.
-/
import ReversibleGrammar.Proofs.Logic.Lexemes
import ReversibleGrammar.Proofs.Logic.Shapes
import ReversibleGrammar.Proofs.Printing.Reprint
import ReversibleGrammar.Proofs.Printing.Spacing

namespace ReversibleGrammar

namespace Logic

open Regex
open CharSet (decimal)

/-! ### Words -/

/-- Keywords, identifiers and numbers are words, and strings and comments are quoted. -/
def spelling : Spelling where
  isWord kind := kind ∈ keywords ++ ["identifier", "float", "integer"]
  quotes kind :=
    if kind = "string" then some ("\"", "\"")
    else if kind = "comment" then some ("/*", "*/")
    else none

/-- The rules after which no word ends: those of comments, of attributes and of generics. -/
def closingRules : List RuleId := [9, 11, 12]

/-- Whether a word may end right after a rule; where one ends, only generics may follow. -/
def ruleEnds (rule : RuleId) (touching : Bool) : Option Bool :=
  if touching then (if rule = 12 then some false else none)
  else some (decide (rule ∉ closingRules))

/-- Whether a word may end right after a pattern. -/
def known : PatternId → Bool → Option Bool := grammar.endsTo? spelling ruleEnds 12

theorem checks_spacing : ((List.range grammar.patterns.size).all fun id =>
      (grammar.pattern? id).all (grammar.checkEnds spelling known id)) = true ∧
    (grammar.rules.toList.all fun rule => (known rule.body false).isSome) = true := by
  rw [known, grammar_eq]
  decide +kernel

theorem checkEnds_grammar (id : PatternId) (p : Pattern) (hp : grammar.pattern? id = some p) :
    grammar.checkEnds spelling known id p = true := by
  have hid : id ∈ List.range grammar.patterns.size := by
    obtain ⟨hlt, -⟩ := Array.getElem?_eq_some_iff.1 hp
    exact List.mem_range.2 hlt
  have hcheck := List.all_eq_true.1 checks_spacing.1 id hid
  rwa [hp, Option.all_some] at hcheck

/-- Every rule may be printed at the start. -/
theorem exists_known_rule {rule : String} {id : PatternId} (h : grammar.rule? rule = some id) :
    ∃ after, known id false = some after := by
  obtain ⟨r, hr, rfl⟩ := Option.map_eq_some_iff.1 h
  have hmem := Array.mem_toList_iff.2 (Array.mem_of_find?_eq_some hr)
  exact Option.isSome_iff_exists.1 (List.all_eq_true.1 checks_spacing.2 r hmem)

/-! ### How tokens are written -/

section

variable {kind : String} {v : LexToken} {c : Char}

/-- The kinds of words that carry a text. -/
def wordKinds : List String := ["identifier", "float", "integer"]

theorem checks_spelling :
    (∀ kind ∈ keywords, (spelling.quotes kind).isNone = true) ∧
      (∀ kind ∈ signs, (spelling.quotes kind).isNone = true ∧ spelling.isWord kind = false) ∧
        ∀ kind ∈ wordKinds, (spelling.quotes kind).isNone = true ∧ spelling.isWord kind = true := by
  decide +kernel

theorem spell_bare (h : (spelling.quotes kind).isNone = true) :
    spelling.spell (.bare kind) = kind.toList := by
  simp only [Spelling.spell, LexToken.bare, Option.isNone_iff_eq_none.1 h]
  rfl

theorem spell_keyword (h : kind ∈ keywords) :
    spelling.spell (.bare kind) = kind.toList ∧ spelling.isWord kind = true :=
  ⟨spell_bare (checks_spelling.1 kind h), by simp [spelling, h]⟩

theorem spell_sign (h : kind ∈ signs) :
    spelling.spell (.bare kind) = kind.toList ∧ spelling.isWord kind = false :=
  ⟨spell_bare (checks_spelling.2.1 kind h).1, (checks_spelling.2.1 kind h).2⟩

theorem spell_string (w : List Char) :
    spelling.spell (.valued "string" (String.ofList w)) = '"' :: w ++ ['"'] := by
  simp [Spelling.spell, spelling, LexToken.valued, LexToken.text]

theorem spell_comment (w : List Char) :
    spelling.spell (.valued "comment" (String.ofList w)) = ['/', '*'] ++ w ++ ['*', '/'] := by
  simp [Spelling.spell, spelling, LexToken.valued, LexToken.text]

theorem spell_word (h : kind ∈ wordKinds) (w : List Char) :
    spelling.spell (.valued kind (String.ofList w)) = w ∧ spelling.isWord kind = true := by
  obtain ⟨hquotes, hword⟩ := checks_spelling.2.2 kind h
  refine ⟨?_, hword⟩
  simp only [Spelling.spell, LexToken.valued, Option.isNone_iff_eq_none.1 hquotes]
  exact String.toList_ofList

theorem not_blank_of_isWord (h : Text.isWord c = true) :
    blankChar.holds c = false ∧ isLineBlank c = false ∧ c ≠ '.' := by
  have hother : c ∉ '-' :: '.' :: openers := by
    intro hmem
    rw [not_isWord_of_mem hmem] at h
    cases h
  simp only [openers, List.mem_cons, List.not_mem_nil, or_false, not_or] at hother
  obtain ⟨-, hpoint, -, -, -, hspace, htab, hnewLine, hreturn⟩ := hother
  refine ⟨?_, ?_, hpoint⟩
  · rw [Bool.eq_false_iff, ne_eq, mem_blankChar]
    simp [hspace, htab, hnewLine, hreturn]
  · simp [isLineBlank, hspace, htab]

/-- A number without a sign. -/
def unsigned (v : LexToken) : Bool :=
  decide (v.kind ∈ ["float", "integer"]) && v.text.toList.head?.any Char.isDigit

theorem unsigned_valued (h : kind ∈ ["float", "integer"]) (hc : decimal.holds c = true)
    (w : List Char) : unsigned (.valued kind (String.ofList (c :: w))) = true := by
  have hdigit : c.isDigit = true := (CharSet.holds_decimal c).symm.trans hc
  have htext : (LexToken.valued kind (String.ofList (c :: w))).text.toList = c :: w :=
    String.toList_ofList
  rw [unsigned, htext, List.head?_cons, Option.any_some, hdigit, Bool.and_true]
  exact decide_eq_true h

/-- What the first character of a token says about it. -/
structure First (v : LexToken) (c : Char) : Prop where
  solid : blankChar.holds c = false
  word : spelling.isWord v.kind = false → Text.isWord c = false
  point : c = '.' → v = .bare "."
  digit : decimal.holds c = true → unsigned v = true

/-- The first character of a number. -/
theorem exists_first_of_number (h : kind ∈ ["float", "integer"]) {w : List Char}
    (hw : IsInteger w) (w' : List Char) :
    ∃ c cs, w ++ w' = c :: cs ∧ First (.valued kind (String.ofList (w ++ w'))) c := by
  have hword : spelling.isWord kind = true := (spell_word (List.mem_cons_of_mem _ h) []).2
  have hwords {v : LexToken} (hv : v.kind = kind) (c : Char) :
      spelling.isWord v.kind = false → Text.isWord c = false := by
    rw [hv, hword]
    exact nofun
  rcases exists_first_of_isInteger hw with ⟨c, w, rfl, hc⟩ | ⟨c, d, w, rfl, hc, -⟩
  · obtain ⟨hblank, -, hpoint⟩ := not_blank_of_isWord (isWord_of_decimal hc)
    exact ⟨c, w ++ w', rfl, hblank, hwords rfl c, fun h => absurd h hpoint,
      fun _ => unsigned_valued h hc (w ++ w')⟩
  · refine ⟨c, d :: w ++ w', rfl, ?_, hwords rfl c, fun hpoint => ?_, fun hdigit => ?_⟩
    all_goals
      simp only [List.mem_cons, List.not_mem_nil, or_false] at hc
      rcases hc with rfl | rfl
    · decide
    · decide
    · cases hpoint
    · cases hpoint
    · exact absurd hdigit (by decide)
    · exact absurd hdigit (by decide)

theorem Lexeme.exists_first (h : Lexeme v) : ∃ c cs, spelling.spell v = c :: cs ∧ First v c := by
  have hstart {c : Char} (hc : startChar.holds c = true) {v : LexToken}
      (hword : spelling.isWord v.kind = true) : First v c := by
    obtain ⟨hblank, -, hpoint⟩ := not_blank_of_isWord (isWord_of_startChar hc)
    refine ⟨hblank, fun h => ?_, fun h => absurd h hpoint, fun hdigit => ?_⟩
    · rw [hword] at h
      cases h
    · rw [not_startChar_of_decimal hdigit] at hc
      cases hc
  cases h with
  | @keyword kind hkind =>
    obtain ⟨c, cs, hcons, hc, -⟩ := exists_of_keyword hkind
    exact ⟨c, cs, (spell_keyword hkind).1.trans hcons, hstart hc (spell_keyword hkind).2⟩
  | @sign kind hkind =>
    obtain ⟨c, cs, hcons, hword, hopeners, -, hdistinct⟩ := exists_of_sign hkind
    have hblank : blankChar.holds c = false := by
      rw [Bool.eq_false_iff, ne_eq, mem_blankChar]
      intro hmem
      exact hopeners c List.mem_cons_self (List.mem_of_mem_drop (i := 3) hmem)
    refine ⟨c, cs, (spell_sign hkind).1.trans hcons, hblank, fun _ => hword, ?_, fun hdigit => ?_⟩
    · rintro rfl
      rw [← hdistinct "." (by decide) rfl]
    · rw [isWord_of_decimal hdigit] at hword
      cases hword
  | @identifier w hhead hw =>
    obtain ⟨c, hhead, hc⟩ := (Option.any_eq_true _ _).1 hhead
    obtain ⟨cs, rfl⟩ := List.head?_eq_some_iff.1 hhead
    obtain ⟨hspell, hword⟩ := spell_word (show "identifier" ∈ wordKinds by decide) (c :: cs)
    exact ⟨c, cs, hspell, hstart hc hword⟩
  | @string w =>
    exact ⟨'"', w ++ ['"'], spell_string w, by decide, fun _ => not_isWord_of_mem (by decide), nofun,
      fun h => absurd h (by decide)⟩
  | @float w ds hw =>
    obtain ⟨c, cs, hcons, hfirst⟩ :=
      exists_first_of_number (show "float" ∈ ["float", "integer"] by decide) hw ('.' :: ds)
    exact ⟨c, cs, (spell_word (by decide) _).1.trans hcons, hfirst⟩
  | @integer w hw =>
    obtain ⟨c, cs, hcons, hfirst⟩ :=
      exists_first_of_number (show "integer" ∈ ["float", "integer"] by decide) hw []
    rw [List.append_nil] at hcons hfirst
    exact ⟨c, cs, (spell_word (by decide) _).1.trans hcons, hfirst⟩
  | @comment w =>
    exact ⟨'/', '*' :: w ++ ['*', '/'], spell_comment w, by decide,
      fun _ => not_isWord_of_mem (by decide), nofun, fun h => absurd h (by decide)⟩

theorem firm_of_append {w ds : List Char} (hspell : spelling.spell v = w ++ ds) (hne : ds ≠ [])
    (hds : ∀ c ∈ ds, isLineBlank c = false) : spelling.Firm v := by
  refine ⟨ds.getLast hne, ?_, hds _ (List.getLast_mem hne)⟩
  rw [hspell, List.getLast?_append_of_ne_nil _ hne, List.getLast?_eq_getLast_of_ne_nil hne]

theorem Lexeme.firm (h : Lexeme v) : spelling.Firm v := by
  have hdecimal {ds : List Char} (hds : ∀ c ∈ ds, decimal.holds c = true) :
      ∀ c ∈ ds, isLineBlank c = false := fun c hc =>
    (not_blank_of_isWord (isWord_of_decimal (hds c hc))).2.1
  cases h with
  | @keyword kind hkind =>
    obtain ⟨c, cs, hcons, -, hwords⟩ := exists_of_keyword hkind
    exact firm_of_append (w := []) ((spell_keyword hkind).1.trans hcons) (List.cons_ne_nil c cs)
      fun d hd => (not_blank_of_isWord (hwords d (hcons ▸ hd))).2.1
  | @sign kind hkind =>
    obtain ⟨c, cs, hcons, -, hopeners, -⟩ := exists_of_sign hkind
    refine firm_of_append (w := []) ((spell_sign hkind).1.trans hcons) (List.cons_ne_nil c cs)
      fun d hd => ?_
    have hd := hopeners d hd
    simp only [openers, List.mem_cons, List.not_mem_nil, or_false, not_or] at hd
    simp [isLineBlank, hd]
  | @identifier w hhead hw =>
    refine firm_of_append (w := []) (spell_word (by decide) w).1 ?_ fun c hc => ?_
    · rintro rfl
      cases hhead
    · exact (not_blank_of_isWord (isWord_of_partChar (hw c hc))).2.1
  | @string w =>
    exact firm_of_append (spell_string w) (List.cons_ne_nil _ _) (by simp [isLineBlank])
  | @float w ds hw hne hds =>
    refine firm_of_append (w := w ++ ['.']) ?_ hne (hdecimal hds)
    rw [(spell_word (by decide) _).1, List.append_assoc]
    rfl
  | @integer w hw =>
    obtain ⟨sign, ds, rfl, -, hne, hds⟩ := hw
    exact firm_of_append (spell_word (by decide) _).1 hne (hdecimal hds)
  | @comment w =>
    exact firm_of_append (spell_comment w) (List.cons_ne_nil _ _) (by simp [isLineBlank])

end

/-! ### Tokens with white space between words -/

/-- No integer stands before a point and a number without a sign. -/
def PointsApart : List LexToken → Prop
  | t :: u :: v :: tokens =>
    ¬ (t.kind = "integer" ∧ u.kind = "." ∧ unsigned v = true) ∧ PointsApart (u :: v :: tokens)
  | _ => True

instance decidablePointsApart : (tokens : List LexToken) → Decidable (PointsApart tokens)
  | _ :: u :: v :: tokens =>
    have := decidablePointsApart (u :: v :: tokens)
    inferInstanceAs (Decidable (_ ∧ _))
  | [] | [_] | [_, _] => isTrue trivial

theorem PointsApart.tail {t : LexToken} {tokens : List LexToken} (h : PointsApart (t :: tokens)) :
    PointsApart tokens :=
  match tokens, h with
  | _ :: _ :: _, h => h.2
  | [], _ | [_], _ => trivial

/-- Places do not matter. -/
theorem pointsApart_detach :
    (tokens : List LexToken) → (PointsApart (tokens.map LexToken.detach) ↔ PointsApart tokens)
  | _ :: u :: v :: tokens => and_congr Iff.rfl (pointsApart_detach (u :: v :: tokens))
  | [] | [_] | [_, _] => Iff.rfl

section

variable {starts : Bool} {tokens : List LexToken} {cs : List Char}

/-- After a blank or the end, and before what is no word, no word goes on. -/
theorem not_isWord_of_spaced (h : Spaced spelling starts tokens cs)
    (hlexemes : ∀ t ∈ tokens, Lexeme t.detach) (hstarts : starts = false) :
    cs.head?.any Text.isWord = false := by
  cases h with
  | nil => rfl
  | @blank _ _ _ c hc =>
    rw [List.head?_cons, Option.any_some]
    rcases hc with hc | rfl
    · by_contra hword
      rw [(not_blank_of_isWord (eq_true_of_ne_false hword)).2.1] at hc
      cases hc
    · exact not_isWord_of_mem (by decide)
  | @token _ _ _ v =>
    obtain ⟨c, cs, hspell, hfirst⟩ := (hlexemes v List.mem_cons_self).exists_first
    rw [show spelling.spell v = c :: cs from hspell, List.cons_append, List.head?_cons,
      Option.any_some]
    exact hfirst.word hstarts

/-- What starts with a digit is a number without a sign. -/
theorem unsigned_of_spaced (h : Spaced spelling starts tokens cs)
    (hlexemes : ∀ t ∈ tokens, Lexeme t.detach) (hdigit : cs.head?.any decimal.holds = true) :
    ∃ v tokens', tokens = v :: tokens' ∧ unsigned v = true := by
  cases h with
  | nil => cases hdigit
  | @blank _ _ _ c hc =>
    rw [List.head?_cons, Option.any_some] at hdigit
    rcases hc with hc | rfl
    · rw [(not_blank_of_isWord (isWord_of_decimal hdigit)).2.1] at hc
      cases hc
    · exact absurd hdigit (by decide)
  | @token _ tokens _ v =>
    obtain ⟨c, cs, hspell, hfirst⟩ := (hlexemes v List.mem_cons_self).exists_first
    rw [show spelling.spell v = c :: cs from hspell, List.cons_append, List.head?_cons,
      Option.any_some] at hdigit
    exact ⟨v, tokens, rfl, hfirst.digit hdigit⟩

/-- What starts with a point is a point, and what comes after it. -/
theorem point_of_spaced (h : Spaced spelling starts tokens cs)
    (hlexemes : ∀ t ∈ tokens, Lexeme t.detach) (hpoint : cs.head? = some '.') :
    ∃ u tokens' starts', tokens = u :: tokens' ∧ u.kind = "." ∧
      Spaced spelling starts' tokens' cs.tail := by
  cases h with
  | nil => cases hpoint
  | @blank _ _ _ c hc =>
    obtain rfl : c = '.' := Option.some.inj hpoint
    exact absurd hc (by simp [Doc.IsBreak, isLineBlank])
  | @token starts tokens cs v _ h =>
    obtain ⟨c, cs', hspell, hfirst⟩ := (hlexemes v List.mem_cons_self).exists_first
    have hspell : spelling.spell v = c :: cs' := hspell
    rw [hspell, List.cons_append, List.head?_cons] at hpoint
    obtain rfl := Option.some.inj hpoint
    have hdetach : v.detach = .bare "." := hfirst.point rfl
    have hpointSpell : spelling.spell v = ['.'] := by
      rw [show spelling.spell v = spelling.spell v.detach from rfl, hdetach,
        (spell_sign (by decide)).1]
      rfl
    refine ⟨v, tokens, starts, rfl, congrArg LexToken.kind hdetach, ?_⟩
    rw [hpointSpell]
    exact h

/-- A token is made again, where no word goes on after a word and no fraction after an integer. -/
theorem Lexeme.lexes {v : LexToken} (h : Lexeme v) {rest : List Char}
    (hword : spelling.isWord v.kind = true → rest.head?.any Text.isWord = false)
    (hpoint : v.kind = "integer" → rest.head? = some '.' →
      rest.tail.head?.any decimal.holds = false) :
    lexer.Lexes 0 (spelling.spell v ++ rest) [v] 0 rest := by
  have hnext (kind : String) (hkind : kind ∈ wordKinds) (hv : v.kind = kind) :
      rest.head?.any Text.isWord = false :=
    hword (hv ▸ (spell_word hkind []).2)
  cases h with
  | @keyword kind hkind =>
    rw [(spell_keyword hkind).1]
    exact lexes_keyword hkind (hword (spell_keyword hkind).2)
  | @sign kind hkind =>
    rw [(spell_sign hkind).1]
    exact lexes_sign hkind rest
  | @identifier w hstart hw hnew =>
    rw [(spell_word (by decide) _).1]
    exact lexes_identifier hstart hw hnew (hnext "identifier" (by decide) rfl)
  | @string w hw =>
    rw [spell_string, List.append_assoc]
    exact lexes_string hw rest
  | @float w ds hw hne hds =>
    rw [(spell_word (by decide) _).1]
    exact lexes_float hw hne hds (hnext "float" (by decide) rfl)
  | @integer w hw =>
    rw [(spell_word (by decide) _).1]
    exact lexes_integer hw (hnext "integer" (by decide) rfl) (hpoint rfl)
  | @comment w hw hfirst =>
    rw [spell_comment]
    exact lexes_comment hw hfirst rest

/-- Tokens with white space between words are made again, from where the first one starts. -/
theorem lexes_of_spaced (h : Spaced spelling starts tokens cs)
    (hlexemes : ∀ t ∈ tokens, Lexeme t.detach) (hpoints : PointsApart tokens) :
    lexer.Lexes 0 (cs.dropWhile blankChar.holds) (tokens.map LexToken.detach) 0 [] := by
  induction h with
  | nil => exact lexer.lexes_nil 0 []
  | @blank _ _ _ c hc _ ih =>
    have hblank : blankChar.holds c = true := by
      rw [mem_blankChar]
      rcases hc with hc | rfl
      · simp only [isLineBlank, Bool.or_eq_true, decide_eq_true_eq] at hc
        rcases hc with rfl | rfl <;> decide
      · decide
    rw [List.dropWhile_cons_of_pos hblank]
    exact ih hlexemes hpoints
  | @token starts tokens cs v hapart h ih =>
    obtain ⟨hlexeme, hlexemes⟩ := List.forall_mem_cons.1 hlexemes
    obtain ⟨c, ds, hspell, hfirst⟩ := hlexeme.exists_first
    have hspell : spelling.spell v = c :: ds := hspell
    have hdrop : (spelling.spell v ++ cs).dropWhile blankChar.holds = spelling.spell v ++ cs := by
      rw [hspell, List.cons_append, List.dropWhile_cons_of_neg (by simp [hfirst.solid])]
    have hv : lexer.Lexes 0 (spelling.spell v ++ cs) [v.detach] 0 cs := by
      refine hlexeme.lexes (fun hword => not_isWord_of_spaced h hlexemes (hapart hword))
        fun hkind hpoint => ?_
      by_contra hdigit
      obtain ⟨u, tokens', starts', rfl, hu, hnext⟩ := point_of_spaced h hlexemes hpoint
      obtain ⟨w, tokens'', rfl, hw⟩ := unsigned_of_spaced hnext
        (List.forall_mem_cons.1 hlexemes).2 (eq_true_of_ne_false hdigit)
      exact hpoints.1 ⟨hkind, hu, hw⟩
    rw [hdrop, List.map_cons]
    exact hv.append ((lexes_blanks cs).append (ih hlexemes hpoints.tail))

end

/-! ### Prints -/

theorem spelledLeaves_of_derives {tokens : Array LexToken}
    (htokens : ∀ token ∈ tokens, Lexeme token.detach) {t : Tree LexToken} {id : PatternId}
    {i j : Nat} (h : t.Derives grammar tokens id i j) : SpelledLeaves spelling t := by
  intro l hl
  obtain ⟨hkind, hmem⟩ := kind_of_mem_leaves h l hl
  exact ⟨hkind, (htokens l.2 hmem).firm⟩

theorem placeFree_logic (config : ParserConfig) (layout : PrintConfig) :
    { Language.logic with parserConfig := config, printConfig := layout }.PlaceFree := by
  intro token
  simp only [Language.logic, Lexer.codec, tokenCodec]
  rfl

/-- The print of a tree makes the tokens that the tree was parsed from. -/
theorem tokenizeDetached_print (layout : PrintConfig) {rule : String} {id : PatternId}
    (hid : grammar.rule? rule = some id) {tokens : List LexToken} {source : String}
    (htokens : lexer.tokenize source = .ok tokens) (hpoints : PointsApart tokens)
    {config : ParserConfig} {t : Tree LexToken}
    (h : parseOne grammar config id tokens.toArray = .ok t) :
    lexer.tokenizeDetached (t.print layout) = .ok (tokens.map LexToken.detach) := by
  have hlexemes := lexemes_of_tokenize htokens
  have hsize := closed_grammar.lt_size_of_rule? hid
  have hderives := (covers_of_parseOne closed_grammar distinctLabels_grammar hsize h).derives
  have hvalues : t.values = tokens :=
    (values_of_parseOne closed_grammar hsize h).1.trans (List.map_id _)
  have hleaves : SpelledLeaves spelling t :=
    spelledLeaves_of_derives (by simpa using hlexemes) hderives
  obtain ⟨after, hafter⟩ := exists_known_rule hid
  obtain ⟨starts, hspaced⟩ := exists_spaced_print checkEnds_grammar hleaves
    (Tree.fits_of_derives hderives) hafter layout
  rw [hvalues] at hspaced
  exact Lexer.Lexes.tokenizeDetached_eq
    ((lexes_blanks _).append (lexes_of_spaced hspaced hlexemes hpoints))

end Logic

/-- A program is printed with the tokens of its source, unless an integer stands before a point and
a number without a sign.  The print has the same tree and the same shape, and is printed again as it
is. -/
theorem logic_reprints {config : ParserConfig} {layout : PrintConfig} {rule source : String}
    {tokens : List LexToken} (htokens : Language.logic.tokenizeDetached source = .ok tokens)
    (hpoints : Logic.PointsApart tokens) {t : Tree LexToken}
    (h : { Language.logic with parserConfig := config, printConfig := layout }.parse rule source =
      .ok t) :
    { Language.logic with parserConfig := config, printConfig := layout }.Reprints rule source t := by
  refine Language.reprints_of_tokens_eq (Logic.placeFree_logic config layout) h ?_
  obtain ⟨id, placed, hid, hplaced, hparse⟩ := Language.parse_eq_ok_iff.1 h
  simp only [Language.logic] at hid hplaced hparse
  simp only [Language.tokenizeDetached, Language.logic, mapError_eq_ok_iff,
    Lexer.tokenizeDetached_eq, hplaced, Except.map, Except.ok.injEq] at htokens
  subst htokens
  have hprint := Logic.tokenizeDetached_print layout hid hplaced
    ((Logic.pointsApart_detach placed).1 hpoints) hparse
  have hsource : Logic.lexer.tokenizeDetached source = .ok (placed.map LexToken.detach) := by
    rw [Lexer.tokenizeDetached_eq, hplaced]
    rfl
  simp only [Language.tokenizeDetached, Language.print, Language.logic]
  rw [hprint, hsource]

/-- An integer before a point and a number with a sign, in lines of one column. -/
theorem logic_reprints_signed :
    let logic : Language :=
      { Language.logic with parserConfig := ⟨3, 1000⟩, printConfig := ⟨1, 2, false⟩ }
    let source := "1 . +2"
    ∃ t, logic.parse "memberExpression" source = .ok t ∧
      logic.Reprints "memberExpression" source t := by
  intro logic source
  have hrun : ((Language.logic.tokenizeDetached source >>= fun tokens =>
      (logic.parse "memberExpression" source).map fun t => (tokens, t)).map
        fun run => decide (Logic.PointsApart run.1)).toOption = some true := by
    simp only [logic, Language.logic]
    rw [Logic.lexer_eq, Logic.grammar_eq]
    decide +kernel
  obtain ⟨run, hrun, hpoints⟩ := exists_ok_of_toOption_map hrun
  obtain ⟨tokens, htokens, hrun⟩ := bind_eq_ok_iff.1 hrun
  obtain ⟨t, ht, rfl⟩ := map_eq_ok_iff.1 hrun
  exact ⟨t, ht, logic_reprints htokens (of_decide_eq_true hpoints) ht⟩

/-- An integer before a point and a number without a sign is printed as one number, which has other
tokens and is no member of anything. -/
theorem point_joins_integers :
    let logic : Language := { Language.logic with parserConfig := ⟨3, 1000⟩ }
    let source := "1 . 2"
    ∃ t, logic.parse "memberExpression" source = .ok t ∧ logic.print t = "1.2" ∧
      logic.tokenizeDetached (logic.print t) = .ok [.valued "float" "1.2"] ∧
      logic.tokenizeDetached source =
        .ok [.valued "integer" "1", .bare ".", .valued "integer" "2"] ∧
      (logic.parse "memberExpression" (logic.print t)).isOk = false := by
  intro logic source
  have hrun : ((logic.parse "memberExpression" source).map fun t =>
      (logic.print t, (logic.tokenizeDetached (logic.print t)).toOption,
        (logic.tokenizeDetached source).toOption,
        (logic.parse "memberExpression" (logic.print t)).isOk)).toOption =
      some ("1.2", some [.valued "float" "1.2"],
        some [.valued "integer" "1", .bare ".", .valued "integer" "2"], false) := by
    simp only [logic, Language.logic]
    rw [Logic.lexer_eq, Logic.grammar_eq]
    decide +kernel
  obtain ⟨t, ht, hrun⟩ := exists_ok_of_toOption_map hrun
  simp only [Prod.mk.injEq, toOption_eq_some_iff] at hrun
  exact ⟨t, ht, hrun⟩

end ReversibleGrammar
