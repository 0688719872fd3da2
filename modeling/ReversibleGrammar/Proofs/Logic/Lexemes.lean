/-
The tokens of Logic programs.

A token is a word, which is a keyword, an identifier or a number, or a sign, a string or a comment.  A
word goes as far as it can, and what the tokens hold, they can be made of again where no word goes on
after it.  An identifier is no keyword: it would have to be followed by a word character that no
identifier holds, and there no token starts.

* `lexer_eq` — the rules of the lexer, with their expressions;
* `Lexeme`, `lexemes_of_tokenize` — tokens as the lexer makes them;
* `lexes_keyword`, `lexes_sign`, `lexes_identifier` and so on — what makes each of them.
-/
import ReversibleGrammar.Language.Logic
import ReversibleGrammar.Proofs.Lexing.Numbers
import ReversibleGrammar.Proofs.Lexing.Scan

namespace ReversibleGrammar

namespace Logic

open Regex
open CharSet (among decimal holds_among holds_single_comm)

/-! ### The rules -/

/-- The characters that start an identifier. -/
def startChar : CharSet := among [.single '_', .range 'a' 'z', .range 'A' 'Z']

/-- The characters of identifiers. -/
def partChar : CharSet := among [.single '_', .range 'a' 'z', .range 'A' 'Z', .range '0' '9']

/-- The characters of strings. -/
def quotedChar : CharSet := .complement (among [.single '"'])

/-- The characters of comments: all of them. -/
def anyChar : CharSet := among [.complement .space, .space]

def blankChar : CharSet := among [.single ' ', .single '\t', .single '\n', .single '\r']

def keywordRule (word : String) : CompiledRule :=
  ⟨.keyword word, (concat (text word.toList) (assert .wordBoundary)).anchored, 0, none⟩

def signRule (sign : String) : CompiledRule := ⟨.literal sign, (text sign.toList).anchored, 0, none⟩

def identifierRule : CompiledRule :=
  ⟨.make "identifier" "([_a-zA-Z][_a-zA-Z0-9]*)",
    (concat empty (group 1 (concat (concat empty (.set startChar))
      (loop (.set partChar) 0 none true)))).anchored, 1, none⟩

def stringRule : CompiledRule :=
  ⟨.make "string" "\"([^\"]*)\"",
    (between ['"'] (loop (.set quotedChar) 0 none true) ['"']).anchored, 1, none⟩

def floatRule : CompiledRule :=
  ⟨.make "float" "((?:\\+|-)?[0-9]+\\.[0-9]+)", (concat empty (group 1 float)).anchored, 1, none⟩

def integerRule : CompiledRule :=
  ⟨.make "integer" "((?:\\+|-)?[0-9]+)", (concat empty (group 1 integer)).anchored, 1, none⟩

def commentRule : CompiledRule :=
  ⟨.make "comment" "/\\*([\\S\\s]*?)\\*/",
    (between ['/', '*'] (loop (.set anyChar) 0 none false) ['*', '/']).anchored, 1, none⟩

def blankRule : CompiledRule :=
  ⟨(TokenRule.make "whitespace" "[ \\t\\n\\r]+").discarded,
    (concat empty (loop (.set blankChar) 1 none true)).anchored, 0, none⟩

/-- The rules after those of keywords and signs. -/
def otherRules : List CompiledRule :=
  [identifierRule, stringRule, floatRule, integerRule, commentRule, blankRule]

/-- All rules, in the order in which they are tried. -/
def mainRules : List CompiledRule :=
  keywords.map keywordRule ++ signs.map signRule ++ otherRules

deriving instance DecidableEq for CompiledRule, CompiledState, Lexer

theorem lexer_eq : lexer = ⟨#[⟨"main", mainRules⟩]⟩ := by decide +kernel

theorem state_main : lexer.states[0]? = some ⟨"main", mainRules⟩ := by
  rw [lexer_eq]
  rfl

/-! ### Characters -/

theorem ascii_of_partChar {c : Char} (h : partChar.holds c = true) : c.toNat < 128 := by
  simp only [partChar, holds_among, List.any_cons, List.any_nil, Bool.or_false, CharSet.single,
    CharSet.holds, Bool.or_eq_true, Bool.and_eq_true, decide_eq_true_eq, Char.le_def,
    UInt32.le_iff_toNat_le] at h
  have hunderscore : ('_').val.toNat < 128 := by decide
  have hz : ('z').val.toNat < 128 := by decide
  have hZ : ('Z').val.toNat < 128 := by decide
  have hnine : ('9').val.toNat < 128 := by decide
  have hc : c.toNat = c.val.toNat := rfl
  omega

theorem checks_ascii : ((List.range 128).all fun n =>
    (!partChar.holds (Char.ofNat n) || Text.isWord (Char.ofNat n)) &&
      (!decimal.holds (Char.ofNat n) || !startChar.holds (Char.ofNat n))) = true := by
  decide +kernel

theorem check_of_partChar {c : Char} (h : partChar.holds c = true) :
    Text.isWord c = true ∧ (decimal.holds c = true → startChar.holds c = false) := by
  have hcheck := List.all_eq_true.1 checks_ascii c.toNat (List.mem_range.2 (ascii_of_partChar h))
  have hboth : Text.isWord c = true ∧ (decimal.holds c = false ∨ startChar.holds c = false) := by
    simpa [Char.ofNat_toNat, h] using hcheck
  exact ⟨hboth.1, fun hdecimal => hboth.2.resolve_left fun hnot => by simp [hdecimal] at hnot⟩

theorem isWord_of_partChar {c : Char} (h : partChar.holds c = true) : Text.isWord c = true :=
  (check_of_partChar h).1

theorem partChar_of_startChar {c : Char} (h : startChar.holds c = true) :
    partChar.holds c = true := by
  simp only [startChar, partChar, holds_among, List.any_cons, Bool.or_eq_true] at h ⊢
  tauto

theorem partChar_of_decimal {c : Char} (h : decimal.holds c = true) : partChar.holds c = true := by
  simp only [decimal, partChar, holds_among, List.any_cons, Bool.or_eq_true] at h ⊢
  tauto

theorem not_startChar_of_decimal {c : Char} (h : decimal.holds c = true) :
    startChar.holds c = false :=
  (check_of_partChar (partChar_of_decimal h)).2 h

theorem isWord_of_startChar {c : Char} (h : startChar.holds c = true) : Text.isWord c = true :=
  isWord_of_partChar (partChar_of_startChar h)

theorem isWord_of_decimal {c : Char} (h : decimal.holds c = true) : Text.isWord c = true :=
  isWord_of_partChar (partChar_of_decimal h)

/-- The blanks, and what starts a string, a comment or a number with a sign, but for `-`. -/
def openers : List Char := ['"', '/', '+', ' ', '\t', '\n', '\r']

theorem not_isWord_of_mem {c : Char} (h : c ∈ '-' :: '.' :: openers) : Text.isWord c = false := by
  have hall : (('-' :: '.' :: openers).all fun c => decide (c.toNat < 0x30)) = true := rfl
  exact if_pos (of_decide_eq_true (List.all_eq_true.1 hall c h))

theorem mem_blankChar {c : Char} :
    blankChar.holds c = true ↔ c ∈ [' ', '\t', '\n', '\r'] := by
  simp [blankChar, holds_among, holds_single_comm]

/-! ### Keywords and signs -/

/-- A keyword starts like an identifier, and is a word. -/
def checkKeyword (word : String) : Bool :=
  word.toList.head?.any startChar.holds && word.toList.all Text.isWord

/-- A sign starts with no word character, and unlike every other sign. -/
def checkSign (sign : String) : Bool :=
  match sign.toList with
  | [] => false
  | c :: cs => !Text.isWord c && (c :: cs).all (fun d => decide (d ∉ openers)) &&
    (c != '-' || cs == ['>']) &&
      signs.all fun other => other.toList.head? != some c || other == sign

theorem checks_words : (keywords.all checkKeyword && signs.all checkSign) = true := by
  decide +kernel

theorem exists_of_keyword {word : String} (h : word ∈ keywords) :
    ∃ c cs, word.toList = c :: cs ∧ startChar.holds c = true ∧
      ∀ d ∈ word.toList, Text.isWord d = true := by
  have hcheck := List.all_eq_true.1 (Bool.and_eq_true_iff.1 checks_words).1 word h
  obtain ⟨hstart, hword⟩ := Bool.and_eq_true_iff.1 hcheck
  obtain ⟨c, hhead, hc⟩ := (Option.any_eq_true _ _).1 hstart
  obtain ⟨cs, hcons⟩ := List.head?_eq_some_iff.1 hhead
  exact ⟨c, cs, hcons, hc, List.all_eq_true.1 hword⟩

/-- Only an arrow starts like a number, and it does not go on like one. -/
theorem exists_of_sign {sign : String} (h : sign ∈ signs) :
    ∃ c cs, sign.toList = c :: cs ∧ Text.isWord c = false ∧ (∀ d ∈ c :: cs, d ∉ openers) ∧
      (c = '-' → cs = ['>']) ∧
        ∀ other ∈ signs, other.toList.head? = some c → other = sign := by
  have hcheck := List.all_eq_true.1 (Bool.and_eq_true_iff.1 checks_words).2 sign h
  unfold checkSign at hcheck
  split at hcheck
  · cases hcheck
  · rename_i c cs hcons
    simp only [Bool.and_eq_true, Bool.not_eq_true', Bool.or_eq_true, bne_iff_ne, beq_iff_eq,
      List.all_eq_true, decide_eq_true_eq] at hcheck
    obtain ⟨⟨⟨hword, hopeners⟩, harrow⟩, hothers⟩ := hcheck
    exact ⟨c, cs, hcons, hword, hopeners, fun hc => harrow.resolve_left fun hne => hne hc,
      fun other hother hhead => (hothers other hother).resolve_left fun hne => hne hhead⟩

theorem not_isWord_startChar {c : Char} (h : Text.isWord c = false) : startChar.holds c = false := by
  by_contra hstart
  rw [isWord_of_startChar (eq_true_of_ne_false hstart)] at h
  cases h

/-! ### Matches of the rules -/

section

variable {cs rest w : List Char} {c : Char} {word sign : String}

theorem search?_keywordRule (hword : word ∈ keywords) (cs : List Char) :
    (keywordRule word).regex.search? (keywordRule word).groups cs =
      if cs.takeWhile Text.isWord = word.toList then some ⟨word.toList.length, []⟩ else none := by
  obtain ⟨c, ds, hcons, -, hwords⟩ := exists_of_keyword hword
  exact search?_keyword (hcons ▸ List.cons_ne_nil c ds) hwords cs

theorem search?_signRule (sign : String) (cs : List Char) :
    (signRule sign).regex.search? (signRule sign).groups cs =
      if sign.toList.isPrefixOf cs then some ⟨sign.toList.length, []⟩ else none :=
  search?_text sign.toList cs

theorem search?_identifierRule (cs : List Char) :
    identifierRule.regex.search? identifierRule.groups cs =
      if cs.head?.any startChar.holds then
        some ⟨(cs.takeWhile partChar.holds).length,
          [String.ofList (cs.takeWhile partChar.holds)]⟩
      else none :=
  search?_name (fun _ => partChar_of_startChar) cs

theorem search?_blankRule (cs : List Char) :
    blankRule.regex.search? blankRule.groups cs =
      if cs.takeWhile blankChar.holds = [] then none
      else some ⟨(cs.takeWhile blankChar.holds).length, []⟩ :=
  search?_blanks blankChar cs

theorem identifierRule_eq_none (h : startChar.holds c = false) (cs : List Char) :
    identifierRule.regex.search? identifierRule.groups (c :: cs) = none := by
  rw [search?_identifierRule, List.head?_cons, Option.any_some, h]
  rfl

theorem stringRule_eq_none (h : c ≠ '"') (cs : List Char) :
    stringRule.regex.search? stringRule.groups (c :: cs) = none :=
  search?_between_eq_none fun hbegins => h (List.cons_prefix_cons.1 hbegins).1.symm

theorem commentRule_eq_none (h : c ≠ '/') (cs : List Char) :
    commentRule.regex.search? commentRule.groups (c :: cs) = none :=
  search?_between_eq_none fun hbegins => h (List.cons_prefix_cons.1 hbegins).1.symm

theorem floatRule_eq_none (h : numeral cs = []) :
    floatRule.regex.search? floatRule.groups cs = none :=
  search?_float_eq_none h

theorem integerRule_eq_none (h : numeral cs = []) :
    integerRule.regex.search? integerRule.groups cs = none :=
  search?_integer_eq_none h

theorem blankRule_eq_none (h : blankChar.holds c = false) (cs : List Char) :
    blankRule.regex.search? blankRule.groups (c :: cs) = none := by
  rw [search?_blankRule, List.takeWhile_cons_of_neg (by simp [h]), if_pos rfl]

/-! ### The first match -/

open Lexer

theorem firstMatch?_keyword (hword : word ∈ keywords)
    (h : cs.takeWhile Text.isWord = word.toList) :
    firstMatch? mainRules cs = some (keywordRule word, ⟨word.toList.length, []⟩) := by
  obtain ⟨before, after, hsplit, hnew⟩ := List.eq_append_cons_of_mem hword
  have hrules : mainRules = before.map keywordRule ++ keywordRule word ::
      (after.map keywordRule ++ signs.map signRule ++ otherRules) := by
    rw [mainRules, hsplit]
    simp
  rw [hrules]
  refine firstMatch?_append (fun r hr => ?_) ?_ _
  · obtain ⟨other, hother, rfl⟩ := List.mem_map.1 hr
    have hne : cs.takeWhile Text.isWord ≠ other.toList := by
      rw [h]
      exact fun heq => hnew (String.toList_inj.1 heq ▸ hother)
    rw [search?_keywordRule (hsplit ▸ List.mem_append_left _ hother), if_neg hne]
  · rw [search?_keywordRule hword, if_pos h]

/-- Where no keyword ends, its rule does not match. -/
theorem firstMatch?_of_not_keyword
    (h : ∀ word ∈ keywords, cs.takeWhile Text.isWord ≠ word.toList) :
    firstMatch? mainRules cs = firstMatch? (signs.map signRule ++ otherRules) cs := by
  have hnone : firstMatch? (keywords.map keywordRule) cs = none := by
    rw [firstMatch?, List.findSome?_eq_none_iff]
    intro r hr
    obtain ⟨word, hword, rfl⟩ := List.mem_map.1 hr
    rw [search?_keywordRule hword, if_neg (h word hword)]
    rfl
  rw [firstMatch?] at hnone
  rw [mainRules, List.append_assoc, firstMatch?, List.findSome?_append, hnone, Option.none_or]
  rfl

/-- Keywords start like identifiers. -/
theorem takeWhile_ne_keyword (h : startChar.holds c = false) (cs : List Char) :
    ∀ word ∈ keywords, (c :: cs).takeWhile Text.isWord ≠ word.toList := by
  intro word hword heq
  obtain ⟨d, ds, hcons, hstart, -⟩ := exists_of_keyword hword
  rw [hcons] at heq
  by_cases hc : Text.isWord c = true
  · rw [List.takeWhile_cons_of_pos hc] at heq
    rw [← (List.cons.inj heq).1, h] at hstart
    cases hstart
  · rw [List.takeWhile_cons_of_neg hc] at heq
    cases heq

theorem firstMatch?_sign (hsign : sign ∈ signs) (rest : List Char) :
    firstMatch? mainRules (sign.toList ++ rest) =
      some (signRule sign, ⟨sign.toList.length, []⟩) := by
  obtain ⟨c, cs, hcons, hword, -, -, hdistinct⟩ := exists_of_sign hsign
  obtain ⟨before, after, hsplit, hnew⟩ := List.eq_append_cons_of_mem hsign
  have hkeywords : ∀ word ∈ keywords,
      (sign.toList ++ rest).takeWhile Text.isWord ≠ word.toList := by
    rw [hcons, List.cons_append]
    exact takeWhile_ne_keyword (not_isWord_startChar hword) _
  have hrules : signs.map signRule ++ otherRules = before.map signRule ++ signRule sign ::
      (after.map signRule ++ otherRules) := by
    rw [hsplit]
    simp
  rw [firstMatch?_of_not_keyword hkeywords, hrules]
  refine firstMatch?_append (fun r hr => ?_) ?_ _
  · obtain ⟨other, hother, rfl⟩ := List.mem_map.1 hr
    have hmem : other ∈ signs := hsplit ▸ List.mem_append_left _ hother
    obtain ⟨d, ds, hother', -⟩ := exists_of_sign hmem
    rw [search?_signRule, if_neg]
    intro hbegins
    have hd : d = c := by
      rw [hother', hcons, List.isPrefixOf_iff_prefix, List.cons_append] at hbegins
      exact (List.cons_prefix_cons.1 hbegins).1
    refine hnew (hdistinct other hmem ?_ ▸ hother)
    rw [hother', hd]
    rfl
  · rw [search?_signRule, if_pos (List.isPrefixOf_iff_prefix.2 (List.prefix_append _ _))]

/-- Where no keyword ends and no sign starts, one of the other rules matches. -/
theorem firstMatch?_other (hkeywords : ∀ word ∈ keywords, cs.takeWhile Text.isWord ≠ word.toList)
    (hsigns : ∀ sign ∈ signs, ¬ sign.toList <+: cs) :
    firstMatch? mainRules cs = firstMatch? otherRules cs := by
  have hnone : firstMatch? (signs.map signRule) cs = none := by
    rw [firstMatch?, List.findSome?_eq_none_iff]
    intro r hr
    obtain ⟨sign, hsign, rfl⟩ := List.mem_map.1 hr
    rw [search?_signRule, if_neg fun h => hsigns sign hsign (List.isPrefixOf_iff_prefix.1 h)]
    rfl
  rw [firstMatch?] at hnone
  rw [firstMatch?_of_not_keyword hkeywords, firstMatch?, List.findSome?_append, hnone,
    Option.none_or]
  rfl

/-- No sign starts like a word, a string, a comment or a blank. -/
theorem not_startsWith_sign (hc : Text.isWord c = true ∨ c ∈ openers) (cs : List Char) :
    ∀ sign ∈ signs, ¬ sign.toList <+: c :: cs := by
  intro sign hsign hbegins
  obtain ⟨d, ds, hcons, hword, hopeners, -⟩ := exists_of_sign hsign
  rw [hcons] at hbegins
  obtain rfl := (List.cons_prefix_cons.1 hbegins).1
  rcases hc with hc | hc
  · rw [hword] at hc
    cases hc
  · exact hopeners d List.mem_cons_self hc

/-- No token starts with a word character that no identifier holds. -/
theorem firstMatch?_eq_none (hc : Text.isWord c = true) (hpart : partChar.holds c = false)
    (cs : List Char) : firstMatch? mainRules (c :: cs) = none := by
  have hstart : startChar.holds c = false := by
    by_contra h
    rw [partChar_of_startChar (eq_true_of_ne_false h)] at hpart
    cases hpart
  have hdecimal : decimal.holds c = false := by
    by_contra h
    rw [partChar_of_decimal (eq_true_of_ne_false h)] at hpart
    cases hpart
  have hother : c ∉ '-' :: '.' :: openers := by
    intro hmem
    rw [not_isWord_of_mem hmem] at hc
    cases hc
  simp only [openers, List.mem_cons, List.not_mem_nil, or_false, not_or] at hother
  obtain ⟨hminus, -, hquote, hslash, hplus, hspace, htab, hnewLine, hreturn⟩ := hother
  have hblank : blankChar.holds c = false := by
    simp [blankChar, holds_among, holds_single_comm, hspace, htab, hnewLine, hreturn]
  have hnumeral := numeral_eq_nil (by simp [hplus, hminus]) hdecimal cs
  rw [firstMatch?_other (takeWhile_ne_keyword hstart cs) (not_startsWith_sign (.inl hc) cs),
    firstMatch?, List.findSome?_eq_none_iff]
  simp [otherRules, identifierRule_eq_none hstart, stringRule_eq_none hquote,
    floatRule_eq_none hnumeral, integerRule_eq_none hnumeral, commentRule_eq_none hslash,
    blankRule_eq_none hblank]

end

/-! ### Tokens -/

/-- A token as the lexer makes it, without its place. -/
inductive Lexeme : LexToken → Prop
  | keyword {kind : String} (h : kind ∈ keywords) : Lexeme (.bare kind)
  | sign {kind : String} (h : kind ∈ signs) : Lexeme (.bare kind)
  | identifier {w : List Char} (hstart : w.head?.any startChar.holds = true)
      (hw : ∀ c ∈ w, partChar.holds c = true) (hnew : String.ofList w ∉ keywords) :
    Lexeme (.valued "identifier" (String.ofList w))
  | string {w : List Char} (hw : ∀ c ∈ w, quotedChar.holds c = true) :
    Lexeme (.valued "string" (String.ofList w))
  | float {w ds : List Char} (hw : IsInteger w) (hne : ds ≠ [])
      (hds : ∀ c ∈ ds, decimal.holds c = true) :
    Lexeme (.valued "float" (String.ofList (w ++ '.' :: ds)))
  | integer {w : List Char} (hw : IsInteger w) : Lexeme (.valued "integer" (String.ofList w))
  /-- The text stops at the first end of a comment. -/
  | comment {w : List Char} (hw : ∀ c ∈ w, anyChar.holds c = true)
      (hfirst : EndsFirst ['*', '/'] w) : Lexeme (.valued "comment" (String.ofList w))

section

open Lexer

variable {cs rest w : List Char} {m : Match}

theorem groups_of_keyword {word : String} (hword : word ∈ keywords)
    (h : (keywordRule word).regex.search? (keywordRule word).groups cs = some m) :
    m.groups = [] := by
  rw [search?_keywordRule hword] at h
  split at h <;> cases h
  rfl

theorem groups_of_sign {sign : String}
    (h : (signRule sign).regex.search? (signRule sign).groups cs = some m) : m.groups = [] := by
  rw [search?_signRule] at h
  split at h <;> cases h
  rfl

theorem lexeme_of_string (h : stringRule.regex.search? stringRule.groups cs = some m) :
    Lexeme ⟨"string", m.groups, .none⟩ := by
  obtain ⟨w, rest, -, hw, rfl⟩ := (search?_quoted_iff (by decide)).1 h
  exact .string hw

theorem lexeme_of_float (h : floatRule.regex.search? floatRule.groups cs = some m) :
    Lexeme ⟨"float", m.groups, .none⟩ := by
  obtain ⟨w, ds, rest, -, hw, hne, hds, -, rfl⟩ := search?_float_iff.1 h
  exact .float hw hne hds

theorem lexeme_of_integer (h : integerRule.regex.search? integerRule.groups cs = some m) :
    Lexeme ⟨"integer", m.groups, .none⟩ := by
  obtain ⟨w, rest, -, hw, -, rfl⟩ := search?_integer_iff.1 h
  exact .integer hw

theorem lexeme_of_comment (h : commentRule.regex.search? commentRule.groups cs = some m) :
    Lexeme ⟨"comment", m.groups, .none⟩ := by
  obtain ⟨w, rest, -, hw, hfirst, rfl⟩ := search?_lazy_iff.1 h
  exact .comment hw hfirst

/-- The source goes on, but with no token. -/
def Stuck (cs : List Char) : Prop := cs ≠ [] ∧ firstMatch? mainRules cs = none

/-- An identifier that is a keyword goes on as a word that is no identifier. -/
theorem lexeme_of_identifier (h : firstMatch? mainRules cs = some (identifierRule, m)) :
    Lexeme ⟨"identifier", m.groups, .none⟩ ∨ Stuck (cs.drop m.stop) := by
  have hmatch := (firstMatch?_eq_some h).2
  rw [search?_identifierRule] at hmatch
  split at hmatch
  swap
  · cases hmatch
  rename_i hstart
  cases hmatch
  by_cases hkeyword : String.ofList (cs.takeWhile partChar.holds) ∈ keywords
  swap
  · refine .inl (.identifier ?_ (fun c => List.mem_takeWhile_imp) hkeyword)
    cases cs with
    | nil => cases hstart
    | cons c cs =>
      rw [List.takeWhile_cons_of_pos (partChar_of_startChar hstart)]
      exact hstart
  refine .inr ?_
  rw [drop_length_takeWhile]
  have hmore : (cs.dropWhile partChar.holds).head?.any Text.isWord = true := by
    by_contra hend
    have htake : cs.takeWhile Text.isWord = cs.takeWhile partChar.holds := by
      conv_lhs => rw [← List.takeWhile_append_dropWhile (p := partChar.holds) (l := cs)]
      exact takeWhile_append_of_head?
        (fun c hc => isWord_of_partChar (List.mem_takeWhile_imp hc)) (eq_false_of_ne_true hend)
    rw [firstMatch?_keyword hkeyword (htake.trans String.toList_ofList.symm)] at h
    have hrule := congrArg (fun r => r.groups) (Prod.mk.inj (Option.some.inj h)).1
    cases hrule
  have hnot := any_head?_dropWhile partChar.holds cs
  cases hrest : cs.dropWhile partChar.holds with
  | nil =>
    rw [hrest] at hmore
    cases hmore
  | cons c rest =>
    rw [hrest] at hmore hnot
    exact ⟨List.cons_ne_nil _ _, firstMatch?_eq_none hmore hnot rest⟩

/-- What holds of a run: the tokens made are as they should be, unless no more are made. -/
def Scanned (tokens : List LexToken) (rest : List Char) : Prop :=
  (∀ t ∈ tokens, Lexeme t.detach) ∨ Stuck rest

theorem scanned_step {options : TokenizeOptions} {s s' : Scan} (h : Scanned s.tokens s.rest)
    (hstep : lexer.step options s = .ok s') : Scanned s'.tokens s'.rest := by
  obtain ⟨state, r, m, hstate, hmatch, hrest, span, htokens⟩ := firstMatch?_of_step hstep
  have hrules : state.rules = mainRules := by
    have hstates : lexer.states = #[⟨"main", mainRules⟩] := by rw [lexer_eq]
    rw [hstates] at hstate
    cases hcurrent : s.current with
    | zero =>
      rw [hcurrent] at hstate
      cases hstate
      rfl
    | succ n =>
      rw [hcurrent] at hstate
      cases hstate
  rw [hrules] at hmatch
  rcases h with h | hstuck
  swap
  · rw [hstuck.2] at hmatch
    cases hmatch
  obtain ⟨hr, hsearch⟩ := firstMatch?_eq_some hmatch
  rw [htokens, hrest]
  have hmade {kind : String} (ht : Lexeme ⟨kind, m.groups, .none⟩) :
      Scanned (⟨kind, m.groups, span⟩ :: s.tokens) (s.rest.drop m.stop) :=
    .inl (List.forall_mem_cons.2 ⟨ht, h⟩)
  rw [mainRules, List.mem_append, List.mem_append] at hr
  rcases hr with (hr | hr) | hr
  · obtain ⟨word, hword, rfl⟩ := List.mem_map.1 hr
    have hgroups := groups_of_keyword hword hsearch
    exact hmade (hgroups ▸ .keyword hword)
  · obtain ⟨sign, hsign, rfl⟩ := List.mem_map.1 hr
    have hgroups := groups_of_sign hsearch
    exact hmade (hgroups ▸ .sign hsign)
  · simp only [otherRules, List.mem_cons, List.not_mem_nil, or_false] at hr
    rcases hr with rfl | rfl | rfl | rfl | rfl | rfl
    · exact (lexeme_of_identifier hmatch).elim hmade .inr
    · exact hmade (lexeme_of_string hsearch)
    · exact hmade (lexeme_of_float hsearch)
    · exact hmade (lexeme_of_integer hsearch)
    · exact hmade (lexeme_of_comment hsearch)
    · exact .inl h

/-- The tokens of a source are as the lexer makes them. -/
theorem lexemes_of_tokenize {source : String} {tokens : List LexToken}
    (h : lexer.tokenize source = .ok tokens) : ∀ t ∈ tokens, Lexeme t.detach := by
  obtain ⟨s, hs, hend, rfl⟩ := Lexer.tokenize_induction (P := fun s => Scanned s.tokens s.rest)
    (fun _ _ => scanned_step) (fun _ _ => .inl (List.forall_mem_nil _)) h
  rcases hs with hs | hstuck
  · exact fun t ht => hs t (List.mem_reverse.1 ht)
  · exact absurd hend hstuck.1

/-! ### Parts of a source -/

/-- A match of as many characters as there are in a text takes the text. -/
theorem lexes_of_match {r : CompiledRule} {groups : List String}
    (hmatch : firstMatch? mainRules (w ++ rest) = some (r, ⟨w.length, groups⟩))
    (haction : r.rule.action = none) (hne : w ≠ []) :
    lexer.Lexes 0 (w ++ rest) (if r.rule.discard then [] else [⟨r.rule.name, groups, .none⟩]) 0
      rest := by
  have hact : act r "main" 0 [] = .ok (0, []) := by
    rw [act, haction]
  have h := lexes_of_firstMatch state_main hmatch hact (List.length_pos_iff.2 hne)
    (List.append_ne_nil_of_left_ne_nil hne rest)
  rwa [List.drop_left] at h

/-- A keyword, with no word after it. -/
theorem lexes_keyword {word : String} (hword : word ∈ keywords)
    (hrest : rest.head?.any Text.isWord = false) :
    lexer.Lexes 0 (word.toList ++ rest) [.bare word] 0 rest := by
  obtain ⟨c, cs, hcons, -, hwords⟩ := exists_of_keyword hword
  have htake : (word.toList ++ rest).takeWhile Text.isWord = word.toList :=
    takeWhile_append_of_head? hwords hrest
  exact lexes_of_match (firstMatch?_keyword hword htake) rfl (hcons ▸ List.cons_ne_nil c cs)

theorem lexes_sign {sign : String} (hsign : sign ∈ signs) (rest : List Char) :
    lexer.Lexes 0 (sign.toList ++ rest) [.bare sign] 0 rest := by
  obtain ⟨c, cs, hcons, -⟩ := exists_of_sign hsign
  exact lexes_of_match (firstMatch?_sign hsign rest) rfl (hcons ▸ List.cons_ne_nil c cs)

/-- An identifier, with no word after it. -/
theorem lexes_identifier (hstart : w.head?.any startChar.holds = true)
    (hw : ∀ c ∈ w, partChar.holds c = true) (hnew : String.ofList w ∉ keywords)
    (hrest : rest.head?.any Text.isWord = false) :
    lexer.Lexes 0 (w ++ rest) [.valued "identifier" (String.ofList w)] 0 rest := by
  have hword : (w ++ rest).takeWhile Text.isWord = w :=
    takeWhile_append_of_head? (fun c hc => isWord_of_partChar (hw c hc)) hrest
  have hpart : rest.head?.any partChar.holds = false := by
    cases rest with
    | nil => rfl
    | cons c rest =>
      rw [List.head?_cons, Option.any_some] at hrest ⊢
      by_contra h
      rw [isWord_of_partChar (eq_true_of_ne_false h)] at hrest
      cases hrest
  have hkeywords : ∀ word ∈ keywords, (w ++ rest).takeWhile Text.isWord ≠ word.toList := by
    intro word hword' heq
    rw [hword] at heq
    exact hnew (heq ▸ String.ofList_toList.symm ▸ hword')
  cases w with
  | nil => cases hstart
  | cons c w =>
    have hc := hw c List.mem_cons_self
    have hmatch : firstMatch? mainRules (c :: w ++ rest) =
        some (identifierRule, ⟨(c :: w).length, [String.ofList (c :: w)]⟩) := by
      rw [firstMatch?_other hkeywords (not_startsWith_sign (.inl (isWord_of_partChar hc)) _)]
      refine firstMatch?_append (List.forall_mem_nil _) ?_
        [stringRule, floatRule, integerRule, commentRule, blankRule]
      have hhead : (c :: w ++ rest).head?.any startChar.holds = true := hstart
      rw [search?_identifierRule, if_pos hhead, takeWhile_append_of_head? hw hpart]
    exact lexes_of_match hmatch rfl (List.cons_ne_nil _ _)

theorem lexes_string (hw : ∀ c ∈ w, quotedChar.holds c = true) (rest : List Char) :
    lexer.Lexes 0 ('"' :: w ++ '"' :: rest) [.valued "string" (String.ofList w)] 0 rest := by
  have hsplit : '"' :: w ++ '"' :: rest = ('"' :: w ++ ['"']) ++ rest := by simp
  have hmatch : firstMatch? mainRules ('"' :: w ++ '"' :: rest) =
      some (stringRule, ⟨('"' :: w ++ ['"']).length, [String.ofList w]⟩) := by
    have hstart : startChar.holds '"' = false := by decide
    rw [List.cons_append, firstMatch?_other (takeWhile_ne_keyword hstart _)
      (not_startsWith_sign (.inr (by decide)) _)]
    refine firstMatch?_append
      (List.forall_mem_singleton.2 (identifierRule_eq_none hstart (w ++ '"' :: rest))) ?_
      [floatRule, integerRule, commentRule, blankRule]
    have h : stringRule.regex.search? stringRule.groups ('"' :: w ++ '"' :: rest) =
        some ⟨1 + w.length + 1, [String.ofList w]⟩ := search?_quoted (by decide) hw ['"'] rest
    simpa [Nat.add_comm] using h
  rw [hsplit] at hmatch ⊢
  exact lexes_of_match hmatch rfl (by simp)

/-- A number starts with a sign and a digit, or with a digit. -/
theorem exists_first_of_isInteger (hw : IsInteger w) :
    (∃ c w', w = c :: w' ∧ decimal.holds c = true) ∨
      ∃ c d w', w = c :: d :: w' ∧ c ∈ ['+', '-'] ∧ decimal.holds d = true := by
  obtain ⟨sign, ds, rfl, hsign, hne, hds⟩ := hw
  obtain ⟨d, ds, rfl⟩ := List.exists_cons_of_ne_nil hne
  have hd := hds d List.mem_cons_self
  simp only [List.mem_cons, List.not_mem_nil, or_false] at hsign
  rcases hsign with rfl | rfl | rfl
  · exact .inl ⟨d, ds, rfl, hd⟩
  · exact .inr ⟨'+', d, ds, rfl, by simp, hd⟩
  · exact .inr ⟨'-', d, ds, rfl, by simp, hd⟩

/-- Before a number the rules of numbers are the first that may match. -/
theorem firstMatch?_number (hw : IsInteger w) (rest : List Char) :
    firstMatch? mainRules (w ++ rest) =
      firstMatch? [floatRule, integerRule, commentRule, blankRule] (w ++ rest) := by
  have hsigns : ∀ sign ∈ signs, ¬ sign.toList <+: w ++ rest := by
    rcases exists_first_of_isInteger hw with ⟨c, w, rfl, hc⟩ | ⟨c, d, w, rfl, hc, hd⟩
    · exact not_startsWith_sign (.inl (isWord_of_decimal hc)) _
    · simp only [List.mem_cons, List.not_mem_nil, or_false] at hc
      rcases hc with rfl | rfl
      · exact not_startsWith_sign (.inr (by decide)) _
      · intro sign hsign hbegins
        obtain ⟨e, es, hcons, -, -, harrow, -⟩ := exists_of_sign hsign
        rw [hcons] at hbegins
        obtain ⟨he, hbegins⟩ := List.cons_prefix_cons.1 hbegins
        rw [harrow he] at hbegins
        rw [← (List.cons_prefix_cons.1 hbegins).1] at hd
        exact absurd hd (by decide)
  have hfirst : ∃ c w', w ++ rest = c :: w' ∧ startChar.holds c = false ∧ c ≠ '"' := by
    rcases exists_first_of_isInteger hw with ⟨c, w, rfl, hc⟩ | ⟨c, d, w, rfl, hc, hd⟩
    · refine ⟨c, w ++ rest, rfl, not_startChar_of_decimal hc, ?_⟩
      rintro rfl
      exact absurd hc (by decide)
    · simp only [List.mem_cons, List.not_mem_nil, or_false] at hc
      rcases hc with rfl | rfl <;> exact ⟨_, _, rfl, by decide, by decide⟩
  obtain ⟨c, w', hcons, hstart, hquote⟩ := hfirst
  rw [hcons] at hsigns ⊢
  rw [firstMatch?_other (takeWhile_ne_keyword hstart _) hsigns, firstMatch?, otherRules,
    List.findSome?_cons, identifierRule_eq_none hstart, Option.map_none, List.findSome?_cons,
    stringRule_eq_none hquote]
  rfl

theorem not_decimal_of_not_isWord (hrest : rest.head?.any Text.isWord = false) :
    rest.head?.any decimal.holds = false := by
  cases rest with
  | nil => rfl
  | cons c rest =>
    rw [List.head?_cons, Option.any_some] at hrest ⊢
    by_contra h
    rw [isWord_of_decimal (eq_true_of_ne_false h)] at hrest
    cases hrest

/-- A number with a fraction, with no word after it. -/
theorem lexes_float {ds : List Char} (hw : IsInteger w) (hne : ds ≠ [])
    (hds : ∀ c ∈ ds, decimal.holds c = true) (hrest : rest.head?.any Text.isWord = false) :
    lexer.Lexes 0 (w ++ '.' :: ds ++ rest) [.valued "float" (String.ofList (w ++ '.' :: ds))] 0
      rest := by
  have hsearch : floatRule.regex.search? floatRule.groups (w ++ '.' :: ds ++ rest) =
      some ⟨w.length + 1 + ds.length, [String.ofList (w ++ '.' :: ds)]⟩ :=
    search?_float_iff.2 ⟨w, ds, rest, rfl, hw, hne, hds, not_decimal_of_not_isWord hrest, rfl⟩
  have hlength : (w ++ '.' :: ds).length = w.length + 1 + ds.length := by
    rw [List.length_append, List.length_cons]
    omega
  have hmatch : firstMatch? mainRules (w ++ '.' :: ds ++ rest) =
      some (floatRule, ⟨(w ++ '.' :: ds).length, [String.ofList (w ++ '.' :: ds)]⟩) := by
    rw [hlength, List.append_assoc, firstMatch?_number hw, ← List.append_assoc]
    exact firstMatch?_append (List.forall_mem_nil _) hsearch
      [integerRule, commentRule, blankRule]
  exact lexes_of_match hmatch rfl (by simp)

/-- A number without a fraction, with no word and no fraction after it. -/
theorem lexes_integer (hw : IsInteger w) (hrest : rest.head?.any Text.isWord = false)
    (hpoint : rest.head? = some '.' → rest.tail.head?.any decimal.holds = false) :
    lexer.Lexes 0 (w ++ rest) [.valued "integer" (String.ofList w)] 0 rest := by
  have hdecimal := not_decimal_of_not_isWord hrest
  have hfloat : floatRule.regex.search? floatRule.groups (w ++ rest) = none := by
    refine (search?_float hw hdecimal).trans (if_neg fun h => ?_)
    rw [hpoint h.1] at h
    exact absurd h.2 (by decide)
  have hinteger : integerRule.regex.search? integerRule.groups (w ++ rest) =
      some ⟨w.length, [String.ofList w]⟩ := search?_integer hw hdecimal
  have hmatch : firstMatch? mainRules (w ++ rest) =
      some (integerRule, ⟨w.length, [String.ofList w]⟩) := by
    rw [firstMatch?_number hw]
    exact firstMatch?_append (List.forall_mem_singleton.2 hfloat) hinteger [commentRule, blankRule]
  refine lexes_of_match hmatch rfl ?_
  obtain ⟨sign, ds, rfl, -, hne, -⟩ := hw
  exact List.append_ne_nil_of_right_ne_nil sign hne

theorem lexes_comment (hw : ∀ c ∈ w, anyChar.holds c = true) (hfirst : EndsFirst ['*', '/'] w)
    (rest : List Char) :
    lexer.Lexes 0 (['/', '*'] ++ w ++ ['*', '/'] ++ rest) [.valued "comment" (String.ofList w)] 0
      rest := by
  have hsearch : commentRule.regex.search? commentRule.groups
      (['/', '*'] ++ w ++ ['*', '/'] ++ rest) =
        some ⟨(['/', '*'] ++ w ++ ['*', '/']).length, [String.ofList w]⟩ := by
    rw [List.length_append, List.length_append]
    exact search?_lazy hw hfirst ['/', '*'] rest
  have hmatch : firstMatch? mainRules (['/', '*'] ++ w ++ ['*', '/'] ++ rest) =
      some (commentRule, ⟨(['/', '*'] ++ w ++ ['*', '/']).length, [String.ofList w]⟩) := by
    have hstart : startChar.holds '/' = false := by decide
    have hnumeral (cs : List Char) : numeral ('/' :: cs) = [] :=
      numeral_eq_nil (by decide) (by decide) cs
    have hbefore (cs : List Char) : ∀ r ∈ [identifierRule, stringRule, floatRule, integerRule],
        r.regex.search? r.groups ('/' :: cs) = none := by
      simp [identifierRule_eq_none hstart, stringRule_eq_none (show '/' ≠ '"' by decide),
        floatRule_eq_none (hnumeral _), integerRule_eq_none (hnumeral _)]
    simp only [List.cons_append] at hsearch ⊢
    rw [firstMatch?_other (takeWhile_ne_keyword hstart _) (not_startsWith_sign (.inr (by decide)) _)]
    exact firstMatch?_append (hbefore _) hsearch [blankRule]
  exact lexes_of_match hmatch rfl (by simp)

/-- Blanks make no token. -/
theorem lexes_blanks (cs : List Char) :
    lexer.Lexes 0 cs [] 0 (cs.dropWhile blankChar.holds) := by
  cases hblank : cs.takeWhile blankChar.holds with
  | nil =>
    have hdrop : cs.dropWhile blankChar.holds = cs := by
      conv_rhs => rw [← List.takeWhile_append_dropWhile (p := blankChar.holds) (l := cs), hblank]
      rfl
    rw [hdrop]
    exact lexer.lexes_nil 0 cs
  | cons c w =>
    have hc : c ∈ [' ', '\t', '\n', '\r'] :=
      mem_blankChar.1 (List.mem_takeWhile_imp (hblank ▸ List.mem_cons_self))
    have hcs : cs = c :: w ++ cs.dropWhile blankChar.holds := by
      rw [← hblank, List.takeWhile_append_dropWhile]
    have hmatch : firstMatch? mainRules (c :: w ++ cs.dropWhile blankChar.holds) =
        some (blankRule, ⟨(c :: w).length, []⟩) := by
      have hfacts : startChar.holds c = false ∧ c ≠ '"' ∧ c ∉ ['+', '-'] ∧
          decimal.holds c = false ∧ c ≠ '/' ∧ c ∈ openers := by
        simp only [List.mem_cons, List.not_mem_nil, or_false] at hc
        rcases hc with rfl | rfl | rfl | rfl <;> decide
      obtain ⟨hstart, hquote, hsign, hdecimal, hslash, hmem⟩ := hfacts
      have hnumeral (cs : List Char) : numeral (c :: cs) = [] := numeral_eq_nil hsign hdecimal cs
      have hbefore (cs : List Char) :
          ∀ r ∈ [identifierRule, stringRule, floatRule, integerRule, commentRule],
            r.regex.search? r.groups (c :: cs) = none := by
        simp [identifierRule_eq_none hstart, stringRule_eq_none hquote,
          floatRule_eq_none (hnumeral _), integerRule_eq_none (hnumeral _),
          commentRule_eq_none hslash]
      rw [List.cons_append, firstMatch?_other (takeWhile_ne_keyword hstart _)
        (not_startsWith_sign (.inr hmem) _)]
      refine firstMatch?_append (hbefore _) ?_ []
      rw [← List.cons_append, ← hcs, search?_blankRule, hblank, if_neg (List.cons_ne_nil _ _)]
    have h := lexes_of_match hmatch rfl (List.cons_ne_nil _ _)
    rwa [← hcs] at h

end

end Logic

end ReversibleGrammar
