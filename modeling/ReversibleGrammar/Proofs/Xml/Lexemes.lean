/-
The tokens of XML documents.

Outside of tags, a token is a sign that opens a tag, a comment, or text as far as it goes;
inside, it is a name, a quoted value or a sign, and white space makes none.  What tokens
hold, they can be made of again, provided that nothing after a name or text goes on with it.

* `lexer_eq` — the rules of the lexer, with their expressions;
* `Lexeme`, `lexeme_of_mem_tokenize` — tokens as the lexer makes them;
* `apart_of_tokenize` — text does not follow text;
* `lexes_comment`, `lexes_name`, `lexes_string` and so on — what makes each of them.
-/
import ReversibleGrammar.Language.Xml
import ReversibleGrammar.Proofs.Lexing.Scan
import ReversibleGrammar.Proofs.Lexing.Texts

namespace ReversibleGrammar

namespace Xml

open Regex
open CharSet (among holds_among holds_single_comm)

/-! ### The rules -/

def blankChar : CharSet := among [.single ' ', .single '\t', .single '\r', .single '\n']

def nameChar : CharSet := among [.range 'a' 'z', .range 'A' 'Z', .range '0' '9']

/-- The characters of text outside of tags. -/
def dataChar : CharSet := .complement (among [.single '<', .single '&'])

/-- The characters of quoted values. -/
def valueChar : CharSet := .complement (among [.single '<', .single '"'])

/-- The characters of comments. -/
def lineChar : CharSet := .complement (.single '\n')

def commentRule : CompiledRule :=
  ⟨.make "comment" "<!--(.*?)-->",
    (between ['<', '!', '-', '-'] (loop (.set lineChar) 0 none false) ['-', '-', '>']).anchored,
    1, none⟩

def dataRule : CompiledRule :=
  ⟨.make "charData" "([^<&]+)",
    (between [] (loop (.set dataChar) 1 none true) []).anchored, 1, none⟩

def stringRule : CompiledRule :=
  ⟨.make "string" "\"([^<\"]*)\"",
    (between ['"'] (loop (.set valueChar) 0 none true) ['"']).anchored, 1, none⟩

def nameRule : CompiledRule :=
  ⟨.make "name" "([a-zA-Z0-9]+)",
    (between [] (loop (.set nameChar) 1 none true) []).anchored, 1, none⟩

def blankRule : CompiledRule :=
  ⟨(TokenRule.make "whitespace" "[ \\t\\r\\n]").discarded,
    (concat empty (.set blankChar)).anchored, 0, none⟩

/-- The rule of a sign that leads to a state. -/
def tagRule (sign state : String) (target : Nat) : CompiledRule :=
  ⟨(TokenRule.literal sign).then (.next state), (text sign.toList).anchored, 0, some target⟩

def equalsRule : CompiledRule := ⟨.literal "=", (text ['=']).anchored, 0, none⟩

/-- The rules outside of tags. -/
def mainRules : List CompiledRule :=
  [commentRule, tagRule "</" "inside" 1, tagRule "<" "inside" 1, dataRule]

/-- The rules inside of tags. -/
def insideRules : List CompiledRule :=
  [blankRule, stringRule, nameRule, equalsRule, tagRule ">" "main" 0, tagRule "/>" "main" 0]

theorem lexer_eq : lexer = ⟨#[⟨"main", mainRules⟩, ⟨"inside", insideRules⟩]⟩ := by cbv

/-! ### Characters -/

theorem mem_blankChar {c : Char} :
    blankChar.holds c = true ↔ c ∈ [' ', '\t', '\r', '\n'] := by
  simp [blankChar, holds_among, holds_single_comm]

theorem mem_dataChar {c : Char} : dataChar.holds c = true ↔ c ≠ '<' ∧ c ≠ '&' := by
  simp [dataChar, CharSet.holds, holds_among, holds_single_comm]

theorem mem_valueChar {c : Char} : valueChar.holds c = true ↔ c ≠ '<' ∧ c ≠ '"' := by
  simp [valueChar, CharSet.holds, holds_among, holds_single_comm]

theorem not_nameChar_of_mem {c : Char}
    (h : c ∈ [' ', '\t', '\r', '\n', '"', '=', '>', '/', '<', '!']) : nameChar.holds c = false := by
  simp only [List.mem_cons, List.not_mem_nil, or_false] at h
  rcases h with rfl | rfl | rfl | rfl | rfl | rfl | rfl | rfl | rfl | rfl <;> decide

/-! ### Matches of the rules -/

theorem search?_tagRule (sign state : String) (target : Nat) (cs : List Char) :
    (tagRule sign state target).regex.search? (tagRule sign state target).groups cs =
      if sign.toList.isPrefixOf cs then some ⟨sign.toList.length, []⟩ else none :=
  search?_text sign.toList cs

theorem search?_equalsRule (cs : List Char) :
    equalsRule.regex.search? equalsRule.groups cs =
      if ['='].isPrefixOf cs then some ⟨1, []⟩ else none :=
  search?_text ['='] cs

theorem search?_blankRule (cs : List Char) :
    blankRule.regex.search? blankRule.groups cs =
      if cs.head?.any blankChar.holds then some ⟨1, []⟩ else none :=
  search?_set blankChar cs

theorem search?_nameRule (cs : List Char) :
    nameRule.regex.search? nameRule.groups cs =
      if cs.takeWhile nameChar.holds = [] then none
      else some ⟨(cs.takeWhile nameChar.holds).length,
        [String.ofList (cs.takeWhile nameChar.holds)]⟩ :=
  search?_run nameChar cs

theorem search?_dataRule (cs : List Char) :
    dataRule.regex.search? dataRule.groups cs =
      if cs.takeWhile dataChar.holds = [] then none
      else some ⟨(cs.takeWhile dataChar.holds).length,
        [String.ofList (cs.takeWhile dataChar.holds)]⟩ :=
  search?_run dataChar cs

/-- The start of a comment. -/
def commentStart : List Char := ['<', '!', '-', '-']

/-- The end of a comment. -/
def commentEnd : List Char := ['-', '-', '>']

theorem search?_commentRule (cs : List Char) :
    commentRule.regex.search? commentRule.groups cs =
      if commentStart.isPrefixOf cs then
        ((List.range' 0 (((cs.drop 4).takeWhile lineChar.holds).length + 1)).find? fun n =>
          commentEnd.isPrefixOf ((cs.drop 4).drop n)).map fun n =>
            ⟨4 + n + 3, [String.ofList ((cs.drop 4).take n)]⟩
      else none :=
  search?_between commentStart commentEnd lineChar 0 false cs

theorem search?_stringRule (cs : List Char) :
    stringRule.regex.search? stringRule.groups cs =
      if ['"'].isPrefixOf cs then
        ((counts true 0 ((cs.drop 1).takeWhile valueChar.holds).length).find? fun n =>
          ['"'].isPrefixOf ((cs.drop 1).drop n)).map fun n =>
            ⟨1 + n + 1, [String.ofList ((cs.drop 1).take n)]⟩
      else none :=
  search?_between ['"'] ['"'] valueChar 0 true cs

/-! ### Tokens -/

/-- The kinds of tokens without a text. -/
def signs : List String := ["</", "<", "=", ">", "/>"]

/-- A token as the lexer makes it, without its place. -/
inductive Lexeme : LexToken → Prop
  | sign {kind : String} (h : kind ∈ signs) : Lexeme (.bare kind)
  /-- The text stops at the first end of a comment. -/
  | comment {w : List Char} (hw : ∀ c ∈ w, lineChar.holds c = true)
      (hend : ∀ n < w.length, ¬ commentEnd <+: (w ++ commentEnd).drop n) :
    Lexeme (.valued "comment" (String.ofList w))
  | charData {w : List Char} (hne : w ≠ []) (hw : ∀ c ∈ w, dataChar.holds c = true) :
    Lexeme (.valued "charData" (String.ofList w))
  | string {w : List Char} (hw : ∀ c ∈ w, valueChar.holds c = true) :
    Lexeme (.valued "string" (String.ofList w))
  | name {w : List Char} (hne : w ≠ []) (hw : ∀ c ∈ w, nameChar.holds c = true) :
    Lexeme (.valued "name" (String.ofList w))

section

variable {cs : List Char} {m : Match}

theorem lexeme_of_comment
    (h : commentRule.regex.search? commentRule.groups cs = some m) :
    Lexeme ⟨"comment", m.groups, .none⟩ := by
  obtain ⟨w, rest, -, hw, hend, rfl⟩ := search?_lazy_iff.1 h
  exact .comment hw hend

theorem lexeme_of_string (h : stringRule.regex.search? stringRule.groups cs = some m) :
    Lexeme ⟨"string", m.groups, .none⟩ := by
  obtain ⟨w, rest, -, hw, rfl⟩ := (search?_quoted_iff (by decide)).1 h
  exact .string hw

theorem lexeme_of_name (h : nameRule.regex.search? nameRule.groups cs = some m) :
    Lexeme ⟨"name", m.groups, .none⟩ := by
  rw [search?_nameRule] at h
  split at h
  · cases h
  · rename_i hne
    cases h
    exact .name hne fun _ => List.mem_takeWhile_imp

/-- Text goes as far as it can. -/
theorem lexeme_of_charData (h : dataRule.regex.search? dataRule.groups cs = some m) :
    Lexeme ⟨"charData", m.groups, .none⟩ ∧ cs.head?.any dataChar.holds = true ∧
      (cs.drop m.stop).head?.any dataChar.holds = false := by
  rw [search?_dataRule] at h
  split at h
  · cases h
  · rename_i hne
    cases h
    refine ⟨.charData hne fun _ => List.mem_takeWhile_imp, ?_, ?_⟩
    · cases cs with
      | nil => exact absurd rfl hne
      | cons c cs =>
        by_contra hc
        rw [List.head?_cons, Option.any_some] at hc
        exact hne (List.takeWhile_cons_of_neg hc)
    · have hdrop : cs.drop (cs.takeWhile dataChar.holds).length = cs.dropWhile dataChar.holds := by
        conv_lhs => arg 2; rw [← List.takeWhile_append_dropWhile (p := dataChar.holds) (l := cs)]
        exact List.drop_left
      have hnot := List.head?_dropWhile_not dataChar.holds cs
      rw [hdrop]
      cases hhead : (cs.dropWhile dataChar.holds).head? with
      | none => rfl
      | some c =>
        rw [hhead] at hnot
        exact hnot

theorem groups_of_tagRule {sign state : String} {target : Nat}
    (h : (tagRule sign state target).regex.search? (tagRule sign state target).groups cs =
      some m) : m.groups = [] := by
  rw [search?_tagRule] at h
  split at h <;> cases h
  rfl

theorem groups_of_equalsRule
    (h : equalsRule.regex.search? equalsRule.groups cs = some m) : m.groups = [] := by
  rw [search?_equalsRule] at h
  split at h <;> cases h
  rfl

theorem search?_blankRule_eq_some (h : blankRule.regex.search? blankRule.groups cs = some m) :
    cs.head?.any dataChar.holds = true := by
  rw [search?_blankRule] at h
  split at h
  · rename_i hblank
    obtain ⟨c, hc, hblank⟩ := (Option.any_eq_true _ _).1 hblank
    refine (Option.any_eq_true _ _).2 ⟨c, hc, mem_dataChar.2 ?_⟩
    have := mem_blankChar.1 hblank
    constructor <;> rintro rfl <;> simp at this
  · cases h

end

theorem rules_lexer : lexer.rules = mainRules ++ insideRules := by
  rw [lexer_eq]
  rfl

/-- Text does not follow text. -/
def DataApart (tokens : List LexToken) : Prop :=
  tokens.IsChain fun s t => ¬ (s.kind = "charData" ∧ t.kind = "charData")

/-- What holds of the tokens made, the last one first, and of the rest of the source. -/
structure Scanned (tokens : List LexToken) (rest : List Char) : Prop where
  lexeme : ∀ t ∈ tokens, Lexeme t.detach
  apart : DataApart tokens
  /-- Text goes as far as it can. -/
  next : ∀ t ∈ tokens.head?, t.kind = "charData" → rest.head?.any dataChar.holds = false

section

variable {tokens : List LexToken} {rest rest' : List Char}

theorem Scanned.cons (h : Scanned tokens rest) {t : LexToken} (ht : Lexeme t.detach)
    (hdata : t.kind = "charData" →
      rest.head?.any dataChar.holds = true ∧ rest'.head?.any dataChar.holds = false) :
    Scanned (t :: tokens) rest' where
  lexeme := List.forall_mem_cons.2 ⟨ht, h.lexeme⟩
  apart := by
    refine List.isChain_cons.2 ⟨fun u hu hkinds => ?_, h.apart⟩
    have hmore := (hdata hkinds.1).1
    rw [h.next u hu hkinds.2] at hmore
    cases hmore
  next u hu hkind := by
    obtain rfl : t = u := Option.some.inj hu
    exact (hdata hkind).2

/-- A blank is not left over after text. -/
theorem Scanned.skip (h : Scanned tokens rest) (hblank : rest.head?.any dataChar.holds = true)
    (rest' : List Char) : Scanned tokens rest' where
  lexeme := h.lexeme
  apart := h.apart
  next t ht hkind := by
    rw [h.next t ht hkind] at hblank
    cases hblank

theorem scanned_step {options : TokenizeOptions} {s s' : Scan} (h : Scanned s.tokens s.rest)
    (hstep : lexer.step options s = .ok s') : Scanned s'.tokens s'.rest := by
  obtain ⟨r, hr, m, hmatch, hrest, span, htokens⟩ := Lexer.step_eq_ok hstep
  rw [htokens, hrest]
  have hmade {kind : String} (hkind : kind ≠ "charData") (ht : Lexeme ⟨kind, m.groups, .none⟩) :
      Scanned (⟨kind, m.groups, span⟩ :: s.tokens) (s.rest.drop m.stop) :=
    h.cons ht fun heq => absurd heq hkind
  have hsign {kind : String} (hkind : kind ∈ signs) (hgroups : m.groups = []) :
      Scanned (⟨kind, m.groups, span⟩ :: s.tokens) (s.rest.drop m.stop) := by
    refine hmade ?_ (hgroups ▸ .sign hkind)
    rintro rfl
    simp [signs] at hkind
  rw [rules_lexer] at hr
  simp only [mainRules, insideRules, List.cons_append, List.nil_append, List.mem_cons,
    List.not_mem_nil, or_false] at hr
  rcases hr with rfl | rfl | rfl | rfl | rfl | rfl | rfl | rfl | rfl | rfl
  · exact hmade (by decide) (lexeme_of_comment hmatch)
  · exact hsign (by decide) (groups_of_tagRule hmatch)
  · exact hsign (by decide) (groups_of_tagRule hmatch)
  · obtain ⟨hlexeme, hfirst, hlast⟩ := lexeme_of_charData hmatch
    exact h.cons hlexeme fun _ => ⟨hfirst, hlast⟩
  · exact h.skip (search?_blankRule_eq_some hmatch) _
  · exact hmade (by decide) (lexeme_of_string hmatch)
  · exact hmade (by decide) (lexeme_of_name hmatch)
  · exact hsign (by decide) (groups_of_equalsRule hmatch)
  · exact hsign (by decide) (groups_of_tagRule hmatch)
  · exact hsign (by decide) (groups_of_tagRule hmatch)

/-- The tokens of a source are as the lexer makes them, and text does not follow text. -/
theorem lexemes_of_tokenize {source : String} (h : lexer.tokenize source = .ok tokens) :
    (∀ t ∈ tokens, Lexeme t.detach) ∧ DataApart tokens := by
  obtain ⟨s, hs, -, rfl⟩ := Lexer.tokenize_induction (P := fun s => Scanned s.tokens s.rest)
    (fun _ _ => scanned_step) (fun _ _ => ⟨List.forall_mem_nil _, .nil, nofun⟩) h
  refine ⟨fun t ht => hs.lexeme t (List.mem_reverse.1 ht), List.isChain_reverse.2 ?_⟩
  exact hs.apart.imp fun t u hne h => hne ⟨h.2, h.1⟩

end

/-! ### Parts of a source -/

section

open Lexer

variable {w rest : List Char} {c : Char}

theorem state_main : lexer.states[0]? = some ⟨"main", mainRules⟩ := by
  rw [lexer_eq]
  rfl

theorem state_inside : lexer.states[1]? = some ⟨"inside", insideRules⟩ := by
  rw [lexer_eq]
  rfl

theorem search?_comment (hw : ∀ c ∈ w, lineChar.holds c = true)
    (hend : ∀ n < w.length, ¬ commentEnd <+: (w ++ commentEnd).drop n) (rest : List Char) :
    commentRule.regex.search? commentRule.groups (commentStart ++ w ++ commentEnd ++ rest) =
      some ⟨4 + w.length + 3, [String.ofList w]⟩ :=
  search?_lazy hw hend commentStart rest

theorem search?_string (hw : ∀ c ∈ w, valueChar.holds c = true) (rest : List Char) :
    stringRule.regex.search? stringRule.groups ('"' :: w ++ '"' :: rest) =
      some ⟨1 + w.length + 1, [String.ofList w]⟩ :=
  search?_quoted (by decide) hw ['"'] rest

theorem lexes_comment (hw : ∀ c ∈ w, lineChar.holds c = true)
    (hend : ∀ n < w.length, ¬ commentEnd <+: (w ++ commentEnd).drop n) (rest : List Char) :
    lexer.Lexes 0 (commentStart ++ w ++ commentEnd ++ rest)
      [.valued "comment" (String.ofList w)] 0 rest := by
  have hmatch : firstMatch? mainRules (commentStart ++ w ++ commentEnd ++ rest) =
      some (commentRule, ⟨4 + w.length + 3, [String.ofList w]⟩) :=
    firstMatch?_append (List.forall_mem_nil _) (search?_comment hw hend rest) _
  have h := lexes_of_firstMatch state_main hmatch rfl (by dsimp only; omega) (by simp [commentStart])
  have hdrop : (commentStart ++ w ++ commentEnd ++ rest).drop (4 + w.length + 3) = rest :=
    List.drop_left' (by simp [commentStart, commentEnd]; omega)
  rwa [hdrop] at h

/-- A sign that starts no comment and no closing tag. -/
theorem lexes_open (hc : c ∉ ['!', '/']) (rest : List Char) :
    lexer.Lexes 0 ('<' :: c :: rest) [.bare "<"] 1 (c :: rest) := by
  simp only [List.mem_cons, List.not_mem_nil, or_false, not_or] at hc
  have hmatch : firstMatch? mainRules ('<' :: c :: rest) =
      some (tagRule "<" "inside" 1, ⟨1, []⟩) := by
    simp [firstMatch?, mainRules, search?_commentRule, search?_tagRule, commentStart,
      Ne.symm hc.1, Ne.symm hc.2]
  exact lexes_of_firstMatch state_main hmatch rfl Nat.one_pos (List.cons_ne_nil _ _)

theorem lexes_close (rest : List Char) :
    lexer.Lexes 0 ('<' :: '/' :: rest) [.bare "</"] 1 rest := by
  have hmatch : firstMatch? mainRules ('<' :: '/' :: rest) =
      some (tagRule "</" "inside" 1, ⟨2, []⟩) := by
    simp [firstMatch?, mainRules, search?_commentRule, search?_tagRule, commentStart]
  exact lexes_of_firstMatch state_main hmatch rfl Nat.two_pos (List.cons_ne_nil _ _)

/-- Text, with none after it. -/
theorem lexes_charData (hne : w ≠ []) (hw : ∀ c ∈ w, dataChar.holds c = true)
    (hrest : rest.head?.any dataChar.holds = false) :
    lexer.Lexes 0 (w ++ rest) [.valued "charData" (String.ofList w)] 0 rest := by
  obtain ⟨c, w', rfl⟩ := List.exists_cons_of_ne_nil hne
  have hc : c ≠ '<' := (mem_dataChar.1 (hw c List.mem_cons_self)).1
  have hmatch : firstMatch? mainRules (c :: w' ++ rest) =
      some (dataRule, ⟨(c :: w').length, [String.ofList (c :: w')]⟩) := by
    have hbefore : ∀ r ∈ [commentRule, tagRule "</" "inside" 1, tagRule "<" "inside" 1],
        r.regex.search? r.groups (c :: w' ++ rest) = none := by
      simp [search?_commentRule, search?_tagRule, commentStart, Ne.symm hc]
    refine firstMatch?_append hbefore ?_ []
    rw [search?_dataRule, takeWhile_append_of_head? hw hrest, if_neg hne]
  have h := lexes_of_firstMatch state_main hmatch rfl (Nat.succ_pos _) (List.cons_ne_nil _ _)
  rwa [List.drop_left] at h

theorem lexes_blank (hc : blankChar.holds c = true) (rest : List Char) :
    lexer.Lexes 1 (c :: rest) [] 1 rest := by
  have hmatch : firstMatch? insideRules (c :: rest) = some (blankRule, ⟨1, []⟩) := by
    simp [firstMatch?, insideRules, search?_blankRule, hc]
  exact lexes_of_firstMatch state_inside hmatch rfl Nat.one_pos (List.cons_ne_nil _ _)

theorem lexes_blanks (hw : ∀ c ∈ w, blankChar.holds c = true) (rest : List Char) :
    lexer.Lexes 1 (w ++ rest) [] 1 rest := by
  induction w with
  | nil => exact lexer.lexes_nil 1 rest
  | cons c w ih =>
    obtain ⟨hc, hw⟩ := List.forall_mem_cons.1 hw
    exact (lexes_blank hc (w ++ rest)).append (ih hw)

theorem lexes_string (hw : ∀ c ∈ w, valueChar.holds c = true) (rest : List Char) :
    lexer.Lexes 1 ('"' :: w ++ '"' :: rest) [.valued "string" (String.ofList w)] 1 rest := by
  have hmatch : firstMatch? insideRules ('"' :: w ++ '"' :: rest) =
      some (stringRule, ⟨1 + w.length + 1, [String.ofList w]⟩) := by
    have hbefore : ∀ r ∈ [blankRule], r.regex.search? r.groups ('"' :: w ++ '"' :: rest) = none := by
      simp [search?_blankRule, show blankChar.holds '"' = false by decide]
    exact firstMatch?_append hbefore (search?_string hw rest)
      [nameRule, equalsRule, tagRule ">" "main" 0, tagRule "/>" "main" 0]
  have h := lexes_of_firstMatch state_inside hmatch rfl (by dsimp only; omega)
    (List.cons_ne_nil _ _)
  have hdrop : ('"' :: w ++ '"' :: rest).drop (1 + w.length + 1) = rest := by
    rw [show '"' :: w ++ '"' :: rest = ('"' :: w ++ ['"']) ++ rest by simp]
    exact List.drop_left' (by simp; omega)
  rwa [hdrop] at h

/-- A name, with nothing after it that goes on with it. -/
theorem lexes_name (hne : w ≠ []) (hw : ∀ c ∈ w, nameChar.holds c = true)
    (hrest : rest.head?.any nameChar.holds = false) :
    lexer.Lexes 1 (w ++ rest) [.valued "name" (String.ofList w)] 1 rest := by
  obtain ⟨c, w', rfl⟩ := List.exists_cons_of_ne_nil hne
  have hc := hw c List.mem_cons_self
  have hblank : blankChar.holds c = false := by
    by_contra hblank
    have hmem := mem_blankChar.1 (Bool.not_eq_false _ ▸ hblank)
    rw [not_nameChar_of_mem (List.mem_append_left _ hmem)] at hc
    cases hc
  have hquote : c ≠ '"' := by
    rintro rfl
    exact absurd hc (by decide)
  have hmatch : firstMatch? insideRules (c :: w' ++ rest) =
      some (nameRule, ⟨(c :: w').length, [String.ofList (c :: w')]⟩) := by
    have hbefore : ∀ r ∈ [blankRule, stringRule],
        r.regex.search? r.groups (c :: w' ++ rest) = none := by
      simp [search?_blankRule, search?_stringRule, hblank, Ne.symm hquote]
    refine firstMatch?_append hbefore ?_ [equalsRule, tagRule ">" "main" 0, tagRule "/>" "main" 0]
    rw [search?_nameRule, takeWhile_append_of_head? hw hrest, if_neg hne]
  have h := lexes_of_firstMatch state_inside hmatch rfl (Nat.succ_pos _) (List.cons_ne_nil _ _)
  rwa [List.drop_left] at h

theorem lexes_equals (rest : List Char) :
    lexer.Lexes 1 ('=' :: rest) [.bare "="] 1 rest := by
  have hmatch : firstMatch? insideRules ('=' :: rest) = some (equalsRule, ⟨1, []⟩) := by
    have hblank : blankChar.holds '=' = false := by decide
    have hname : nameChar.holds '=' = false := by decide
    simp [firstMatch?, insideRules, search?_blankRule, search?_stringRule, search?_nameRule,
      search?_equalsRule, hblank, hname]
  exact lexes_of_firstMatch state_inside hmatch rfl Nat.one_pos (List.cons_ne_nil _ _)

theorem lexes_end (rest : List Char) :
    lexer.Lexes 1 ('>' :: rest) [.bare ">"] 0 rest := by
  have hmatch : firstMatch? insideRules ('>' :: rest) = some (tagRule ">" "main" 0, ⟨1, []⟩) := by
    have hblank : blankChar.holds '>' = false := by decide
    have hname : nameChar.holds '>' = false := by decide
    simp [firstMatch?, insideRules, search?_blankRule, search?_stringRule, search?_nameRule,
      search?_equalsRule, search?_tagRule, hblank, hname]
  exact lexes_of_firstMatch state_inside hmatch rfl Nat.one_pos (List.cons_ne_nil _ _)

theorem lexes_selfClosing (rest : List Char) :
    lexer.Lexes 1 ('/' :: '>' :: rest) [.bare "/>"] 0 rest := by
  have hmatch : firstMatch? insideRules ('/' :: '>' :: rest) =
      some (tagRule "/>" "main" 0, ⟨2, []⟩) := by
    have hblank : blankChar.holds '/' = false := by decide
    have hname : nameChar.holds '/' = false := by decide
    simp [firstMatch?, insideRules, search?_blankRule, search?_stringRule, search?_nameRule,
      search?_equalsRule, search?_tagRule, hblank, hname]
  exact lexes_of_firstMatch state_inside hmatch rfl Nat.two_pos (List.cons_ne_nil _ _)

end

end Xml

end ReversibleGrammar
