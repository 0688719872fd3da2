/-
Reading regular expressions.

An expression is read with literal characters, escapes, classes, groups,
alternation, repetition, the assertions on places, and the flags `i`, `s` and `m`
for case, for the dot and line breaks, and for the ends of lines.  Flags count
from where they stand to the end of their group.

Two steps of recursion at most pass between two characters, so the length of the
expression bounds the depth.

* `Regex.read?` — the expression that a text describes, if it describes one, and
  the number of its capture groups.
-/
import ReversibleGrammar.Regex.Basic
import ReversibleGrammar.Text.Numeral

namespace ReversibleGrammar.Regex

/-- What counts where an expression is read. -/
structure Flags where
  caseless : Bool
  dotAll : Bool
  multiLine : Bool
  deriving DecidableEq, Repr, Inhabited

/-- The text still to be read, and what was read before it. -/
structure Reading where
  rest : List Char
  flags : Flags
  /-- The number of capture groups opened. -/
  groups : Nat
  names : List (List Char)
  deriving Repr, Inhabited

/-- The set, with case variants where case does not count. -/
def Flags.fold (flags : Flags) (chars : CharSet) : CharSet :=
  if flags.caseless then .caseless chars else chars

/-- The value of hexadecimal digits, if there are any and they stand for a character. -/
def hexChar? (cs : List Char) : Option Char := do
  let digits ← cs.mapM Text.hexDigit?
  if digits.isEmpty then none
  let value := digits.foldl (fun n d => n * 16 + d) 0
  if value.isValidChar then some (Char.ofNat value) else none

/-- The character of a hexadecimal escape: in braces, or of `width` digits. -/
def readHex? (width : Nat) (cs : List Char) : Option (Char × List Char) :=
  match cs with
  | '\x7b' :: cs =>
    match cs.dropWhile (· != '\x7d') with
    | _ :: rest => do pure (← hexChar? (cs.takeWhile (· != '\x7d')), rest)
    | [] => none
  | cs =>
    if width ≤ cs.length then do pure (← hexChar? (cs.take width), cs.drop width) else none

/-- Punctuation and other characters of ASCII that may follow a backslash and then stand for
themselves. -/
def isEscapable (c : Char) : Bool :=
  c.toNat < 0x80 && !c.isAlphanum && c != '<' && c != '>'

/-- What an escape stands for. -/
inductive Escape where
  | char (c : Char)
  | set (chars : CharSet)
  | assert (condition : Assertion)

/-- An escape after its backslash, and the text after it. -/
def readEscape? : List Char → Option (Escape × List Char)
  | [] => none
  | c :: cs =>
    let char (c : Char) : Option (Escape × List Char) := some (.char c, cs)
    let set (chars : CharSet) : Option (Escape × List Char) := some (.set chars, cs)
    let assert (condition : Assertion) : Option (Escape × List Char) := some (.assert condition, cs)
    match c with
    | 'd' => set .digit
    | 'D' => set (.complement .digit)
    | 'w' => set .word
    | 'W' => set (.complement .word)
    | 's' => set .space
    | 'S' => set (.complement .space)
    | 'b' => assert .wordBoundary
    | 'B' => assert .noWordBoundary
    | 'A' => assert .textStart
    | 'z' => assert .textEnd
    | '<' => assert .wordStart
    | '>' => assert .wordEnd
    | 'n' => char '\n'
    | 't' => char '\t'
    | 'r' => char '\r'
    | 'a' => char '\x07'
    | 'f' => char '\x0c'
    | 'v' => char '\x0b'
    | 'x' => (readHex? 2 cs).map fun (c, rest) => (.char c, rest)
    | 'u' => (readHex? 4 cs).map fun (c, rest) => (.char c, rest)
    | 'U' => (readHex? 8 cs).map fun (c, rest) => (.char c, rest)
    | c => if isEscapable c then char c else none

/-! ### Classes -/

/-- A character or a set inside a class, and the text after it. -/
def readClassItem? : List Char → Option (Escape × List Char)
  | [] => none
  | '\\' :: cs =>
    match readEscape? cs with
    | some (.assert _, _) => none
    | found => found
  | c :: cs => some (.char c, cs)

/-- An item of a class or a range between two characters, and the text after it. -/
def readClassRange? (cs : List Char) : Option (CharSet × List Char) := do
  let (first, rest) ← readClassItem? cs
  let alone : CharSet := match first with
    | .char c => .single c
    | .set chars => chars
    | .assert _ => .none
  match rest with
  | '-' :: ']' :: _ => pure (alone, rest)
  | '-' :: '-' :: _ => pure (alone, rest)
  | '-' :: after =>
    let (last, rest) ← readClassItem? after
    match first, last with
    | .char first, .char last => if first ≤ last then pure (.range first last, rest) else none
    | _, _ => none
  | rest => pure (alone, rest)

/-- The dashes at the start of a class, and a bracket directly after its start, stand for
themselves. -/
def readClassStart (cs : List Char) : CharSet × List Char :=
  match cs with
  | ']' :: rest => (.single ']', rest)
  | '-' :: rest => (.single '-', rest.dropWhile (· == '-'))
  | rest => (.none, rest)

/-- The items of a class up to its closing bracket, added to `chars`, and the text after it. -/
def readClass? (negated : Bool) : Nat → CharSet → List Char → Option (CharSet × List Char)
  | 0, _, _ => none
  | depth + 1, chars, cs =>
    match cs with
    | [] => none
    | ']' :: rest => some (if negated then .complement chars else chars, rest)
    | '[' :: rest => do
      let (negatedInner, rest) := match rest with
        | '^' :: rest => (true, rest)
        | rest => (false, rest)
      let (start, rest) := readClassStart rest
      let (inner, rest) ← readClass? negatedInner depth start rest
      readClass? negated depth (.union chars inner) rest
    | '&' :: '&' :: _ | '-' :: '-' :: _ | '~' :: '~' :: _ => none
    | cs => do
      let (item, rest) ← readClassRange? cs
      readClass? negated depth (.union chars item) rest

/-- A class after its opening bracket, and the text after it. -/
def readWholeClass? (flags : Flags) (cs : List Char) : Option (CharSet × List Char) := do
  let (negated, cs) := match cs with
    | '^' :: rest => (true, rest)
    | rest => (false, rest)
  let (start, cs) := readClassStart cs
  let (chars, rest) ← readClass? false (cs.length + 1) start cs
  let chars := flags.fold chars
  pure (if negated then .complement chars else chars, rest)

/-! ### Repetition -/

/-- A number with white space around it, and the text after it. -/
def readCount? (cs : List Char) : Option (Nat × List Char) :=
  let cs := cs.dropWhile Text.isBlank
  let digits := cs.takeWhile Char.isDigit
  let value := digits.foldl (fun n c => n * 10 + (c.toNat - '0'.toNat)) 0
  if digits.isEmpty || Nat.pow 2 32 ≤ value then none
  else some (value, (cs.drop digits.length).dropWhile Text.isBlank)

/-- The bounds of a repetition after its opening brace, and the text after it. -/
def readBounds? (cs : List Char) : Option (Nat × Option Nat × List Char) := do
  let (min, rest) ← readCount? cs
  match rest with
  | '\x7d' :: rest => pure (min, some min, rest)
  | ',' :: '\x7d' :: rest => pure (min, none, rest)
  | ',' :: rest =>
    let (max, rest) ← readCount? rest
    match rest with
    | '\x7d' :: rest => if min ≤ max then pure (min, some max, rest) else none
    | _ => none
  | _ => none

/-- A question mark after a repetition makes it lazy. -/
def readGreed : List Char → Bool × List Char
  | '?' :: rest => (false, rest)
  | rest => (true, rest)

/-- The repetitions that follow an expression, and the text after them. -/
def readRepeats? : Nat → Regex → List Char → Option (Regex × List Char)
  | 0, _, _ => none
  | depth + 1, r, cs =>
    let repeated (min : Nat) (max : Option Nat) (rest : List Char) :
        Option (Regex × List Char) :=
      let (greedy, rest) := readGreed rest
      readRepeats? depth (.loop r min max greedy) rest
    match cs with
    | '*' :: rest => repeated 0 none rest
    | '+' :: rest => repeated 1 none rest
    | '?' :: rest => repeated 0 (some 1) rest
    | '\x7b' :: rest => do
      let (min, max, rest) ← readBounds? rest
      repeated min max rest
    | rest => some (r, rest)

/-! ### Groups -/

/-- May start the name of a group. -/
def isNameStart (c : Char) : Bool := c = '_' || (Text.isWord c && !Text.isDigit c)

/-- May stand in the name of a group. -/
def isNameRest (c : Char) : Bool := c = '.' || c = '[' || c = ']' || Text.isWord c

/-- The name of a group up to its closing bracket, and the text after it. -/
def readName? (cs : List Char) : Option (List Char × List Char) :=
  let name := cs.takeWhile (· != '>')
  match name, cs.drop name.length with
  | c :: more, _ :: rest =>
    if isNameStart c && more.all isNameRest then some (name, rest) else none
  | _, _ => none

/-- Sets or clears a flag. -/
def Flags.set? (flags : Flags) (value : Bool) : Char → Option Flags
  | 'i' => some { flags with caseless := value }
  | 's' => some { flags with dotAll := value }
  | 'm' => some { flags with multiLine := value }
  | 'u' => if value then some flags else none
  | _ => none

/-- Flags up to a closing parenthesis or a colon: the flags, whether a colon ended them, and the
text after them.  Each is given once, and after a minus at least one is cleared. -/
def readFlags? (flags : Flags) (value : Bool) (seen : List Char) :
    List Char → Option (Flags × Bool × List Char)
  | [] => none
  | c :: rest =>
    if c = ')' || c = ':' then
      if seen.head? = some '-' || (seen.isEmpty && c = ')') then none
      else some (flags, c = ':', rest)
    else if seen.contains c then none
    else if c = '-' then readFlags? flags false ('-' :: seen) rest
    else
      match flags.set? value c with
      | some flags => readFlags? flags value (c :: seen) rest
      | none => none

/-! ### Expressions -/

/-- What a dot matches. -/
def dot (flags : Flags) : CharSet :=
  if flags.dotAll then .complement .none else .complement (.single '\n')

mutual

/-- Alternatives up to a closing parenthesis or the end. -/
def readAlternation? : Nat → Reading → Option (Regex × Reading)
  | 0, _ => none
  | depth + 1, st => do
    let (left, st) ← readConcat? depth .empty st
    match st.rest with
    | '|' :: rest =>
      let (right, st) ← readAlternation? depth { st with rest }
      pure (.alternate left right, st)
    | _ => pure (left, st)

/-- The expressions after `done`, up to a bar, a closing parenthesis or the end. -/
def readConcat? : Nat → Regex → Reading → Option (Regex × Reading)
  | 0, _, _ => none
  | depth + 1, done, st =>
    match st.rest with
    | [] | '|' :: _ | ')' :: _ => some (done, st)
    | _ => do
      let (item, st) ← readItem? depth st
      match item with
      | none => readConcat? depth done st
      | some item =>
        let (item, rest) ← readRepeats? (st.rest.length + 1) item st.rest
        readConcat? depth (.concat done item) { st with rest }

/-- One expression without its repetitions; none for flags alone. -/
def readItem? : Nat → Reading → Option (Option Regex × Reading)
  | 0, _ => none
  | depth + 1, st =>
    let found (r : Regex) (rest : List Char) : Option (Option Regex × Reading) :=
      some (some r, { st with rest })
    let capture (st : Reading) : Option (Option Regex × Reading) := do
      let index := st.groups + 1
      let (content, after) ← readAlternation? depth { st with groups := index }
      match after.rest with
      | ')' :: rest => pure (some (.group index content), { after with rest, flags := st.flags })
      | _ => none
    let plain (flags : Flags) (rest : List Char) : Option (Option Regex × Reading) := do
      let (content, after) ← readAlternation? depth { st with rest, flags }
      match after.rest with
      | ')' :: rest => pure (some content, { after with rest, flags := st.flags })
      | _ => none
    let named (rest : List Char) : Option (Option Regex × Reading) := do
      let (name, rest) ← readName? rest
      if st.names.contains name then none
      else capture { st with rest, names := name :: st.names }
    match st.rest with
    | [] => none
    | '(' :: '?' :: 'P' :: '<' :: rest => named rest
    | '(' :: '?' :: '<' :: '=' :: _ | '(' :: '?' :: '<' :: '!' :: _ => none
    | '(' :: '?' :: '<' :: rest => named rest
    | '(' :: '?' :: rest => do
      let (flags, isGroup, rest) ← readFlags? st.flags true [] rest
      if isGroup then plain flags rest else pure (none, { st with rest, flags })
    | '(' :: rest => capture { st with rest }
    | '[' :: rest => do
      let (chars, rest) ← readWholeClass? st.flags rest
      found (.set chars) rest
    | '\\' :: rest => do
      let (escaped, rest) ← readEscape? rest
      match escaped with
      | .char c => found (.set (st.flags.fold (.single c))) rest
      | .set chars => found (.set chars) rest
      | .assert condition => found (.assert condition) rest
    | '.' :: rest => found (.set (dot st.flags)) rest
    | '^' :: rest => found (.assert (if st.flags.multiLine then .lineStart else .textStart)) rest
    | '$' :: rest => found (.assert (if st.flags.multiLine then .lineEnd else .textEnd)) rest
    | '*' :: _ | '+' :: _ | '?' :: _ | '\x7b' :: _ => none
    | c :: rest => found (.set (st.flags.fold (.single c))) rest

end

/-- The expression that a text describes, and the number of its groups. -/
def read? (cs : List Char) : Option (Regex × Nat) := do
  let (r, st) ← readAlternation? (2 * cs.length + 2) ⟨cs, ⟨false, false, false⟩, 0, []⟩
  if st.rest.isEmpty then pure (r, st.groups) else none

end ReversibleGrammar.Regex
