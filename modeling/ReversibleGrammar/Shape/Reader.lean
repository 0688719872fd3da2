/-
Reading a shape from its JSON text.

The reader takes the text of one value with white space around it.  Whole
numbers of 64 bits stay whole; any other number is a double.  Its digits are
read into 64 bits, further digits only count as places, and the result is
scaled by a power of ten, each step rounded to the nearest double.

Two steps of recursion at most pass between two characters, so the length of the
text bounds the depth.
-/
import ReversibleGrammar.Shape.Basic
import ReversibleGrammar.Text.Numeral

namespace ReversibleGrammar.Shape

/-- The white space of JSON. -/
def isSpace (c : Char) : Bool := c = ' ' || c = '\n' || c = '\r' || c = '\t'

/-- The text from its first character that is no white space. -/
def skipSpace (cs : List Char) : List Char := cs.dropWhile isSpace

/-- The value of four hexadecimal digits. -/
def hexCode? (a b c d : Char) : Option Nat := do
  let a ← Text.hexDigit? a
  let b ← Text.hexDigit? b
  let c ← Text.hexDigit? c
  let d ← Text.hexDigit? d
  pure (((a * 16 + b) * 16 + c) * 16 + d)

/-- The code point of a high and a low surrogate. -/
def joinSurrogates (high low : Nat) : Nat := 0x10000 + (high - 0xD800) * 0x400 + (low - 0xDC00)

/-- The character that a one-letter escape stands for. -/
def unescape? : Char → Option Char
  | '"' => some '"'
  | '\\' => some '\\'
  | '/' => some '/'
  | 'b' => some '\x08'
  | 'f' => some '\x0c'
  | 'n' => some '\n'
  | 'r' => some '\r'
  | 't' => some '\t'
  | _ => none

/-- The rest of a string after its opening quotation mark, where `done` holds the characters
before, last first; and the text after the string. -/
def readText? (done : List Char) : List Char → Option (String × List Char)
  | '"' :: rest => some (String.ofList done.reverse, rest)
  | '\\' :: 'u' :: a :: b :: c :: d :: rest =>
    match hexCode? a b c d with
    | none => none
    | some code =>
      if 0xD800 ≤ code && code < 0xDC00 then
        match rest with
        | '\\' :: 'u' :: e :: f :: g :: h :: rest =>
          match hexCode? e f g h with
          | none => none
          | some low =>
            if 0xDC00 ≤ low && low < 0xE000 then
              readText? (Char.ofNat (joinSurrogates code low) :: done) rest
            else none
        | _ => none
      else if 0xDC00 ≤ code && code < 0xE000 then none
      else readText? (Char.ofNat code :: done) rest
  | '\\' :: c :: rest =>
    match unescape? c with
    | some c => readText? (c :: done) rest
    | none => none
  | c :: rest => if c.toNat < 0x20 then none else readText? (c :: done) rest
  | [] => none

/-- One more than the greatest 64-bit natural. -/
def wordLimit : Nat := Nat.pow 2 64

/-- Reads digits into `value` while it stays below 64 bits: the value, how many digits it took,
how many more there were, and the text after them. -/
def readDigits (value taken dropped : Nat) : List Char → Nat × Nat × Nat × List Char
  | [] => (value, taken, dropped, [])
  | c :: rest =>
    if '0' ≤ c ∧ c ≤ '9' then
      let next := value * 10 + (c.toNat - '0'.toNat)
      if dropped = 0 ∧ next < wordLimit then readDigits next (taken + 1) 0 rest
      else readDigits value taken (dropped + 1) rest
    else (value, taken, dropped, c :: rest)

/-- An exponent after its mark, and the text after it. -/
def readExponent? (cs : List Char) : Option (Int × List Char) :=
  let (sign, cs) : Int × List Char := match cs with
    | '+' :: rest => (1, rest)
    | '-' :: rest => (-1, rest)
    | rest => (1, rest)
  let digits := cs.takeWhile Char.isDigit
  if digits.isEmpty then none
  else
    let value := digits.foldl (fun n c => n * 10 + (c.toNat - '0'.toNat)) 0
    some (sign * value, cs.drop digits.length)

/-- `± significand · 10 ^ exponent` as a double. -/
def double? (negative : Bool) (significand : Nat) (exponent : Int) : Option Number := do
  let whole ← Decimal.Double.ofRatio? false significand 1
  let scaled ← whole.scaleByTen? exponent
  pure (.double { scaled with negative })

/-- A number after its sign, and the text after it. -/
def readNumber? (negative : Bool) (cs : List Char) : Option (Shape × List Char) := do
  let (whole, taken, dropped, rest) := readDigits 0 0 0 cs
  if taken = 0 then none
  if cs.head? = some '0' ∧ 1 < taken then none
  let (significand, exponent, fractional, rest) ← match rest with
    | '.' :: rest =>
      if dropped = 0 then
        let (value, places, more, after) := readDigits whole 0 0 rest
        if places + more = 0 then none
        else pure (value, -(places : Int), true, after)
      else
        let digits := rest.takeWhile Char.isDigit
        if digits.isEmpty then none
        else pure (whole, (dropped : Int), true, rest.drop digits.length)
    | rest => pure (whole, (dropped : Int), decide (0 < dropped), rest)
  let scaled (exponent : Int) (rest : List Char) : Option (Shape × List Char) := do
    let value ← double? negative significand exponent
    pure (.number value, rest)
  match rest with
  | 'e' :: rest | 'E' :: rest =>
    let (power, rest) ← readExponent? rest
    scaled (exponent + power) rest
  | rest =>
    if fractional then scaled exponent rest
    else if negative then
      if significand = 0 ∨ Nat.pow 2 63 < significand then scaled 0 rest
      else pure (.number (.integer (-(significand : Int))), rest)
    else pure (.number (.integer significand), rest)

/-- Takes `word` off the text. -/
def readWord? (word : String) (value : Shape) (cs : List Char) : Option (Shape × List Char) :=
  if word.toList.isPrefixOf cs then some (value, cs.drop word.length) else none

mutual

/-- A value at the start of a text, and the text after it. -/
def readValue? : Nat → List Char → Option (Shape × List Char)
  | 0, _ => none
  | depth + 1, cs =>
    match cs with
    | '"' :: rest => (readText? [] rest).map fun (s, rest) => (.text s, rest)
    | '[' :: rest =>
      match skipSpace rest with
      | ']' :: rest => some (.list [], rest)
      | rest => readItems? depth [] rest
    | '\x7b' :: rest =>
      match skipSpace rest with
      | '\x7d' :: rest => some (.object [], rest)
      | rest => readFields? depth [] rest
    | '-' :: rest => readNumber? true rest
    | 't' :: _ => readWord? "true" (.bool true) cs
    | 'f' :: _ => readWord? "false" (.bool false) cs
    | 'n' :: _ => readWord? "null" .null cs
    | cs => readNumber? false cs

/-- The items of a list from the one at the start, after those in `done`, last first. -/
def readItems? : Nat → List Shape → List Char → Option (Shape × List Char)
  | 0, _, _ => none
  | depth + 1, done, cs =>
    match readValue? depth (skipSpace cs) with
    | none => none
    | some (item, rest) =>
      match skipSpace rest with
      | ',' :: rest => readItems? depth (item :: done) rest
      | ']' :: rest => some (.list (item :: done).reverse, rest)
      | _ => none

/-- The fields of an object from the one at the start, after those in `done`. -/
def readFields? : Nat → Fields → List Char → Option (Shape × List Char)
  | 0, _, _ => none
  | depth + 1, done, cs =>
    match skipSpace cs with
    | '"' :: rest =>
      match readText? [] rest with
      | none => none
      | some (key, rest) =>
        match skipSpace rest with
        | ':' :: rest =>
          match readValue? depth (skipSpace rest) with
          | none => none
          | some (value, rest) =>
            match skipSpace rest with
            | ',' :: rest => readFields? depth (Fields.insert key value done) rest
            | '\x7d' :: rest => some (.object (Fields.insert key value done), rest)
            | _ => none
        | _ => none
    | _ => none

end

/-- The shape that a text describes, if it describes one. -/
def read? (text : String) : Option Shape :=
  let cs := skipSpace text.toList
  match readValue? (2 * cs.length + 2) cs with
  | some (shape, rest) => if (skipSpace rest).isEmpty then some shape else none
  | none => none

end ReversibleGrammar.Shape
