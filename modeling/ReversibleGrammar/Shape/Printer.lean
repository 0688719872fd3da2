/-
The two texts of a shape: compact on one line, and spread over lines.

Objects show their fields in the order of their keys.  Strings escape quotation
marks, backslashes and control characters only; doubles are shortest decimals
with a point or an exponent, so that they read back as doubles.

Every printer writes in front of the text that follows, so that its work is
linear in the text it makes.
-/
import ReversibleGrammar.Decimal.Shortest
import ReversibleGrammar.Shape.Basic

namespace ReversibleGrammar

/-- Doubles keep `.0` when whole, have an exponent from `1e+16` and below `1e-05`, and show the
sign and at least two digits of an exponent. -/
def Number.style : Decimal.Style :=
  { leastPositional := -5
    greatestPositional := 15
    wholeEnd := ".0"
    plus := "+"
    exponentDigits := 2 }

/-- The text of a number. -/
def Number.write : Number → String
  | .integer value => toString value
  | .double value => Number.style.write value

/-- `n` as two hexadecimal digits. -/
def hexPair (n : Nat) : List Char :=
  [Nat.digitChar (n / 16), Nat.digitChar (n % 16)]

/-- The characters that stand for `c` inside a string of a shape. -/
def Shape.escapeChar (c : Char) : List Char :=
  match c with
  | '"' => ['\\', '"']
  | '\\' => ['\\', '\\']
  | '\x08' => ['\\', 'b']
  | '\x0c' => ['\\', 'f']
  | '\n' => ['\\', 'n']
  | '\r' => ['\\', 'r']
  | '\t' => ['\\', 't']
  | c => if c.toNat < 0x20 then ['\\', 'u', '0', '0'] ++ hexPair c.toNat else [c]

/-- A string between quotation marks, in front of `rest`. -/
def Shape.writeText (s : String) (rest : List Char) : List Char :=
  '"' :: s.toList.foldr (fun c rest => Shape.escapeChar c ++ rest) ('"' :: rest)

mutual

/-- The compact text of a shape, in front of `rest`. -/
def Shape.writeCompact : Shape → List Char → List Char
  | .null, rest => "null".toList ++ rest
  | .bool true, rest => "true".toList ++ rest
  | .bool false, rest => "false".toList ++ rest
  | .number value, rest => value.write.toList ++ rest
  | .text value, rest => Shape.writeText value rest
  | .list items, rest => '[' :: Shape.writeItems items true (']' :: rest)
  | .object fields, rest => '\x7b' :: Shape.writeFields fields true ('\x7d' :: rest)

/-- The items of a list, each but the first after a comma. -/
def Shape.writeItems : List Shape → Bool → List Char → List Char
  | [], _, rest => rest
  | item :: items, true, rest => item.writeCompact (Shape.writeItems items false rest)
  | item :: items, false, rest => ',' :: item.writeCompact (Shape.writeItems items false rest)

/-- The fields of an object, each but the first after a comma. -/
def Shape.writeFields : List (String × Shape) → Bool → List Char → List Char
  | [], _, rest => rest
  | (name, value) :: fields, true, rest =>
    Shape.writeText name (':' :: value.writeCompact (Shape.writeFields fields false rest))
  | (name, value) :: fields, false, rest =>
    ',' :: Shape.writeText name (':' :: value.writeCompact (Shape.writeFields fields false rest))

end

/-- The shape on one line without spaces. -/
def Shape.compact (shape : Shape) : String := String.ofList (shape.writeCompact [])

/-- A line break and two spaces per level. -/
def lineStart (level : Nat) (rest : List Char) : List Char :=
  '\n' :: List.replicate (2 * level) ' ' ++ rest

mutual

/-- The spread text of a shape at a nesting level, in front of `rest`. -/
def Shape.writePretty : Shape → Nat → List Char → List Char
  | .list [], _, rest => '[' :: ']' :: rest
  | .list (item :: items), level, rest =>
    '[' :: Shape.spreadItems (item :: items) true (level + 1) (lineStart level (']' :: rest))
  | .object [], _, rest => '\x7b' :: '\x7d' :: rest
  | .object (field :: fields), level, rest =>
    '\x7b' :: Shape.spreadFields (field :: fields) true (level + 1)
      (lineStart level ('\x7d' :: rest))
  | .null, _, rest => "null".toList ++ rest
  | .bool true, _, rest => "true".toList ++ rest
  | .bool false, _, rest => "false".toList ++ rest
  | .number value, _, rest => value.write.toList ++ rest
  | .text value, _, rest => Shape.writeText value rest

/-- The items of a list, each on a line of its own. -/
def Shape.spreadItems : List Shape → Bool → Nat → List Char → List Char
  | [], _, _, rest => rest
  | item :: items, isFirst, level, rest =>
    (if isFirst then [] else [',']) ++
      lineStart level (item.writePretty level (Shape.spreadItems items false level rest))

/-- The fields of an object, each on a line of its own. -/
def Shape.spreadFields : List (String × Shape) → Bool → Nat → List Char → List Char
  | [], _, _, rest => rest
  | (name, value) :: fields, isFirst, level, rest =>
    (if isFirst then [] else [',']) ++
      lineStart level (Shape.writeText name
        (':' :: ' ' :: value.writePretty level (Shape.spreadFields fields false level rest)))

end

/-- The shape with every item and field on a line of its own, two spaces per level. -/
def Shape.pretty (shape : Shape) : String := String.ofList (shape.writePretty 0 [])

end ReversibleGrammar
