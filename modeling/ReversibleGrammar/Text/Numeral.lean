/-
Numerals: naturals of 64 bits written in decimal digits, with an optional plus,
and the digits of hexadecimal numerals.
-/

namespace ReversibleGrammar.Text

/-- One more than the greatest natural that a numeral may stand for. -/
def naturalLimit : Nat := Nat.pow 2 64

/-- The value of decimal digits. -/
def digitsValue (cs : List Char) : Nat :=
  cs.foldl (fun value c => value * 10 + (c.toNat - '0'.toNat)) 0

/-- The number that decimal digits stand for, if there are any and it has 64 bits. -/
def readDigits? (cs : List Char) : Option Nat :=
  if cs.isEmpty || !cs.all Char.isDigit then none
  else if digitsValue cs < naturalLimit then some (digitsValue cs) else none

/-- The number that a numeral stands for. -/
def natural? (s : String) : Option Nat :=
  match s.toList with
  | '+' :: cs => readDigits? cs
  | cs => readDigits? cs

/-- The value of a hexadecimal digit. -/
def hexDigit? (c : Char) : Option Nat :=
  if '0' ≤ c ∧ c ≤ '9' then some (c.toNat - '0'.toNat)
  else if 'a' ≤ c ∧ c ≤ 'f' then some (c.toNat - 'a'.toNat + 10)
  else if 'A' ≤ c ∧ c ≤ 'F' then some (c.toNat - 'A'.toNat + 10)
  else none

end ReversibleGrammar.Text
