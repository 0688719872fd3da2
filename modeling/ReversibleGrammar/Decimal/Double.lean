/-
Double-precision numbers, exactly.

A finite double is `± significand · 2 ^ exponent`.  Kept in normal form — fewer
than 54 bits, and either the exponent is least or the 53rd bit is set — equal
parts mean equal numbers, the two zeros apart.

* `roundQuotient` — a quotient to the nearest integer, ties to even;
* `two_mul_roundQuotient_le`, `le_two_mul_roundQuotient` — it is within half a unit;
* `Double.ofRatio?` — the double nearest to a quotient, if it is in range.

Nothing here computes with machine floats, so every operation reduces.
-/

namespace ReversibleGrammar.Decimal

/-- A finite double: `significand · 2 ^ exponent`, negated if `negative`. -/
structure Double where
  negative : Bool
  significand : Nat
  exponent : Int
  deriving DecidableEq, Repr, Inhabited

/-- The least binary exponent of a double. -/
def leastExponent : Int := -1074

/-- The greatest binary exponent of a double. -/
def greatestExponent : Int := 971

/-- `num / den` as an integer: the nearest one, and the even one of two. -/
def roundQuotient (num den : Nat) : Nat :=
  let quotient := num / den
  let twice := 2 * (num % den)
  if twice < den then quotient
  else if den < twice then quotient + 1
  else if quotient % 2 = 0 then quotient else quotient + 1

theorem two_mul_roundQuotient_le (num : Nat) {den : Nat} (h : 0 < den) :
    2 * (roundQuotient num den * den) ≤ 2 * num + den := by
  have hd : den * (num / den) + num % den = num := Nat.div_add_mod num den
  have hm : num % den < den := Nat.mod_lt num h
  have hq : num / den * den = den * (num / den) := Nat.mul_comm _ _
  have hs : (num / den + 1) * den = den * (num / den) + den := by
    rw [Nat.add_mul, hq, Nat.one_mul]
  unfold roundQuotient
  dsimp only
  split
  · omega
  · split
    · omega
    · split <;> omega

theorem le_two_mul_roundQuotient (num : Nat) {den : Nat} (h : 0 < den) :
    2 * num ≤ 2 * (roundQuotient num den * den) + den := by
  have hd : den * (num / den) + num % den = num := Nat.div_add_mod num den
  have hm : num % den < den := Nat.mod_lt num h
  have hq : num / den * den = den * (num / den) := Nat.mul_comm _ _
  have hs : (num / den + 1) * den = den * (num / den) + den := by
    rw [Nat.add_mul, hq, Nat.one_mul]
  unfold roundQuotient
  dsimp only
  split
  · omega
  · split
    · omega
    · split <;> omega

/-- `num / den / 2 ^ exponent` as a quotient of naturals. -/
def scaleDown (num den : Nat) (exponent : Int) : Nat × Nat :=
  if 0 ≤ exponent then (num, den * Nat.pow 2 exponent.toNat)
  else (num * Nat.pow 2 (-exponent).toNat, den)

/-- The binary exponent that a quotient needs for 53 bits, no less than the least one. -/
def exponentFor (num den : Nat) : Int :=
  let guess : Int := (Nat.log2 num : Int) - Nat.log2 den - 52
  let (n, d) := scaleDown num den guess
  let exponent := if n / d < Nat.pow 2 52 then guess - 1 else guess
  if exponent < leastExponent then leastExponent else exponent

namespace Double

/-- Positive or negative zero. -/
def zero (negative : Bool) : Double := ⟨negative, 0, leastExponent⟩

/-- The double nearest to `num / den`, ties to the even one; none if it is out of range. -/
def ofRatio? (negative : Bool) (num den : Nat) : Option Double :=
  if num = 0 then some (zero negative)
  else
    let exponent := exponentFor num den
    let (n, d) := scaleDown num den exponent
    let significand := roundQuotient n d
    let (significand, exponent) :=
      if significand = Nat.pow 2 53 then (Nat.pow 2 52, exponent + 1) else (significand, exponent)
    if greatestExponent < exponent then none else some ⟨negative, significand, exponent⟩

/-- The absolute value as a quotient of naturals. -/
def ratio (x : Double) : Nat × Nat :=
  if 0 ≤ x.exponent then (x.significand * Nat.pow 2 x.exponent.toNat, 1)
  else (x.significand, Nat.pow 2 (-x.exponent).toNat)

/-- The product, rounded; none if it is out of range. -/
def mul? (x y : Double) : Option Double :=
  let (xn, xd) := x.ratio
  let (yn, yd) := y.ratio
  ofRatio? (x.negative != y.negative) (xn * yn) (xd * yd)

/-- The quotient, rounded; none if it is out of range or the divisor is zero. -/
def div? (x y : Double) : Option Double :=
  if y.significand = 0 then none
  else
    let (xn, xd) := x.ratio
    let (yn, yd) := y.ratio
    ofRatio? (x.negative != y.negative) (xn * yd) (xd * yn)

/-- Equal as numbers: the two zeros are equal. -/
def equals (x y : Double) : Bool :=
  x == y || (x.significand == 0 && y.significand == 0)

theorem equals_self (x : Double) : x.equals x = true := by simp [equals]

/-- The power of ten, rounded; none if it is out of range. -/
def powerOfTen? (exponent : Nat) : Option Double := ofRatio? false (Nat.pow 10 exponent) 1

/-- The greatest power of ten in range. -/
def greatestPowerOfTen : Nat := 308

/-- `x · 10 ^ exponent`, with one rounding for the power and one for the product or
quotient; an exponent below the range of powers is worked off in several quotients.
None if the number is out of range. -/
def scaleByTen? (x : Double) (exponent : Int) : Option Double :=
  if _h : exponent < -greatestPowerOfTen then
    if x.significand = 0 then some x
    else do
      let power ← powerOfTen? greatestPowerOfTen
      let y ← x.div? power
      y.scaleByTen? (exponent + greatestPowerOfTen)
  else if exponent < 0 then do
    let power ← powerOfTen? (-exponent).toNat
    x.div? power
  else if exponent ≤ greatestPowerOfTen then do
    let power ← powerOfTen? exponent.toNat
    x.mul? power
  else if x.significand = 0 then some x
  else none
termination_by (-exponent).toNat
decreasing_by simp only [greatestPowerOfTen] at *; omega

end Double

end ReversibleGrammar.Decimal
