/-
The shortest decimal text of a double.

A double stands for every real that rounds to it: an interval around it, whose
ends belong to it when its significand is even.  For one, two, … seventeen
digits, `shortest` asks whether one of the two decimals next to the double on
the grid of that many digits lies in the interval, and takes the nearer one of
the first grid that has one.

* `Style` — where positional notation ends and how an exponent is written;
* `Style.write` — the text of a double in a style.
-/
import ReversibleGrammar.Decimal.Double

namespace ReversibleGrammar.Decimal

/-- The reals that round to a double, over one denominator. -/
structure Interval where
  low : Nat
  value : Nat
  high : Nat
  den : Nat
  closed : Bool
  deriving Repr

/-- The interval of a positive double: half a unit to each side, and only a quarter below a
power of two, where the doubles are twice as dense. -/
def Double.interval (x : Double) : Interval :=
  let below := if x.significand = Nat.pow 2 52 && leastExponent < x.exponent then 1 else 2
  let (scale, den) :=
    if 0 ≤ x.exponent then (Nat.pow 2 x.exponent.toNat, 4)
    else (1, 4 * Nat.pow 2 (-x.exponent).toNat)
  { low := (4 * x.significand - below) * scale
    value := 4 * x.significand * scale
    high := (4 * x.significand + 2) * scale
    den := den
    closed := x.significand % 2 = 0 }

/-- `num / den` lies in the interval. -/
def Interval.holds (i : Interval) (num den : Nat) : Bool :=
  let here := num * i.den
  let low := i.low * den
  let high := i.high * den
  if i.closed then low ≤ here && here ≤ high else low < here && here < high

/-- A decimal `digits · 10 ^ exponent`. -/
structure Scientific where
  digits : Nat
  exponent : Int
  deriving DecidableEq, Repr

/-- `digits · 10 ^ exponent` as a quotient of naturals. -/
def Scientific.ratio (d : Scientific) : Nat × Nat :=
  if 0 ≤ d.exponent then (d.digits * Nat.pow 10 d.exponent.toNat, 1)
  else (d.digits, Nat.pow 10 (-d.exponent).toNat)

/-- The decimal below or at the value of an interval, on the grid of step `10 ^ exponent`. -/
def Interval.floorAt (i : Interval) (exponent : Int) : Scientific :=
  if 0 ≤ exponent then ⟨i.value / (i.den * Nat.pow 10 exponent.toNat), exponent⟩
  else ⟨i.value * Nat.pow 10 (-exponent).toNat / i.den, exponent⟩

/-- `a` is at most as far from the value of the interval as `b`, where `a` lies below it. -/
def Interval.nearerBelow (i : Interval) (a b : Scientific) : Bool :=
  let (an, ad) := a.ratio
  let (bn, bd) := b.ratio
  -- value - a ≤ b - value, over the common denominator `den · ad · bd`
  2 * i.value * ad * bd ≤ (an * bd + bn * ad) * i.den

/-- The nearer of the two neighbours of the value on a grid that lie in the interval. -/
def Interval.pick? (i : Interval) (exponent : Int) : Option Scientific :=
  let below := i.floorAt exponent
  let above : Scientific := ⟨below.digits + 1, exponent⟩
  let inside (d : Scientific) : Bool := i.holds d.ratio.1 d.ratio.2
  match inside below, inside above with
  | true, true => if i.nearerBelow below above then some below else some above
  | true, false => some below
  | false, true => some above
  | false, false => none

/-- The number of digits before the point of `num / den`, zero or less below one tenth. -/
def magnitude (num den : Nat) : Int :=
  if den ≤ num then (Nat.toDigits 10 (num / den)).length
  else
    let scale := (Nat.toDigits 10 (den / num)).length
    if den ≤ num * Nat.pow 10 (scale - 1) then 2 - (scale : Int) else 1 - (scale : Int)

/-- Moves the zeros at the end of the digits into the exponent. -/
def Scientific.trim (d : Scientific) : Scientific :=
  if d.digits = 0 then d
  else if d.digits % 10 = 0 then trim ⟨d.digits / 10, d.exponent + 1⟩ else d
termination_by d.digits
decreasing_by all_goals omega

/-- The decimal with the fewest digits that lies in the interval, and the nearest of those. -/
def Interval.shortest (i : Interval) : Scientific :=
  let top := magnitude i.value i.den
  let grids := (List.range 17).map fun n => top - (n + 1 : Nat)
  match grids.findSome? i.pick? with
  | some d => d.trim
  | none => i.floorAt (top - 17)

/-- How doubles are written. -/
structure Style where
  /-- The least decimal exponent of the first digit in positional notation. -/
  leastPositional : Int
  /-- The greatest decimal exponent of the first digit in positional notation. -/
  greatestPositional : Int
  /-- What a whole number ends with in positional notation. -/
  wholeEnd : String
  /-- What stands before an exponent that is not negative. -/
  plus : String
  /-- The least number of digits of an exponent. -/
  exponentDigits : Nat

/-- `n` with zeros in front, to at least `width` digits. -/
def padded (width n : Nat) : List Char :=
  let digits := Nat.toDigits 10 n
  List.replicate (width - digits.length) '0' ++ digits

/-- The text of a positive decimal. -/
def Style.writeScientific (f : Style) (d : Scientific) : List Char :=
  let digits := Nat.toDigits 10 d.digits
  let first : Int := d.exponent + digits.length - 1
  if f.leastPositional ≤ first && first ≤ f.greatestPositional then
    if 0 ≤ d.exponent then
      digits ++ List.replicate d.exponent.toNat '0' ++ f.wholeEnd.toList
    else if 0 ≤ first then
      digits.take (first.toNat + 1) ++ '.' :: digits.drop (first.toNat + 1)
    else '0' :: '.' :: List.replicate (-first - 1).toNat '0' ++ digits
  else
    let mantissa := match digits with
      | [one] => [one]
      | one :: more => one :: '.' :: more
      | [] => []
    let sign := if first < 0 then ['-'] else f.plus.toList
    mantissa ++ 'e' :: sign ++ padded f.exponentDigits first.natAbs

/-- The text of a double. -/
def Style.write (f : Style) (x : Double) : String :=
  let sign := if x.negative then ['-'] else []
  let body :=
    if x.significand = 0 then '0' :: f.wholeEnd.toList
    else f.writeScientific x.interval.shortest
  String.ofList (sign ++ body)

end ReversibleGrammar.Decimal
