/-
Sets of characters as sorted ranges of code points.

`Ranges.holds` stops at the first range that starts beyond the character, so a
table must list its ranges in increasing order.
-/

namespace ReversibleGrammar.Text

/-- Closed ranges of code points, in increasing order. -/
abbrev Ranges := List (Nat × Nat)

/-- Code point `n` lies in one of the ranges. -/
def Ranges.holdsCode (n : Nat) : Ranges → Bool
  | [] => false
  | (first, last) :: rest => if n < first then false else n ≤ last || holdsCode n rest

theorem Ranges.holdsCode_cons {first last n : Nat} {rest : Ranges}
    (hfirst : first ≤ n) (hlast : n ≤ last) :
    Ranges.holdsCode n ((first, last) :: rest) = true := by
  simp [Ranges.holdsCode, Nat.not_lt.2 hfirst, hlast]

/-- Character `c` lies in one of the ranges. -/
def Ranges.holds (ranges : Ranges) (c : Char) : Bool := ranges.holdsCode c.toNat

end ReversibleGrammar.Text
