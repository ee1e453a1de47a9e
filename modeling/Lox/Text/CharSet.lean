/-!
# Sets of characters

A set of characters as the ranges of its code points. Properties of characters
that no rule describes are given in this form.
-/

namespace Lox.Text

/-- A set of characters: ranges of code points, both ends included, in
ascending order. -/
structure CharSet where
  ranges : List (Nat × Nat)

namespace CharSet

/-- Whether a character is in the set. -/
def contains (s : CharSet) (c : Char) : Bool :=
  s.ranges.any fun r => r.1 ≤ c.toNat && c.toNat ≤ r.2

/-- Whether ranges are in ascending order, all of them above a code point, with
a gap between any two. -/
def ascendsFrom (least : Nat) : List (Nat × Nat) → Bool
  | [] => true
  | (low, high) :: rest =>
      decide (least ≤ low) && decide (low ≤ high) && ascendsFrom (high + 2) rest

end CharSet

end Lox.Text
