/-! # Character classes as ranges of code points

A property of characters is a list of inclusive ranges in ascending order.
-/

namespace ExactLinear.Text

/-- The character lies in one of the ranges, both ends included. -/
def inRanges (ranges : List (Nat × Nat)) (c : Char) : Bool :=
  ranges.any fun r => r.1 ≤ c.toNat && c.toNat ≤ r.2

end ExactLinear.Text
