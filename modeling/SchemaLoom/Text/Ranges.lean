/-!
# Ranges of code points

A set of characters as a list of ranges of code points, both ends included.
-/

namespace SchemaLoom

/-- Whether a character lies in one of the ranges. -/
def inRanges (ranges : List (Nat × Nat)) (c : Char) : Bool :=
  ranges.any fun r => decide (r.1 ≤ c.toNat) && decide (c.toNat ≤ r.2)

end SchemaLoom
