/-!
# Ranges of characters

A property of characters that has no formula is given as a list of ranges of code points, ends
included, in ascending order.
-/

namespace Provenance.Text

/-- Whether a character lies in one of the ranges. -/
def inRanges (ranges : List (Nat × Nat)) (c : Char) : Bool :=
  ranges.any fun (first, last) => first ≤ c.toNat && c.toNat ≤ last

end Provenance.Text
