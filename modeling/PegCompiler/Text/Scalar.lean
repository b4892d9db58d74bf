/-!
# Ranges of scalar values

A property of characters is given by a list of ranges, each with its first and last member.
-/

namespace PegCompiler.Text

/-- Whether the scalar value of `c` lies in one of `ranges`. -/
def inRanges (ranges : List (Nat × Nat)) (c : Char) : Bool :=
  ranges.any fun r => r.1 ≤ c.toNat && c.toNat ≤ r.2

end PegCompiler.Text
