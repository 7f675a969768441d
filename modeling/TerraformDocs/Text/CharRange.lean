/-!
# Character classes given by ranges

A class of characters that a standard lists by code point is a list of inclusive ranges.
-/

namespace TerraformDocs.Text

def inRanges (ranges : List (Nat × Nat)) (c : Char) : Bool :=
  ranges.any fun range => range.1 ≤ c.toNat && c.toNat ≤ range.2

theorem inRanges_iff {ranges : List (Nat × Nat)} {c : Char} :
    inRanges ranges c = true ↔ ∃ range ∈ ranges, range.1 ≤ c.toNat ∧ c.toNat ≤ range.2 := by
  simp [inRanges]

theorem inRanges_of_head {first : Nat × Nat} {others : List (Nat × Nat)} {c : Char}
    (lower : first.1 ≤ c.toNat) (upper : c.toNat ≤ first.2) :
    inRanges (first :: others) c = true := by
  simp [inRanges, lower, upper]

end TerraformDocs.Text
