/-!
# Sets of characters given by ranges of code points

A Unicode property is a finite union of intervals of code points. `Ranges` holds such a union as a
list of closed intervals, and `Ranges.contains` decides membership.
-/

namespace Mixin.Text

/-- A set of characters: closed intervals of code points, in increasing order. -/
abbrev Ranges := List (Nat × Nat)

/-- Whether the code point of `c` lies in one of the intervals. -/
def Ranges.contains (ranges : Ranges) (c : Char) : Bool :=
  ranges.any fun r => r.1 ≤ c.toNat && c.toNat ≤ r.2

theorem Ranges.contains_iff {ranges : Ranges} {c : Char} :
    ranges.contains c = true ↔ ∃ r ∈ ranges, r.1 ≤ c.toNat ∧ c.toNat ≤ r.2 := by
  simp [Ranges.contains, List.any_eq_true]

end Mixin.Text
