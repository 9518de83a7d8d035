/-!
# Ranges of code points

Properties of characters that no rule describes are given by tables: the ranges of
code points that have the property, in ascending order.
-/

namespace DemandAlias.Text

/-- Ranges of code points, each by its first and its last one. -/
abbrev CodeRanges := List (Nat × Nat)

namespace CodeRanges

/-- Whether `n` is in one of the ranges. Those above `n` are not looked at. -/
def contains (n : Nat) : CodeRanges → Bool
  | [] => false
  | (first, last) :: rest => first ≤ n && (n ≤ last || contains n rest)

end CodeRanges

end DemandAlias.Text
