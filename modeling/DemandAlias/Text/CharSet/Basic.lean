/-!
# Sets of characters

Sets made from ranges of characters by the operations on sets.
-/

namespace DemandAlias.Text

/-- A set of characters. -/
inductive CharSet where
  | empty
  /-- The characters from `first` to `last`. -/
  | range (first last : Char)
  | union (a b : CharSet)
  | inter (a b : CharSet)
  /-- The characters of `a` that are not in `b`. -/
  | diff (a b : CharSet)
  /-- The characters in one of two sets and not in both. -/
  | symmDiff (a b : CharSet)
  /-- The characters that are not in `a`. -/
  | compl (a : CharSet)
  deriving DecidableEq, Inhabited

namespace CharSet

/-- Whether `c` is in the set. -/
def contains (c : Char) : CharSet → Bool
  | .empty => false
  | .range first last => first ≤ c && c ≤ last
  | .union a b => a.contains c || b.contains c
  | .inter a b => a.contains c && b.contains c
  | .diff a b => a.contains c && !b.contains c
  | .symmDiff a b => a.contains c != b.contains c
  | .compl a => !a.contains c

/-- Only `c`. -/
def single (c : Char) : CharSet := .range c c

/-- Every character but the end of a line. -/
def notNewline : CharSet := .compl (.single '\n')

/-- The characters in one of some ranges. -/
def ofRanges (ranges : List (Char × Char)) : CharSet :=
  ranges.foldr (fun (first, last) rest => .union (.range first last) rest) .empty

end CharSet

end DemandAlias.Text
