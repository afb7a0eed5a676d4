/-!
# Sets of characters as sorted ranges

A character class of the Unicode standard is a sorted table of disjoint ranges of code points,
and membership is a binary search in it.
-/

namespace Mooring.Text

/-- Disjoint ranges of code points, both ends included, in ascending order. -/
abbrev Ranges := Array (Nat × Nat)

/-- Binary search for `n` among the ranges with index in `[lo, hi)`. -/
def Ranges.search (ranges : Ranges) (n lo hi : Nat) : Bool :=
  if _h : lo < hi then
    let mid := (lo + hi) / 2
    match ranges[mid]? with
    | none => false
    | some (first, last) =>
      if n < first then ranges.search n lo mid
      else if last < n then ranges.search n (mid + 1) hi
      else true
  else false
termination_by hi - lo

/-- The character lies in one of the ranges. -/
def Ranges.contains (ranges : Ranges) (c : Char) : Bool :=
  ranges.search c.toNat 0 ranges.size

end Mooring.Text
