/-!
# Sets of code points

A set of code points is given by the ascending list of the points at which membership changes,
starting outside the set.
-/

namespace RelStore.Text

/-- A set of code points, as the ascending points where membership changes. -/
structure CodeSet where
  /-- The first point of each run of members, and the first point after it, in turn. -/
  changes : Array Nat

/-- A code point is a member if membership has changed an odd number of times up to it. -/
def CodeSet.contains (s : CodeSet) (c : Char) : Bool :=
  (s.changes.foldl (fun n point => if point ≤ c.toNat then n + 1 else n) 0) % 2 == 1

end RelStore.Text
