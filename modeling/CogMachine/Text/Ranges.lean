/-!
# Sets of characters as ranges

A set of code points is a list of inclusive ranges in ascending order. Searching stops at the first
range that starts above the code point.
-/

namespace CogMachine.Text

/-- **Membership** in an ascending list of inclusive ranges. -/
def inRanges : List (Nat × Nat) → Nat → Bool
  | [], _ => false
  | (first, last) :: rest, n =>
    if n < first then false else n ≤ last || inRanges rest n

end CogMachine.Text
