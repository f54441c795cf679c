/-!
# Sets of characters

Large sets of characters are written down by the borders of their runs, in ascending order: where
the first run begins, where it ends, where the second one begins, and so on.
-/
set_option autoImplicit false

namespace PageEditor.Text

/-- Whether a character lies in a run: an odd number of borders are at or before it. -/
def inRuns (borders : List Nat) (c : Char) : Bool :=
  (borders.takeWhile (· ≤ c.toNat)).length % 2 == 1

end PageEditor.Text
