/-!
# Sets of characters as runs

A set of characters is listed by the lengths of its runs: how many code points are outside, how many
are inside, how many are outside again, and so on.
-/

namespace Idl.Text

/-- Whether the number is in one of the runs that are inside. -/
def inRuns : List Nat → Nat → Bool
  | outside :: inside :: runs, n =>
    if n < outside then false
    else n < outside + inside || inRuns runs (n - (outside + inside))
  | _, _ => false

end Idl.Text
