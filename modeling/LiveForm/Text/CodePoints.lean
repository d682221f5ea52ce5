/-!
# Sets of characters as ranges of code points

A property of characters is given as a list of closed ranges of code points, ascending and apart.
-/

set_option autoImplicit false

namespace LiveForm.Text

/-- Closed ranges of code points, ascending and apart. -/
abbrev CodePoints := List (Nat × Nat)

/-- Whether the code point of `c` lies in one of the ranges. -/
def CodePoints.contains (ranges : CodePoints) (c : Char) : Bool :=
  List.any ranges fun r => r.1 ≤ c.toNat && c.toNat ≤ r.2

end LiveForm.Text
