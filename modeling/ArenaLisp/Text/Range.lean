/-!
# Ranges of code points

A property of characters is given by the increasing list of the ranges where it
holds.
-/

namespace ArenaLisp.Text

/--
Whether a code point lies in one of the ranges. The ranges increase, so the search
ends at the first that begins beyond the code point.
-/
def inRanges : List (Nat × Nat) → Nat → Bool
  | [], _ => false
  | (first, last) :: rest, c =>
    if c < first then false else if c ≤ last then true else inRanges rest c

end ArenaLisp.Text
