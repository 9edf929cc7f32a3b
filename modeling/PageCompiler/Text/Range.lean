/-!
# Ranges of characters

Classes of characters given as sorted, disjoint ranges of code points, and a search in them.
-/

namespace PageCompiler.Text

/-- The ranges that follow `start`, from their lengths: by turns how many characters are outside the class and
how many are in it. -/
def rangesFrom (start : Nat) : List Nat → List (Nat × Nat)
  | outside :: inside :: lengths =>
    let first := start + outside
    (first, first + inside - 1) :: rangesFrom (first + inside) lengths
  | _ => []

/-- Whether some range at an index from `low` up to `high` holds `n`; the search halves the indices, at
most `fuel` times. -/
def searchRanges (ranges : Array (Nat × Nat)) (n : Nat) : Nat → Nat → Nat → Bool
  | 0, _, _ => false
  | fuel + 1, low, high =>
    if high ≤ low then false
    else
      let middle := (low + high) / 2
      match ranges[middle]? with
      | none => false
      | some (first, last) =>
        if n < first then searchRanges ranges n fuel low middle
        else if last < n then searchRanges ranges n fuel (middle + 1) high
        else true

/-- Whether some of the sorted, disjoint ranges holds the character. -/
def inRanges (ranges : Array (Nat × Nat)) (c : Char) : Bool :=
  searchRanges ranges c.toNat (ranges.size + 1) 0 ranges.size

end PageCompiler.Text
