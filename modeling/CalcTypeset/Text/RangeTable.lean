/-!
# Tables of code point ranges

A character class that the Unicode data lists range by range is kept as such a list, in ascending
order. Looking a code point up stops at the first range above it, so the characters below the
table are settled by its first entry.
-/

namespace CalcTypeset

/-- Ranges of code points, both ends included, in ascending order. -/
abbrev RangeTable := List (Nat × Nat)

namespace RangeTable

/-- Whether one of the ranges holds the code point. -/
def covers : RangeTable → Nat → Bool
  | [], _ => false
  | (lo, hi) :: table, n => if n < lo then false else n ≤ hi || covers table n

/-- Nothing below the first range is in the table. -/
theorem covers_eq_false_of_lt {lo hi n : Nat} {table : RangeTable} (h : n < lo) :
    covers ((lo, hi) :: table) n = false := by
  simp [covers, h]

end RangeTable

end CalcTypeset
