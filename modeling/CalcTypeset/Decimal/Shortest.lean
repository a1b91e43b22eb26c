/-!
# Shortest decimals

Among the decimals that read back as a given number, the shortest is the one with the fewest
digits. The decimals that read back are those in an interval around the number. The search goes
through the grids of multiples of a power of ten, from the coarsest to the finest, and looks at
the two neighbours of the number on each: if a point of a grid lies in the interval, so does one
of these. Of two hits the nearer is taken, and of two equally near the one whose last digit is
even.
-/

namespace CalcTypeset.Decimal

/-- The numbers that read back as `value`, in units that make all three whole. -/
structure Interval where
  low : Nat
  value : Nat
  high : Nat
  /-- Whether the ends belong to the interval. -/
  closed : Bool
  low_le : low ≤ value
  le_high : value ≤ high

namespace Interval

/-- Whether a number reads back. -/
def contains (i : Interval) (n : Nat) : Bool :=
  if i.closed then i.low ≤ n && n ≤ i.high else i.low < n && n < i.high

/-- The better one of the neighbours of the value on the grid of step `step`, as a count of steps,
when one of them reads back. -/
def onGrid? (i : Interval) (step : Nat) : Option Nat :=
  let below := i.value / step
  let above := below + 1
  match i.contains (below * step), i.contains (above * step) with
  | false, false => none
  | true, false => some below
  | false, true => some above
  | true, true =>
      let down := i.value - below * step
      let up := above * step - i.value
      if down < up then some below
      else if up < down then some above
      else if below % 2 = 0 then some below else some above

/-- The shortest number that reads back: a count `n` and an exponent `k` for `n * 10 ^ k`. Only
grids up to `10 ^ k` are tried. -/
def shortestUpTo (i : Interval) : (k : Nat) → Nat × Nat
  | 0 => (i.value, 0)
  | k + 1 =>
      match i.onGrid? (Nat.pow 10 (k + 1)) with
      | some n => (n, k + 1)
      | none => i.shortestUpTo k

/-- The shortest number that reads back. The coarsest grid tried has no point but zero below the
value. -/
def shortest (i : Interval) : Nat × Nat :=
  i.shortestUpTo (Nat.toDigits 10 i.value).length

end Interval

end CalcTypeset.Decimal
