import LineCalc.Double.Rank

/-!
# The shortest decimal of a double

A double is written with the fewest digits that read back to it: of all
decimals that round to the double, one on the coarsest grid `10 ^ k`, and on
that grid the one nearest to the exact value, the larger of two that are
equally near.

Every double, and every point half way between two doubles, is a whole number
of multiples of `10 ^ -1075`. The search runs on those numbers, so it is exact.
The digits are set out positionally, without an exponent: a whole number has no
point, and a fraction keeps a zero before its point.
-/

namespace LineCalc.Decimal

/-- How many decimal places the exact value of any half-way point needs. -/
def finestPlaces : Nat := 1075

/-- The numbers that round to one double. Its ends are half-way points, which
belong to it when the double is the even one of the two neighbours. -/
structure Interval where
  low : Nat
  high : Nat
  closed : Bool
  deriving DecidableEq, Repr

namespace Interval

/-- Whether `n` rounds to the double of the interval. -/
def contains (i : Interval) (n : Nat) : Bool :=
  if i.closed then decide (i.low ≤ n) && decide (n ≤ i.high)
  else decide (i.low < n) && decide (n < i.high)

/-- The numbers that round to the double of a positive rank, in multiples of
`10 ^ -1075`. -/
def ofRank (rank : Nat) : Interval where
  low := (Double.units (rank - 1) + Double.units rank) * Nat.pow 5 finestPlaces
  high := (Double.units rank + Double.units (rank + 1)) * Nat.pow 5 finestPlaces
  closed := rank % 2 == 0

/-- The neighbour of `value` on the grid of step `10 ^ power` that lies in the
interval, as a multiple of the step. Of two such neighbours it is the nearer
one, and the upper one when they are equally near. -/
def onGrid? (i : Interval) (value power : Nat) : Option Nat :=
  let step := Nat.pow 10 power
  let below := value / step
  let above := below + 1
  if i.contains (below * step) then
    if i.contains (above * step) && decide ((below + above) * step ≤ 2 * value) then some above
    else some below
  else if i.contains (above * step) then some above
  else none

/-- Search for a grid point in the interval on the grids `10 ^ power` and
finer, coarsest first. The answer is the multiple and the power of its grid;
on the finest grid it is `value` itself. -/
def coarsest (i : Interval) (value : Nat) : Nat → Nat × Nat
  | 0 => (value, 0)
  | power + 1 =>
    match i.onGrid? value (power + 1) with
    | some multiple => (multiple, power + 1)
    | none => i.coarsest value power

end Interval

/-- The shortest decimal of the double of a positive rank: a number and a
power of ten, whose product counts multiples of `10 ^ -1075`. The search starts
at a grid coarser than the whole interval, because `2 ^ 100 < 10 ^ 31`. -/
def shortest (rank : Nat) : Nat × Nat :=
  let i := Interval.ofRank rank
  i.coarsest (2 * Double.units rank * Nat.pow 5 finestPlaces) (i.high.log2 * 31 / 100 + 1)

/-- The digits of a whole number, without leading zeros. -/
def digits (n : Nat) : List Char := Nat.toDigits 10 n

/-- The digits of `n`, filled up with zeros on the left to `width` places. -/
def paddedDigits (width n : Nat) : List Char :=
  List.replicate (width - (digits n).length) '0' ++ digits n

/-- The decimal `multiple * 10 ^ power`, counted in multiples of `10 ^ -1075`,
set out positionally. -/
def positional (multiple power : Nat) : List Char :=
  if finestPlaces ≤ power then
    digits multiple ++ List.replicate (power - finestPlaces) '0'
  else
    let places := finestPlaces - power
    let scale := Nat.pow 10 places
    digits (multiple / scale) ++ '.' :: paddedDigits places (multiple % scale)

/-- The text of a magnitude. -/
def magnitudeText (rank : Nat) : List Char :=
  if rank = 0 then ['0']
  else if rank = Double.top then ['i', 'n', 'f']
  else
    let (multiple, power) := shortest rank
    positional multiple power

/-- The text of a double: the shortest decimal that reads back to it, with a
minus sign if its sign bit is set. -/
def text (x : Float) : String :=
  if x.isNaN then "NaN"
  else
    let magnitude := magnitudeText (Double.rank x)
    .ofList (if Double.isNegative x then '-' :: magnitude else magnitude)

end LineCalc.Decimal
