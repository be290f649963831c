import LineCalc.Double.Rank

/-!
# The remainder of two doubles

`remainder x y` is `x - n * y` for the whole number `n` that `x / y` gives when
its fraction is dropped. It is always a double, so no rounding takes place: the
magnitudes are whole numbers of units, and their remainder is exact.
-/

namespace LineCalc.Double

/-- The part of `x` that is left when `y` is taken away as often as it fits,
with the sign of `x`. There is no remainder of an infinite `x` or by a zero
`y`, and an infinite `y` leaves `x` as it is. -/
def remainder (x y : Float) : Float :=
  if x.isNaN || y.isNaN || rank x == top || rank y == 0 then nan
  else if rank y == top then x
  else ofRank (isNegative x) (floorRank (units (rank x) % units (rank y)))

end LineCalc.Double
