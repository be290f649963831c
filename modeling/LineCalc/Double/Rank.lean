/-!
# Doubles by rank

The bits of a non-negative double, read as a number, are its **rank**: ranks
are ordered as the values are, every finite value has a rank below `top`, and
`top` is infinity. The value of a rank is a whole number of *units* of
`2 ^ -1074`, the smallest positive double, so questions about doubles become
questions about natural numbers.

* `units` is the value of a rank, `floorRank` goes back from a number of units;
* `nearestRank` rounds a fraction to the nearest double, a tie going to the
  even rank. An even rank is an even significand, and the rank above the
  largest finite one is `top`, so overflow needs no rule of its own.
-/

namespace LineCalc.Double

/-- The rank of infinity. Every smaller rank is a finite value. -/
def top : Nat := 0x7FF0000000000000

/-- The value of a rank in multiples of `2 ^ -1074`. Infinity counts as
`2 ^ 1024`, the value that would follow the largest finite one. -/
def units (rank : Nat) : Nat :=
  if rank < Nat.pow 2 52 then rank
  else (Nat.pow 2 52 + rank % Nat.pow 2 52) * Nat.pow 2 (rank / Nat.pow 2 52 - 1)

/-- The largest rank whose value is at most `n` units. -/
def floorRank (n : Nat) : Nat :=
  (n.log2 - 52) * Nat.pow 2 52 + n / Nat.pow 2 (n.log2 - 52)

/-- The rank of the double nearest to `num / den`; half way between two
doubles the even rank is taken. -/
def nearestRank (num den : Nat) : Nat :=
  let exact := num * Nat.pow 2 1074
  let low := floorRank (exact / den)
  if top ≤ low then top
  else
    let middle := (units low + units (low + 1)) * den
    if 2 * exact < middle then low
    else if middle < 2 * exact then low + 1
    else low + low % 2

/-! ## Sign and rank of a double -/

/-- The weight of the sign bit. -/
def signBit : Nat := Nat.pow 2 63

/-- The rank of the magnitude of `x`. -/
def rank (x : Float) : Nat := x.toBits.toNat % signBit

/-- Whether the sign bit of `x` is set; it is on negative zero. -/
def isNegative (x : Float) : Bool := signBit ≤ x.toBits.toNat

/-- The double with the given sign and rank. -/
def ofRank (negative : Bool) (rank : Nat) : Float :=
  .ofBits (.ofNat (rank + if negative then signBit else 0))

/-- The value that is not a number. -/
def nan : Float := .ofBits 0x7FF8000000000000

end LineCalc.Double
