import LineCalc.Double.Rank

/-!
# Decimal literals

A literal is a run of digits with at most one point in it, and at least one
digit. Text is read by its longest beginning of that form; whatever follows is
ignored. The value is the double nearest to the decimal that was written.
-/

namespace LineCalc.Decimal

/-- The digits before and after the point of a decimal. -/
structure Literal where
  whole : List Char
  fraction : List Char
  deriving DecidableEq, Repr

namespace Literal

/-- The digits at the beginning of a text, and those after a point that
follows them at once. -/
def leading (text : List Char) : Literal :=
  let whole := text.takeWhile Char.isDigit
  match text.dropWhile Char.isDigit with
  | '.' :: rest => ⟨whole, rest.takeWhile Char.isDigit⟩
  | _ => ⟨whole, []⟩

/-- Whether there is no digit at all, on either side of the point. -/
def isBare (l : Literal) : Bool := l.whole.isEmpty && l.fraction.isEmpty

/-- The numerator of the value over `scale`: all digits read as one number. -/
def numerator (l : Literal) : Nat :=
  Nat.ofDigitChars 10 (l.whole ++ l.fraction) 0

/-- The denominator of the value: one factor of ten for each decimal place. -/
def scale (l : Literal) : Nat := Nat.pow 10 l.fraction.length

/-- The double nearest to the decimal. -/
def toDouble (l : Literal) : Float :=
  Double.ofRank false (Double.nearestRank l.numerator l.scale)

end Literal

/-- The value of the literal that `text` begins with, if it begins with one. -/
def read? (text : String) : Option Float :=
  let literal := Literal.leading text.toList
  if literal.isBare then none else some literal.toDouble

end LineCalc.Decimal
