import LineCalc.Double.Remainder

/-!
# Arithmetic operators

The five operators of the language. None binds tighter than another, so an
operator is just a symbol and a function on doubles.
-/

namespace LineCalc

/-- An arithmetic operator. -/
inductive Operator where
  | add
  | subtract
  | multiply
  | divide
  | remainder
  deriving DecidableEq, Repr

namespace Operator

/-- How the operator is written. -/
def symbol : Operator → String
  | add => "+"
  | subtract => "-"
  | multiply => "*"
  | divide => "/"
  | remainder => "%"

/-- The value of the operator on two doubles. It is defined everywhere:
division by zero gives an infinity or no number, never a failure. -/
def apply : Operator → Float → Float → Float
  | add, x, y => x + y
  | subtract, x, y => x - y
  | multiply, x, y => x * y
  | divide, x, y => x / y
  | remainder, x, y => Double.remainder x y

end Operator

end LineCalc
