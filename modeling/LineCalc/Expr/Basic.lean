import LineCalc.Operator

/-!
# Expressions

An expression is a number literal, a name, an arithmetic operation or an
assignment. Literals keep their text: what it is worth is a matter of
evaluation. Every node keeps the byte offset of the token that it comes from,
which for an operation is its operator and for an assignment its `=`.
-/

namespace LineCalc

/-- An expression of the language. -/
inductive Expr where
  | number (text : String) (position : Nat)
  | identifier (name : String) (position : Nat)
  | arith (op : Operator) (left right : Expr) (position : Nat)
  | assign (target value : Expr) (position : Nat)
  deriving DecidableEq, Repr

/-- The byte offset of the token that an expression's root comes from. -/
def Expr.position : Expr → Nat
  | number _ position => position
  | identifier _ position => position
  | arith _ _ _ position => position
  | assign _ _ position => position

/-- A program is a list of expressions, to be evaluated in order. -/
abbrev Program := List Expr

end LineCalc
