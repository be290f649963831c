import LineCalc.Expr.Basic

/-!
# The text of an expression

Every operation is put in parentheses, so that its text does not depend on what
surrounds it; an assignment has none. A chain of operations leans to the left:
all its parentheses open at its beginning, and each closes after one right
operand. The text is therefore put together along the left spine, which may be
long, and only right operands are entered anew.
-/

namespace LineCalc.Expr

/-- As many opening parentheses as asked for. -/
def openings (count : Nat) : String := .ofList (List.replicate count '(')

/-- The text of an expression at the bottom of a spine: `opened` operations
have it at the far left, and `after` is the text that follows it in them. -/
def renderSpine : Expr → Nat → String → String
  | number text _, opened, after => openings opened ++ text ++ after
  | identifier name _, opened, after => openings opened ++ name ++ after
  | assign target value _, opened, after =>
    openings opened ++ renderSpine target 0 "" ++ " = " ++ renderSpine value 0 "" ++ after
  | arith op left right _, opened, after =>
    renderSpine left (opened + 1)
      (" " ++ op.symbol ++ " " ++ renderSpine right 0 "" ++ ")" ++ after)

/-- The text of an expression. -/
def render (e : Expr) : String := e.renderSpine 0 ""

end LineCalc.Expr
