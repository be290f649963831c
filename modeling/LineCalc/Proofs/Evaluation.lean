import LineCalc.Eval

/-!
# Evaluation by the shape of an expression

The spine of an expression is walked down before anything is evaluated. What is
pending there can as well be done with the value of the expression afterwards
(`spine_eq`), so evaluation has one equation for each form of expression.
-/

namespace LineCalc.Eval

theorem workOff_nil : workOff [] = pure := rfl

theorem workOff_cons (step : Float → Evaluation Float) (pending : List (Float → Evaluation Float))
    (value : Float) : workOff (step :: pending) value = step value >>= workOff pending :=
  List.foldlM_cons

/-- What is pending is done with the value of the expression. -/
theorem spine_eq (e : Expr) (pending : List (Float → Evaluation Float)) :
    spine e pending = expr e >>= workOff pending := by
  induction e generalizing pending with
  | number text position =>
    simp only [expr, spine, workOff_nil, bind_pure]
  | identifier name position =>
    simp only [expr, spine, workOff_nil, bind_pure]
  | assign target value position =>
    simp only [expr, spine, workOff_nil, bind_pure]
  | arith op left right position ihLeft ihRight =>
    -- the operation itself is pending while its left operand is evaluated
    rw [expr, spine, spine, ihLeft, ihLeft, bind_assoc]
    refine bind_congr fun x => ?_
    simp only [workOff_cons, workOff_nil, bind_pure]

theorem expr_number (text : String) (position : Nat) :
    expr (.number text position) = number text := by
  simp only [expr, spine, workOff_nil, bind_pure]

theorem expr_identifier (name : String) (position : Nat) :
    expr (.identifier name position) = identifier name := by
  simp only [expr, spine, workOff_nil, bind_pure]

theorem expr_assign (target value : Expr) (position : Nat) :
    expr (.assign target value position) = bindTarget target (expr value) := by
  simp only [expr, spine, workOff_nil, bind_pure]

theorem expr_arith (op : Operator) (left right : Expr) (position : Nat) :
    expr (.arith op left right position) = (do
      let x ← expr left
      let y ← expr right
      return op.apply x y) := by
  rw [expr, spine, spine_eq]
  refine bind_congr fun x => ?_
  rw [workOff_cons, workOff_nil, bind_pure]
  rfl

end LineCalc.Eval
