import LineCalc.Proofs.Evaluation

/-!
# Evaluation by plain recursion

`Expr.outcome` evaluates an expression along its structure, with the bindings
handed from one part to the next: the left operand, then the right operand with
the bindings that the left one has left behind, then the operation. No spine is
walked and nothing is pending.

Main statement: evaluation does the same on every expression, those included that
no program contains (`expr_eq_outcome`). What carries the induction is that a
spine with steps pending hands the plain value of the expression to them, and
hands over nothing if there is none (`run_spine`).
-/

namespace LineCalc

/-- The value of an expression and the bindings after it, or the fault that ended
its evaluation and the bindings up to there. -/
def Expr.outcome : Expr → Bindings → EStateM.Result EvalFault Bindings Float
  | number text _, b =>
    match Decimal.read? text with
    | some value => .ok value b
    | none => .error (.malformedNumber text) b
  | identifier name _, b =>
    match b.get? name with
    | some value => .ok value b
    | none =>
      .error (.unknownName name (NearestName.closestWithin Eval.suggestionLimit name b.names)) b
  | arith op left right _, b =>
    match left.outcome b with
    | .error fault b₁ => .error fault b₁
    | .ok x b₁ =>
      match right.outcome b₁ with
      | .error fault b₂ => .error fault b₂
      | .ok y b₂ => .ok (op.apply x y) b₂
  | assign target value _, b =>
    match target with
    | identifier name _ =>
      match value.outcome b with
      | .error fault b₁ => .error fault b₁
      | .ok x b₁ => .ok x (b₁.insert name x)
    | _ => .error (.invalidTarget target.render) b

namespace Eval

/-- An outcome, with a computation that goes on from the value. -/
def resume (outcome : EStateM.Result EvalFault Bindings Float)
    (next : Float → Evaluation Float) : EStateM.Result EvalFault Bindings Float :=
  match outcome with
  | .ok x b => (next x).run b
  | .error fault b => .error fault b

@[simp] theorem resume_pure (outcome : EStateM.Result EvalFault Bindings Float) :
    resume outcome pure = outcome := by
  cases outcome <;> rfl

theorem run_bind_eq_resume (x : Evaluation Float) (next : Float → Evaluation Float)
    (b : Bindings) : (x >>= next).run b = resume (x.run b) next := by
  rw [EStateM.run_bind]
  cases x.run b <;> rfl

theorem run_number (text : String) (position : Nat) (b : Bindings) :
    (number text).run b = (Expr.number text position).outcome b := by
  rw [number, Expr.outcome]
  cases Decimal.read? text <;> rfl

theorem run_identifier (name : String) (position : Nat) (b : Bindings) :
    (identifier name).run b = (Expr.identifier name position).outcome b := by
  rw [identifier, EStateM.run_bind, EStateM.run_get, Expr.outcome]
  cases hvalue : b.get? name <;> simp only [hvalue] <;> rfl

/-- The target is looked at before the value, which is not computed if the target
is no name. -/
theorem run_bindTarget {target value : Expr} {compute : Evaluation Float} (position : Nat)
    {b : Bindings} (hvalue : compute.run b = value.outcome b) :
    (bindTarget target compute).run b = (Expr.assign target value position).outcome b := by
  cases target with
  | identifier name _ =>
    simp only [bindTarget, Expr.outcome]
    rw [EStateM.run_bind, hvalue]
    cases value.outcome b <;> rfl
  | _ => rfl

/-- The value that a spine hands to its pending steps is that of the plain
recursion. -/
theorem run_spine (e : Expr) (pending : List (Float → Evaluation Float)) (b : Bindings) :
    (spine e pending).run b = resume (e.outcome b) (workOff pending) := by
  induction e generalizing pending b with
  | number text position =>
    rw [spine, run_bind_eq_resume, run_number text position]
  | identifier name position =>
    rw [spine, run_bind_eq_resume, run_identifier name position]
  | assign target value position ihTarget ihValue =>
    have hvalue : (spine value []).run b = value.outcome b := by
      rw [ihValue, workOff_nil, resume_pure]
    rw [spine, run_bind_eq_resume, run_bindTarget position hvalue]
  | arith op left right position ihLeft ihRight =>
    -- the operation waits in front of the pending steps while the left operand is evaluated
    rw [spine, ihLeft, Expr.outcome]
    cases left.outcome b with
    | error fault b₁ => rfl
    | ok x b₁ =>
      have hright : (spine right []).run b₁ = right.outcome b₁ := by
        rw [ihRight, workOff_nil, resume_pure]
      simp only [resume, workOff_cons]
      rw [EStateM.run_bind, EStateM.run_bind, hright]
      cases right.outcome b₁ <;> rfl

/-- **Evaluation is the plain recursion.** On an expression of any shape and with
any bindings, both end with the same value or the same fault, and leave the same
bindings. -/
theorem expr_eq_outcome (e : Expr) (b : Bindings) : (expr e).run b = e.outcome b := by
  rw [expr, run_spine, workOff_nil, resume_pure]

end Eval

end LineCalc
