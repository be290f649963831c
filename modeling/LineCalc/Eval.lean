import LineCalc.Bindings
import LineCalc.Decimal.Literal
import LineCalc.Expr.Render
import LineCalc.Fault
import LineCalc.NearestName

/-!
# Evaluation

An expression is evaluated against bindings, which its assignments change. A
fault ends the evaluation and leaves the bindings as the assignments made until
then have left them.

Operands are evaluated from left to right. A chain of operations is a left spine,
as long as the line: it is walked down first, collecting what has to be done with
the value at its bottom, and then worked off from there. Only right operands and
assigned values are entered recursively.
-/

namespace LineCalc

/-- A computation that reads and changes bindings. -/
abbrev Evaluation (α : Type) := EStateM EvalFault Bindings α

namespace Eval

/-- How many edits away from an unknown name a suggestion may be. -/
def suggestionLimit : Nat := 2

/-- The value of a number literal. -/
def number (text : String) : Evaluation Float :=
  match Decimal.read? text with
  | some value => return value
  | none => throw (.malformedNumber text)

/-- The value of a name. If it is not bound, the closest bound names are
suggested. -/
def identifier (name : String) : Evaluation Float := do
  let bindings ← get
  match bindings.get? name with
  | some value => return value
  | none =>
    throw (.unknownName name (NearestName.closestWithin suggestionLimit name bindings.names))

/-- Bind the target to a value that is still to be computed. Only a name can
be a target, and that is checked before the value is computed. -/
def bindTarget (target : Expr) (value : Evaluation Float) : Evaluation Float :=
  match target with
  | .identifier name _ => do
    let result ← value
    modify fun bindings => bindings.insert name result
    return result
  | _ => throw (.invalidTarget target.render)

/-- Hand a value through the steps that are pending, the first one first. -/
def workOff (pending : List (Float → Evaluation Float)) (value : Float) : Evaluation Float :=
  pending.foldlM (fun value step => step value) value

/-- Evaluate an expression at the bottom of a spine, then do what is pending
with its value. -/
def spine : Expr → List (Float → Evaluation Float) → Evaluation Float
  | .number text _, pending => do
    let value ← number text
    workOff pending value
  | .identifier name _, pending => do
    let value ← identifier name
    workOff pending value
  | .assign target value _, pending => do
    let result ← bindTarget target (spine value [])
    workOff pending result
  | .arith op left right _, pending =>
    let step (x : Float) : Evaluation Float := do
      let y ← spine right []
      return op.apply x y
    spine left (step :: pending)

/-- Evaluate an expression. -/
def expr (e : Expr) : Evaluation Float := spine e []

/-- Evaluate the assignment of one expression to another. -/
def assignment (target value : Expr) : Evaluation Float :=
  bindTarget target (expr value)

/-- Evaluate the statements that are left, `last` being the value of the one
before. -/
def statements : Float → Program → Evaluation Float
  | last, [] => return last
  | _, first :: later => do
    let value ← expr first
    statements value later

/-- Evaluate a program. Its value is that of its last statement. -/
def program : Program → Evaluation Float
  | [] => throw .emptyProgram
  | first :: later => do
    let value ← expr first
    statements value later

end Eval

end LineCalc
