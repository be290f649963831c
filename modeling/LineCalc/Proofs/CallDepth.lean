import LineCalc.Proofs.Acceptance
import LineCalc.Proofs.Evaluation

/-!
# How deep calls nest

Evaluation and rendering walk down the left spine of an expression in a loop. They are
called anew only on what hangs off the spine: right operands, and the two sides of an
assignment. `Expr.rightDepth` counts how often that happens on the way to a leaf.

* `evalBody` and `renderBody` are one call each, with the calls that it makes as a
  parameter; evaluation and rendering call themselves (`evalBody_expr`,
  `renderBody_render`).
* An expression nests so many calls at most (`CallsWithin`) if it makes no difference
  what a call past them would do. That is a matter of `rightDepth` alone
  (`callsWithin_iff`).

Main statement: in a program that has been read, `rightDepth` exceeds the number of
groups that may be open by one at most, while spines have any length
(`Program.ofTokens_callDepth`). A group on the left of a chain adds nothing, one on the
right adds a call, and groups side by side do not add up: the depth of a derivation
bounds what its right operands may nest (`Links.rightDepth_le`).
-/

namespace LineCalc

namespace Expr

/-! ## Measures -/

/-- How many right operands are one inside the other at most, the two sides of an
assignment counting as such. -/
def rightDepth : Expr → Nat
  | number _ _ => 0
  | identifier _ _ => 0
  | arith _ left right _ => max left.rightDepth (right.rightDepth + 1)
  | assign target value _ => max target.rightDepth value.rightDepth + 1

/-- How many operations are on the left spine. -/
def spineLength : Expr → Nat
  | arith _ left _ _ => left.spineLength + 1
  | _ => 0

/-! ## Rendering call by call -/

/-- One call of the rendering, which leaves what hangs off the spine to `call`. -/
def renderBody (call : Expr → String) : Expr → Nat → String → String
  | number text _, opened, after => openings opened ++ text ++ after
  | identifier name _, opened, after => openings opened ++ name ++ after
  | assign target value _, opened, after =>
    openings opened ++ call target ++ " = " ++ call value ++ after
  | arith op left right _, opened, after =>
    renderBody call left (opened + 1) (" " ++ op.symbol ++ " " ++ call right ++ ")" ++ after)

/-- The rendering with room for so many nested calls, and `beyond` for those past
them. -/
def renderWithin (beyond : Expr → String) : Nat → Expr → String
  | 0, e => beyond e
  | frames + 1, e => renderBody (renderWithin beyond frames) e 0 ""

/-- The rendering calls itself. -/
theorem renderBody_render (e : Expr) (opened : Nat) (after : String) :
    renderBody render e opened after = e.renderSpine opened after := by
  induction e generalizing opened after with
  | number text position => rfl
  | identifier name position => rfl
  | assign target value position => rfl
  | arith op left right position ihLeft ihRight => exact ihLeft _ _

/-- A call of the rendering makes its calls on expressions that nest less. -/
theorem renderBody_congr {call call' : Expr → String} {e : Expr}
    (h : ∀ inner : Expr, inner.rightDepth < e.rightDepth → call inner = call' inner)
    (opened : Nat) (after : String) :
    renderBody call e opened after = renderBody call' e opened after := by
  induction e generalizing opened after with
  | number text position => rfl
  | identifier name position => rfl
  | assign target value position =>
    simp only [rightDepth] at h
    rw [renderBody, renderBody, h target (by omega), h value (by omega)]
  | arith op left right position ihLeft ihRight =>
    simp only [rightDepth] at h
    rw [renderBody, renderBody, h right (by omega)]
    exact ihLeft (fun inner hinner => h inner (by omega)) _ _

theorem renderWithin_eq (beyond : Expr → String) {frames : Nat} {e : Expr}
    (h : e.rightDepth < frames) : renderWithin beyond frames e = e.render := by
  induction frames generalizing e with
  | zero => exact absurd h (Nat.not_lt_zero _)
  | succ frames ih =>
    rw [renderWithin, renderBody_congr (fun inner hinner => ih (by omega)), renderBody_render]
    rfl

theorem length_le_renderBody (call : Expr → String) (e : Expr) (opened : Nat) (after : String) :
    after.length ≤ (renderBody call e opened after).length := by
  induction e generalizing opened after with
  | arith op left right position ihLeft ihRight =>
    refine Nat.le_trans ?_ (ihLeft _ _)
    simp only [String.length_append]
    omega
  | _ =>
    simp only [renderBody, String.length_append]
    omega

/-- A call on an expression that nests deep makes a call on one that nests as deep but
for one, and the text has what that call gives. -/
theorem length_le_renderBody_call {call : Expr → String} {n frames : Nat}
    (hcall : ∀ inner : Expr, frames ≤ inner.rightDepth → n ≤ (call inner).length) {e : Expr}
    (h : frames < e.rightDepth) (opened : Nat) (after : String) :
    n ≤ (renderBody call e opened after).length := by
  induction e generalizing opened after with
  | number text position => exact absurd h (Nat.not_lt_zero _)
  | identifier name position => exact absurd h (Nat.not_lt_zero _)
  | assign target value position =>
    simp only [rightDepth] at h
    simp only [renderBody, String.length_append]
    rcases Nat.le_total target.rightDepth value.rightDepth with hle | hle
    · have := hcall value (by omega)
      omega
    · have := hcall target (by omega)
      omega
  | arith op left right position ihLeft ihRight =>
    simp only [rightDepth] at h
    by_cases hleft : frames < left.rightDepth
    · exact ihLeft hleft _ _
    · have := hcall right (by omega)
      refine Nat.le_trans ?_ (length_le_renderBody _ left _ _)
      simp only [String.length_append]
      omega

theorem length_le_renderWithin (text : String) {frames : Nat} {e : Expr}
    (h : frames ≤ e.rightDepth) : text.length ≤ (renderWithin (fun _ => text) frames e).length := by
  induction frames generalizing e with
  | zero => exact Nat.le_refl _
  | succ frames ih => exact length_le_renderBody_call (fun _ => ih) h 0 ""

end Expr

namespace Eval

/-! ## Evaluation call by call -/

/-- One call of the evaluation, which leaves what hangs off the spine to `call`. -/
def evalBody (call : Expr → Evaluation Float) :
    Expr → List (Float → Evaluation Float) → Evaluation Float
  | .number text _, pending => do
    let value ← number text
    workOff pending value
  | .identifier name _, pending => do
    let value ← identifier name
    workOff pending value
  | .assign target value _, pending => do
    let result ← bindTarget target (call value)
    workOff pending result
  | .arith op left right _, pending =>
    let step (x : Float) : Evaluation Float := do
      let y ← call right
      return op.apply x y
    evalBody call left (step :: pending)

/-- The evaluation with room for so many nested calls, and `beyond` for those past
them. -/
def exprWithin (beyond : Expr → Evaluation Float) : Nat → Expr → Evaluation Float
  | 0, e => beyond e
  | frames + 1, e => evalBody (exprWithin beyond frames) e []

/-- The evaluation calls itself. -/
theorem evalBody_expr (e : Expr) (pending : List (Float → Evaluation Float)) :
    evalBody expr e pending = spine e pending := by
  induction e generalizing pending with
  | number text position => rfl
  | identifier name position => rfl
  | assign target value position => rfl
  | arith op left right position ihLeft ihRight => exact ihLeft _

/-- A call of the evaluation makes its calls on expressions that nest less. -/
theorem evalBody_congr {call call' : Expr → Evaluation Float} {e : Expr}
    (h : ∀ inner : Expr, inner.rightDepth < e.rightDepth → call inner = call' inner)
    (pending : List (Float → Evaluation Float)) :
    evalBody call e pending = evalBody call' e pending := by
  induction e generalizing pending with
  | number text position => rfl
  | identifier name position => rfl
  | assign target value position =>
    simp only [Expr.rightDepth] at h
    rw [evalBody, evalBody, h value (by omega)]
  | arith op left right position ihLeft ihRight =>
    simp only [Expr.rightDepth] at h
    rw [evalBody, evalBody, h right (by omega)]
    exact ihLeft (fun inner hinner => h inner (by omega)) _

theorem exprWithin_eq (beyond : Expr → Evaluation Float) {frames : Nat} {e : Expr}
    (h : e.rightDepth < frames) : exprWithin beyond frames e = expr e := by
  induction frames generalizing e with
  | zero => exact absurd h (Nat.not_lt_zero _)
  | succ frames ih =>
    rw [exprWithin, evalBody_congr (fun inner hinner => ih (by omega)), evalBody_expr]
    rfl

end Eval

/-- Neither evaluating nor rendering the expression nests more than `frames` calls: what a
call past them would do makes no difference. -/
def Expr.CallsWithin (frames : Nat) (e : Expr) : Prop :=
  (∀ beyond, Eval.exprWithin beyond frames e = Eval.expr e) ∧
    ∀ beyond, Expr.renderWithin beyond frames e = e.render

/-- The calls nest as deep as the right operands, and the first call comes on top. -/
theorem Expr.callsWithin_iff {frames : Nat} {e : Expr} :
    e.CallsWithin frames ↔ e.rightDepth < frames := by
  constructor
  · rintro ⟨-, hrender⟩
    refine Nat.lt_of_not_le fun hle => ?_
    -- a call past the room could have added a longer text than there is
    have hlength := length_le_renderWithin (e.render ++ " ") hle
    rw [hrender, String.length_append] at hlength
    have hblank : " ".length = 1 := rfl
    omega
  · intro h
    exact ⟨fun beyond => Eval.exprWithin_eq beyond h, fun beyond => renderWithin_eq beyond h⟩

/-! ## What a derivation nests -/

namespace Grammar

theorem Atom.rightDepth_expr (a : Atom) : a.expr.rightDepth = 0 := by
  unfold Atom.expr
  split <;> rfl

mutual

theorem Operand.rightDepth_le : ∀ o : Operand, o.expr.rightDepth ≤ o.depth
  | .atom a => Nat.le_of_eq a.rightDepth_expr
  | .group p first links q => by
    have hfirst := first.rightDepth_le
    have hlinks := links.rightDepth_le first.expr
    simp only [Operand.expr, Operand.depth]
    omega

/-- A right operand nests one call more than its groups; what stands before the links
nests what it did. -/
theorem Links.rightDepth_le : ∀ (l : Links) (left : Expr),
    (l.expr left).rightDepth ≤ max left.rightDepth (l.depth + 1)
  | .nil, left => Nat.le_max_left _ _
  | .cons sign right later, left => by
    have hright := right.rightDepth_le
    have hlater := later.rightDepth_le (.arith sign.op left right.expr sign.token.position)
    simp only [Expr.rightDepth] at hlater
    simp only [Links.expr, Links.depth]
    omega

end

theorem Formula.rightDepth_le (f : Formula) : f.expr.rightDepth ≤ f.depth + 1 := by
  have hfirst := f.first.rightDepth_le
  have hlinks := f.links.rightDepth_le f.first.expr
  simp only [Formula.expr, Formula.depth]
  omega

theorem Formula.rightDepth_le_limit (f : Formula) (h : f.depth ≤ groupLimit) :
    f.expr.rightDepth ≤ groupLimit + 1 :=
  Nat.le_trans f.rightDepth_le (Nat.succ_le_succ h)

/-! ## Deep and long formulas -/

def one : Atom := ⟨⟨.number, "1", 0⟩, rfl⟩

def plus : Sign := ⟨⟨.plus, "+", 0⟩, .add, rfl⟩

/-- So many groups `(1+…)`, each the right operand in the one around it. -/
def nested : Nat → Operand
  | 0 => .atom one
  | n + 1 => .group ⟨⟨.leftParen, "(", 0⟩, rfl⟩ (.atom one) (.cons plus (nested n) .nil)
      ⟨⟨.rightParen, ")", 0⟩, rfl⟩

theorem depth_nested (n : Nat) : (nested n).depth = n := by
  induction n with
  | zero => rfl
  | succ n ih => simp only [nested, Operand.depth, Links.depth, ih, Nat.max_zero, Nat.zero_max]

theorem rightDepth_nested (n : Nat) : (nested n).expr.rightDepth = n := by
  induction n with
  | zero => rfl
  | succ n ih =>
    simp only [nested, Operand.expr, Links.expr, Expr.rightDepth, ih, one.rightDepth_expr,
      Nat.zero_max]

/-- The formula `1+(1+(…))`, which makes as many nested calls as the limit allows. -/
def deepest : Formula := ⟨.atom one, .cons plus (nested groupLimit) .nil⟩

theorem depth_deepest : deepest.depth = groupLimit := by
  simp only [deepest, Formula.depth, Operand.depth, Links.depth, depth_nested, Nat.max_zero,
    Nat.zero_max]

theorem rightDepth_deepest : deepest.expr.rightDepth = groupLimit + 1 := by
  simp only [deepest, Formula.expr, Operand.expr, Links.expr, Expr.rightDepth, rightDepth_nested,
    one.rightDepth_expr, Nat.zero_max]

/-- The links `+1`, so many of them. -/
def flat : Nat → Links
  | 0 => .nil
  | n + 1 => .cons plus (.atom one) (flat n)

theorem depth_flat (n : Nat) : (flat n).depth = 0 := by
  induction n with
  | zero => rfl
  | succ n ih => simp only [flat, Links.depth, Operand.depth, ih, Nat.max_self]

theorem spineLength_flat (n : Nat) (left : Expr) :
    ((flat n).expr left).spineLength = left.spineLength + n := by
  induction n generalizing left with
  | zero => rfl
  | succ n ih =>
    simp only [flat, Links.expr, ih, Expr.spineLength]
    omega

end Grammar

/-! ## Programs -/

namespace Program

open Grammar

theorem ofTokens_statement (s : Statement) (h : s.depth ≤ groupLimit) (finish : Nat) :
    ofTokens s.tokens finish = .ok [s.expr] := by
  let d : Derivation := ⟨[s], List.cons_ne_nil s []⟩
  have htokens : d.tokens = s.tokens := List.append_nil s.tokens
  have hlimit : d.WithinLimit := by
    refine d.withinLimit_iff.mpr ?_
    intro s' hs'
    rw [List.mem_singleton.mp hs']
    exact h
  rw [← htokens]
  exact ofTokens_derivation d hlimit

/-- **Calls nest no deeper than groups may.** In a program that has been read, a statement
is a formula, or an assignment of a formula to a leaf. The right operands of the formula
nest at most one deeper than groups may be open, so evaluating or rendering a statement
nests at most one call more than that, and one more again for an assignment. Formulas reach
this bound, and their spines have any length. -/
theorem ofTokens_callDepth :
    (∀ (tokens : List Token) (finish : Nat) (program : Program),
      ofTokens tokens finish = .ok program → ∀ e ∈ program,
        (e.isFormula = true ∧ e.rightDepth ≤ groupLimit + 1 ∧ e.CallsWithin (groupLimit + 2)) ∨
        ∃ target value position, e = .assign target value position ∧
          target.isLeaf = true ∧ value.isFormula = true ∧ value.rightDepth ≤ groupLimit + 1 ∧
          e.CallsWithin (groupLimit + 3)) ∧
    (∃ tokens finish e, ofTokens tokens finish = .ok [e] ∧ e.isFormula = true ∧
      e.rightDepth = groupLimit + 1) ∧
    (∃ tokens finish target value position,
      ofTokens tokens finish = .ok [.assign target value position] ∧
      value.rightDepth = groupLimit + 1) ∧
    ∀ n, ∃ tokens finish e, ofTokens tokens finish = .ok [e] ∧ e.isFormula = true ∧
      e.spineLength = n := by
  refine ⟨?_, ?_, ?_, ?_⟩
  · intro tokens finish program h e he
    obtain ⟨d, hlimit, rfl, rfl⟩ := exists_derivation h
    obtain ⟨s, hs, rfl⟩ := List.mem_map.mp he
    have hdepth := d.withinLimit_iff.mp hlimit s hs
    cases s with
    | formula f =>
      have hright := f.rightDepth_le_limit hdepth
      exact .inl ⟨f.isFormula_expr, hright, Expr.callsWithin_iff.mpr (Nat.lt_succ_of_le hright)⟩
    | assignment target sign value =>
      have hright := value.rightDepth_le_limit hdepth
      refine .inr ⟨target.expr, value.expr, sign.token.position, rfl, target.isLeaf_expr,
        value.isFormula_expr, hright, Expr.callsWithin_iff.mpr ?_⟩
      simp only [Statement.expr, Expr.rightDepth, target.rightDepth_expr]
      omega
  · have hread := ofTokens_statement (.formula deepest) (Nat.le_of_eq depth_deepest) 0
    exact ⟨_, _, _, hread, deepest.isFormula_expr, rightDepth_deepest⟩
  · let assigned : Statement := .assignment one ⟨⟨.assign, "=", 0⟩, rfl⟩ deepest
    have hread := ofTokens_statement assigned (Nat.le_of_eq depth_deepest) 0
    exact ⟨_, _, _, _, _, hread, rightDepth_deepest⟩
  · intro n
    let f : Formula := ⟨.atom one, flat n⟩
    have hdepth : f.depth ≤ groupLimit := by
      simp only [f, Formula.depth, Operand.depth, depth_flat, Nat.max_self, Nat.zero_le]
    refine ⟨_, _, _, ofTokens_statement (.formula f) hdepth 0, f.isFormula_expr, ?_⟩
    exact (spineLength_flat n one.expr).trans (Nat.zero_add n)

/-- The tokens of `x=1-(2)`. -/
theorem ofTokens_callDepth_difference :
    let tokens : List Token := [⟨.identifier, "x", 0⟩, ⟨.assign, "=", 1⟩, ⟨.number, "1", 2⟩,
      ⟨.minus, "-", 3⟩, ⟨.leftParen, "(", 4⟩, ⟨.number, "2", 5⟩, ⟨.rightParen, ")", 6⟩]
    let difference : Expr := .arith .subtract (.number "1" 2) (.number "2" 5) 3
    let e : Expr := .assign (.identifier "x" 0) difference 1
    ofTokens tokens 7 = .ok [e] ∧ difference.isFormula = true ∧
      difference.rightDepth ≤ groupLimit + 1 ∧ e.CallsWithin (groupLimit + 3) := by
  intro tokens difference e
  have hread : ofTokens tokens 7 = .ok [e] := rfl
  rcases ofTokens_callDepth.1 tokens 7 [e] hread e (List.mem_singleton_self e) with
    ⟨hformula, -⟩ | ⟨target, value, position, heq, -, hformula, hright, hcalls⟩
  · cases hformula
  · obtain ⟨-, rfl, -⟩ := Expr.assign.inj heq
    exact ⟨hread, hformula, hright, hcalls⟩

end Program

end LineCalc
