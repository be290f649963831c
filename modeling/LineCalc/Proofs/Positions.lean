import LineCalc.Proofs.Grammar
import LineCalc.Eval

/-!
# Positions

The byte offsets that tokens and expressions carry can be changed without touching
anything else. `mapPosition` does so for tokens, expressions and derivations: what a
derivation spells and stands for changes along with it, how deep it nests does not,
and evaluation sees no difference (`Eval.program_mapPosition`).

Programs are equal up to positions if they are equal without them
(`Program.unplaced`).
-/

namespace LineCalc

/-! ## Tokens and expressions -/

def Token.mapPosition (f : Nat → Nat) (t : Token) : Token := { t with position := f t.position }

def Expr.mapPosition (f : Nat → Nat) : Expr → Expr
  | number text position => number text (f position)
  | identifier name position => identifier name (f position)
  | arith op left right position =>
    arith op (left.mapPosition f) (right.mapPosition f) (f position)
  | assign target value position =>
    assign (target.mapPosition f) (value.mapPosition f) (f position)

/-- An expression with all its places forgotten. -/
def Expr.unplaced (e : Expr) : Expr := e.mapPosition fun _ => 0

/-- A program with all its places forgotten. -/
def Program.unplaced (program : Program) : Program := program.map Expr.unplaced

/-! ## Derivations -/

namespace Grammar

variable (f : Nat → Nat)

def Atom.mapPosition (a : Atom) : Atom := ⟨a.token.mapPosition f, a.isAtom⟩

def Mark.mapPosition {kind : Token.Kind} (m : Mark kind) : Mark kind :=
  ⟨m.token.mapPosition f, m.hasKind⟩

def Sign.mapPosition (s : Sign) : Sign := ⟨s.token.mapPosition f, s.op, s.spells⟩

mutual

def Operand.mapPosition : Operand → Operand
  | .atom a => .atom (a.mapPosition f)
  | .group p first links q =>
    .group (p.mapPosition f) first.mapPosition links.mapPosition (q.mapPosition f)

def Links.mapPosition : Links → Links
  | .nil => .nil
  | .cons s right later => .cons (s.mapPosition f) right.mapPosition later.mapPosition

end

def Formula.mapPosition (g : Formula) : Formula := ⟨g.first.mapPosition f, g.links.mapPosition f⟩

def Statement.mapPosition : Statement → Statement
  | .formula g => .formula (g.mapPosition f)
  | .assignment target sign value =>
    .assignment (target.mapPosition f) (sign.mapPosition f) (value.mapPosition f)

def Derivation.mapPosition (d : Derivation) : Derivation :=
  ⟨d.statements.map (Statement.mapPosition f), by simp [d.nonempty]⟩

/-! ### What it spells -/

mutual

theorem Operand.tokens_mapPosition : ∀ o : Operand,
    (o.mapPosition f).tokens = o.tokens.map (Token.mapPosition f)
  | .atom a => rfl
  | .group p first links q => by
    simp only [Operand.mapPosition, Operand.tokens, Operand.tokens_mapPosition first,
      Links.tokens_mapPosition links, List.map_cons, List.map_append, List.map_nil]
    rfl

theorem Links.tokens_mapPosition : ∀ l : Links,
    (l.mapPosition f).tokens = l.tokens.map (Token.mapPosition f)
  | .nil => rfl
  | .cons s right later => by
    simp only [Links.mapPosition, Links.tokens, Operand.tokens_mapPosition right,
      Links.tokens_mapPosition later, List.map_cons, List.map_append]
    rfl

end

theorem Formula.tokens_mapPosition (g : Formula) :
    (g.mapPosition f).tokens = g.tokens.map (Token.mapPosition f) := by
  simp only [Formula.mapPosition, Formula.tokens, Operand.tokens_mapPosition,
    Links.tokens_mapPosition, List.map_append]

theorem Statement.tokens_mapPosition (s : Statement) :
    (s.mapPosition f).tokens = s.tokens.map (Token.mapPosition f) := by
  cases s with
  | formula g => exact g.tokens_mapPosition f
  | assignment target sign value =>
    simp only [Statement.mapPosition, Statement.tokens, Formula.tokens_mapPosition, List.map_cons]
    rfl

theorem Derivation.tokens_mapPosition (d : Derivation) :
    (d.mapPosition f).tokens = d.tokens.map (Token.mapPosition f) := by
  simp only [mapPosition, tokens, List.flatMap_map, Statement.tokens_mapPosition, List.map_flatMap]

/-! ### What it stands for -/

theorem Atom.expr_mapPosition (a : Atom) : (a.mapPosition f).expr = a.expr.mapPosition f := by
  have hkind : (a.mapPosition f).token.kind = a.token.kind := rfl
  rw [Atom.expr, Atom.expr, hkind]
  split <;> rfl

mutual

theorem Operand.expr_mapPosition : ∀ o : Operand,
    (o.mapPosition f).expr = o.expr.mapPosition f
  | .atom a => a.expr_mapPosition f
  | .group p first links q => by
    rw [Operand.mapPosition, Operand.expr, Operand.expr_mapPosition first,
      Links.expr_mapPosition links, Operand.expr]

theorem Links.expr_mapPosition : ∀ (l : Links) (left : Expr),
    (l.mapPosition f).expr (left.mapPosition f) = (l.expr left).mapPosition f
  | .nil, left => rfl
  | .cons s right later, left => by
    -- the operation is the leftmost operand of the later links
    have hlater := Links.expr_mapPosition later
      (.arith s.op left right.expr s.token.position)
    rw [Links.mapPosition, Links.expr, Operand.expr_mapPosition right, Links.expr]
    exact hlater

end

theorem Statement.expr_mapPosition (s : Statement) :
    (s.mapPosition f).expr = s.expr.mapPosition f := by
  have hformula (g : Formula) : (g.mapPosition f).expr = g.expr.mapPosition f := by
    rw [Formula.mapPosition, Formula.expr, Operand.expr_mapPosition, Links.expr_mapPosition,
      Formula.expr]
  cases s with
  | formula g => exact hformula g
  | assignment target sign value =>
    rw [Statement.mapPosition, Statement.expr, Atom.expr_mapPosition, hformula, Statement.expr]
    rfl

theorem Derivation.program_mapPosition (d : Derivation) :
    (d.mapPosition f).program = d.program.map (Expr.mapPosition f) := by
  simp only [mapPosition, program, List.map_map]
  exact List.map_congr_left fun s _ => s.expr_mapPosition f

/-! ### How deep it nests -/

mutual

theorem Operand.depth_mapPosition : ∀ o : Operand, (o.mapPosition f).depth = o.depth
  | .atom a => rfl
  | .group p first links q => by
    rw [Operand.mapPosition, Operand.depth, Operand.depth_mapPosition first,
      Links.depth_mapPosition links, Operand.depth]

theorem Links.depth_mapPosition : ∀ l : Links, (l.mapPosition f).depth = l.depth
  | .nil => rfl
  | .cons s right later => by
    rw [Links.mapPosition, Links.depth, Operand.depth_mapPosition right,
      Links.depth_mapPosition later, Links.depth]

end

theorem Statement.depth_mapPosition (s : Statement) : (s.mapPosition f).depth = s.depth := by
  have hformula (g : Formula) : (g.mapPosition f).depth = g.depth := by
    rw [Formula.mapPosition, Formula.depth, Operand.depth_mapPosition, Links.depth_mapPosition,
      Formula.depth]
  cases s with
  | formula g => exact hformula g
  | assignment target sign value => exact hformula value

end Grammar

/-! ## Evaluation -/

theorem Expr.renderSpine_mapPosition (f : Nat → Nat) (e : Expr) (opened : Nat) (after : String) :
    (e.mapPosition f).renderSpine opened after = e.renderSpine opened after := by
  induction e generalizing opened after with
  | number text position => rfl
  | identifier name position => rfl
  | arith op left right position ihLeft ihRight =>
    rw [mapPosition, renderSpine, ihLeft, ihRight, renderSpine]
  | assign target value position ihTarget ihValue =>
    rw [mapPosition, renderSpine, ihTarget, ihValue, renderSpine]

namespace Eval

theorem bindTarget_mapPosition (f : Nat → Nat) (target : Expr) (value : Evaluation Float) :
    bindTarget (target.mapPosition f) value = bindTarget target value := by
  have hrender : (target.mapPosition f).render = target.render :=
    target.renderSpine_mapPosition f 0 ""
  cases target with
  | identifier name position => rfl
  | _ => exact congrArg (fun text => throw (EvalFault.invalidTarget text)) hrender

theorem spine_mapPosition (f : Nat → Nat) (e : Expr) (pending : List (Float → Evaluation Float)) :
    spine (e.mapPosition f) pending = spine e pending := by
  induction e generalizing pending with
  | number text position => rfl
  | identifier name position => rfl
  | arith op left right position ihLeft ihRight =>
    rw [Expr.mapPosition, spine, ihLeft, ihRight, spine]
  | assign target value position ihTarget ihValue =>
    rw [Expr.mapPosition, spine, bindTarget_mapPosition, ihValue, spine]

theorem statements_mapPosition (f : Nat → Nat) (last : Float) (later : Program) :
    statements last (later.map (Expr.mapPosition f)) = statements last later := by
  induction later generalizing last with
  | nil => rfl
  | cons first later ih =>
    simp only [List.map_cons, statements, expr, spine_mapPosition, ih]

/-- Evaluation does not depend on where the tokens of a program stand. -/
theorem program_mapPosition (f : Nat → Nat) (p : Program) :
    program (p.map (Expr.mapPosition f)) = program p := by
  cases p with
  | nil => rfl
  | cons first later =>
    simp only [List.map_cons, program, expr, spine_mapPosition, statements_mapPosition]

theorem program_unplaced (p : Program) : program p.unplaced = program p :=
  program_mapPosition _ p

end Eval

end LineCalc
