import Mathlib
import LineCalc.Proofs.Meaning

/-!
# Effects of a failing line

A line that is not well formed binds nothing. A line that fails while it is
evaluated keeps what its statements before the failing one have bound, and the
failing one binds nothing.

An expression of any shape may bind a name and then fail. The expressions of
programs do not: an assignment stands only at the root of a statement, so
everything that can fail comes before the binding (`expr_atomic`).
-/

namespace LineCalc

/-- The expressions are evaluated one after the other, and none fails. -/
inductive Executes : Bindings → Program → Bindings → Prop
  | nil (b : Bindings) : Executes b [] b
  | cons {b b₁ b₂ : Bindings} {e : Expr} {later : Program} {value : Float}
      (hfirst : (Eval.expr e).run b = .ok value b₁) (hlater : Executes b₁ later b₂) :
      Executes b (e :: later) b₂

/-- The expression with index `k` fails and leaves the bindings as they were
before it; those before it have been evaluated. -/
def FailsAt (b : Bindings) (program : Program) (fault : EvalFault) (b' : Bindings) (k : Nat) :
    Prop :=
  ∃ failing, program[k]? = some failing ∧ Executes b (program.take k) b' ∧
    (Eval.expr failing).run b' = .error fault b'

theorem FailsAt.after {b b₁ b' : Bindings} {e : Expr} {later : Program} {fault : EvalFault}
    {value : Float} {k : Nat} (hfirst : (Eval.expr e).run b = .ok value b₁)
    (h : FailsAt b₁ later fault b' k) : FailsAt b (e :: later) fault b' (k + 1) := by
  obtain ⟨failing, hget, hexecutes, hfails⟩ := h
  exact ⟨failing, hget, .cons hfirst hexecutes, hfails⟩

theorem Surface.Statement.exec_error {s : Surface.Statement} {b b' : Bindings}
    {fault : EvalFault} (h : s.exec b = (.error fault, b')) : b' = b := by
  match s with
  | .chain c => exact (Prod.mk.inj h).2.symm
  | .assign (.number text) value => exact (Prod.mk.inj h).2.symm
  | .assign (.name text) value =>
    rw [Surface.Statement.exec] at h
    split at h
    · cases h
    · exact (Prod.mk.inj h).2.symm

namespace Grammar

theorem expr_atomic {g : Statement} {b b' : Bindings} {fault : EvalFault}
    (h : (Eval.expr g.expr).run b = .error fault b') : b' = b := by
  rw [run_expr_statement] at h
  cases hexec : g.surface.exec b with
  | mk value b₁ =>
    rw [hexec] at h
    cases value with
    | ok x => cases h
    | error fault' =>
      cases h
      exact Surface.Statement.exec_error hexec

/-- Statements are evaluated up to the end or up to one that fails, which changes
nothing. -/
theorem statements_effects (gs : List Statement) (last : Float) (b : Bindings) :
    match (Eval.statements last (gs.map Statement.expr)).run b with
    | .ok _ b' => Executes b (gs.map Statement.expr) b'
    | .error fault b' => ∃ k, FailsAt b (gs.map Statement.expr) fault b' k := by
  induction gs generalizing last b with
  | nil => exact .nil b
  | cons g later ih =>
    show match EStateM.run (Eval.expr g.expr >>= fun value =>
      Eval.statements value (later.map Statement.expr)) b with | .ok _ b' => _ | .error _ b' => _
    rw [EStateM.run_bind]
    cases hfirst : (Eval.expr g.expr).run b with
    | error fault b' =>
      obtain rfl := expr_atomic hfirst
      exact ⟨0, g.expr, rfl, .nil b', hfirst⟩
    | ok value b₁ =>
      -- the later statements start from what this one has bound
      have hlater := ih value b₁
      cases hrun : (Eval.statements value (later.map Statement.expr)).run b₁ with
      | ok result b' =>
        rw [hrun] at hlater
        simp only [hrun]
        exact .cons hfirst hlater
      | error fault b' =>
        rw [hrun] at hlater
        obtain ⟨k, hk⟩ := hlater
        simp only [hrun]
        exact ⟨k + 1, hk.after hfirst⟩

end Grammar

theorem Program.effects {tokens : List Token} {finish : Nat} {program : Program}
    (h : Program.ofTokens tokens finish = .ok program) (b : Bindings) :
    match (Eval.program program).run b with
    | .ok _ b' => Executes b program b'
    | .error fault b' => ∃ k, FailsAt b program fault b' k := by
  obtain ⟨⟨gs, hne⟩, -, -, rfl⟩ := Program.exists_derivation h
  cases gs with
  | nil => exact absurd rfl hne
  | cons g later => exact Grammar.statements_effects (g :: later) 0 b

namespace Session

theorem evaluate_effects {s : Session} {program : Program} {tokens : List Token} {finish : Nat}
    (h : Program.ofTokens tokens finish = .ok program) :
    (∀ value, (s.evaluate program).1 = .ok value →
      Executes s.bindings program (s.evaluate program).2.bindings) ∧
    (∀ fault, (s.evaluate program).1 = .error fault → ∃ reason, fault = .eval reason ∧
      ∃ k, FailsAt s.bindings program reason (s.evaluate program).2.bindings k) := by
  have heffects := Program.effects h s.bindings
  rw [evaluate]
  cases hrun : (Eval.program program).run s.bindings with
  | ok value b =>
    rw [hrun] at heffects
    refine ⟨fun _ _ => heffects, ?_⟩
    intro fault hfault
    cases hfault
  | error reason b =>
    rw [hrun] at heffects
    refine ⟨?_, ?_⟩
    · intro value hvalue
      cases hvalue
    · intro fault hfault
      cases hfault
      exact ⟨reason, rfl, heffects⟩

/-- **Effects of a line.** A source that cannot be scanned or parsed leaves the
bindings as they are. If the evaluation of its program fails, it is at some
statement that changes nothing, and the bindings are those of the statements
before it; else they are those of all its statements. -/
theorem run_effects (s : Session) (source : String) :
    (∀ fault, (s.run source).1 = .error (.scan fault) →
      (s.run source).2.bindings = s.bindings) ∧
    (∀ fault, (s.run source).1 = .error (.parse fault) →
      (s.run source).2.bindings = s.bindings) ∧
    (∀ fault, (s.run source).1 = .error (.eval fault) →
      ∃ program, Program.ofSource source = .ok program ∧
        ∃ k, FailsAt s.bindings program fault (s.run source).2.bindings k) ∧
    (∀ value, (s.run source).1 = .ok value →
      ∃ program, Program.ofSource source = .ok program ∧
        Executes s.bindings program (s.run source).2.bindings) := by
  cases hscan : Token.scan source with
  | mk tokens stopped =>
    cases stopped with
    | some fault =>
      rw [run_of_scanFault hscan]
      simp
    | none =>
      cases hparse : Program.ofTokens tokens (Text.byteSize source.toList) with
      | error fault =>
        rw [run_of_parseFault hscan hparse]
        simp
      | ok program =>
        have hsource : Program.ofSource source = .ok program := by
          rw [Program.ofSource, Token.tokenize_eq_ok.mpr hscan]
          simp only [hparse]
          rfl
        obtain ⟨hok, herror⟩ := evaluate_effects (s := { s with scanned := tokens }) hparse
        rw [run_of_program hscan hparse]
        refine ⟨?_, ?_, ?_, ?_⟩
        · intro fault hfault
          obtain ⟨reason, hreason, -⟩ := herror _ hfault
          cases hreason
        · intro fault hfault
          obtain ⟨reason, hreason, -⟩ := herror _ hfault
          cases hreason
        · intro fault hfault
          obtain ⟨reason, hreason, hfails⟩ := herror _ hfault
          cases hreason
          exact ⟨program, hsource, hfails⟩
        · intro value hvalue
          exact ⟨program, hsource, hok value hvalue⟩

/-- A line of each kind: one that is not scanned, one that is not parsed, one that
fails at its second statement, and one that does not fail. -/
theorem run_effects_stages :
    ((run {} "x = 1 #").1 = .error (.scan ⟨'#', 6⟩) ∧
      (run {} "x = 1 #").2.bindings = .empty) ∧
    ((run {} "x = 1 (").1 = .error (.parse (.expectedAtom 7)) ∧
      (run {} "x = 1 (").2.bindings = .empty) ∧
    ((run {} "x = 1 y").1 = .error (.eval (.unknownName "y" (some "x"))) ∧
      ∃ program, Program.ofSource "x = 1 y" = .ok program ∧
        ∃ k, FailsAt .empty program (.unknownName "y" (some "x")) (run {} "x = 1 y").2.bindings k) ∧
    ((∃ value, (run {} "x = 1").1 = .ok value) ∧
      ∃ program, Program.ofSource "x = 1" = .ok program ∧
        Executes .empty program (run {} "x = 1").2.bindings) := by
  have hscan : (run {} "x = 1 #").1 = .error (.scan ⟨'#', 6⟩) := by
    rw [run_of_scanFault (by cbv)]
  have hparse : (run {} "x = 1 (").1 = .error (.parse (.expectedAtom 7)) := by
    rw [run_of_parseFault (by cbv) rfl]
    rfl
  have heval : (run {} "x = 1 y").1 = .error (.eval (.unknownName "y" (some "x"))) := by
    rw [run_of_program (by cbv) rfl]
    rfl
  have hok : ∃ value, (run {} "x = 1").1 = .ok value := by
    rw [run_of_program (by cbv) rfl]
    exact ⟨_, rfl⟩
  obtain ⟨value, hvalue⟩ := hok
  exact ⟨⟨hscan, (run_effects {} "x = 1 #").1 _ hscan⟩,
    ⟨hparse, (run_effects {} "x = 1 (").2.1 _ hparse⟩,
    ⟨heval, (run_effects {} "x = 1 y").2.2.1 _ heval⟩,
    ⟨⟨value, hvalue⟩, (run_effects {} "x = 1").2.2.2 _ hvalue⟩⟩

end Session

end LineCalc
