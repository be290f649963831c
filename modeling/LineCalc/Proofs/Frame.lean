import LineCalc.Proofs.Footprint

/-!
# What evaluation leaves alone

Evaluation changes bindings by the writes of the expression and by nothing else, whether
it ends with a value or with a fault (`Eval.left_expr`). All writes are to targets, and
an evaluation that ends with a value has come past every assignment, so it has written
every target (`Eval.exists_write`).

Main statements:

* `Eval.expr_frame`: a name that is no target keeps its binding, no binding is taken away,
  a value is there only with all targets bound, and an expression without assignments
  changes nothing.
* `Eval.assignment_unchanged_iff`: an assignment that fails has not bound its target. It
  leaves all bindings as they were only if the assignments inside its value do so too:
  what these have written before the fault stays.
-/

namespace LineCalc

/-! ## Writes and targets -/

namespace Expr

variable {e : Expr}

theorem targets_of_isFormula (h : e.isFormula = true) : e.targets = [] := by
  induction e with
  | number text position => rfl
  | identifier name position => rfl
  | arith op left right position ihLeft ihRight =>
    rw [isFormula, Bool.and_eq_true] at h
    rw [targets, ihLeft h.1, ihRight h.2]
    rfl
  | assign target value position => cases h

theorem writes_of_isFormula (h : e.isFormula = true) (b : Bindings) : e.writes b = [] := by
  rw [List.eq_nil_iff_forall_not_mem]
  intro event hevent
  obtain ⟨name, hname, -⟩ := writesTo_of_mem_writes hevent
  rw [targets_of_isFormula h] at hname
  cases hname

theorem clear_notMem_writes (e : Expr) (b : Bindings) : .clear ∉ e.writes b := by
  intro hclear
  obtain ⟨name, -, value, heq⟩ := writesTo_of_mem_writes hclear
  cases heq

end Expr

/-- A name that has been written is bound, if names are never forgotten. -/
theorem Bindings.contains_replay_of_write {b : Bindings} {events : List Event} {name : String}
    {value : Float} (hevents : .clear ∉ events) (h : .write name value ∈ events) :
    (b.replay events).contains name = true := by
  obtain ⟨front, back, rfl⟩ := List.append_of_mem h
  have hback : .clear ∉ back := fun hclear => hevents (by simp [hclear])
  have hwritten : ((b.replay front).insert name value).contains name = true := by
    simp [contains]
  rw [replay_append]
  exact contains_replay (b := (b.replay front).insert name value) hback hwritten

namespace Eval

/-! ## Expressions -/

variable {b b' : Bindings}

/-- An evaluation changes the bindings by its writes. -/
theorem left_expr (e : Expr) (b : Bindings) :
    left ((expr e).run b) = b.replay (e.writes b) :=
  (expr_parallel e fun _ _ => rfl).2.left_eq.1

/-- An operation has a value only if both operands have one. -/
theorem expr_arith_eq_ok {op : Operator} {left right : Expr} {position : Nat} {z : Float}
    (h : (expr (.arith op left right position)).run b = .ok z b') :
    ∃ x b₁ y, (expr left).run b = .ok x b₁ ∧ (expr right).run b₁ = .ok y b' := by
  rw [expr_arith, EStateM.run_bind] at h
  cases hleft : (expr left).run b with
  | error fault b₁ =>
    rw [hleft] at h
    cases h
  | ok x b₁ =>
    simp only [hleft] at h
    rw [EStateM.run_bind] at h
    cases hright : (expr right).run b₁ with
    | error fault b₂ =>
      rw [hright] at h
      cases h
    | ok y b₂ =>
      rw [hright] at h
      cases h
      exact ⟨x, b₁, y, rfl, hright⟩

/-- An assignment has a value only if its target is a name, and its value has one. -/
theorem assignment_eq_ok {target value : Expr} {x : Float}
    (h : (assignment target value).run b = .ok x b') :
    (∃ name position, target = .identifier name position) ∧
      ∃ b₁, (expr value).run b = .ok x b₁ := by
  rw [assignment] at h
  cases target with
  | identifier name position =>
    rw [bindTarget, EStateM.run_bind] at h
    cases hvalue : (expr value).run b with
    | error fault b₁ =>
      rw [hvalue] at h
      cases h
    | ok y b₁ =>
      rw [hvalue] at h
      cases h
      exact ⟨⟨name, position, rfl⟩, b₁, rfl⟩
  | _ => cases h

/-- An evaluation that ends with a value has written every target. -/
theorem exists_write {e : Expr} {x : Float} (h : (expr e).run b = .ok x b') {name : String}
    (hname : name ∈ e.targets) : ∃ value, .write name value ∈ e.writes b := by
  induction e generalizing b b' x with
  | number text position => cases hname
  | identifier other position => cases hname
  | arith op left right position ihLeft ihRight =>
    obtain ⟨y, b₁, z, hleft, hright⟩ := expr_arith_eq_ok h
    rw [Expr.targets, List.mem_append] at hname
    simp only [Expr.writes, hleft, List.mem_append]
    rcases hname with hname | hname
    · obtain ⟨value, hvalue⟩ := ihLeft hleft hname
      exact ⟨value, .inl hvalue⟩
    · obtain ⟨value, hvalue⟩ := ihRight hright hname
      exact ⟨value, .inr hvalue⟩
  | assign target value position _ ihValue =>
    rw [expr_assign] at h
    obtain ⟨⟨bound, place, rfl⟩, b₁, hvalue⟩ := assignment_eq_ok h
    simp only [Expr.writes, hvalue, List.mem_append, List.mem_singleton]
    rcases List.mem_cons.mp hname with rfl | hname
    · exact ⟨x, .inr rfl⟩
    · obtain ⟨y, hy⟩ := ihValue hvalue hname
      exact ⟨y, .inl hy⟩

theorem contains_of_mem_targets {e : Expr} {x : Float} (h : (expr e).run b = .ok x b')
    {name : String} (hname : name ∈ e.targets) : b'.contains name = true := by
  obtain ⟨value, hvalue⟩ := exists_write h hname
  have hleft : b' = b.replay (e.writes b) := by
    rw [← left_expr, h]
    rfl
  rw [hleft]
  exact Bindings.contains_replay_of_write (e.clear_notMem_writes b) hvalue

theorem get?_left_expr (e : Expr) (b : Bindings) {name : String} (h : name ∉ e.targets) :
    (left ((expr e).run b)).get? name = b.get? name := by
  rw [left_expr]
  exact Bindings.get?_replay_of_writesTo (fun _ => Expr.writesTo_of_mem_writes) h

theorem left_expr_of_isFormula {e : Expr} (h : e.isFormula = true) (b : Bindings) :
    left ((expr e).run b) = b := by
  rw [left_expr, Expr.writes_of_isFormula h]
  rfl

/-- **Evaluation writes targets only.** Whether it ends with a value or with a fault, each
name that is the target of no assignment keeps its binding, and no binding is taken away.
If it ends with a value, all targets are bound. An expression without assignments leaves
the bindings as they are, so it can be evaluated again with the same result. -/
theorem expr_frame (e : Expr) (b : Bindings) :
    let r := (expr e).run b
    (∀ name ∉ e.targets, (left r).get? name = b.get? name) ∧
    (∀ name, b.contains name = true → (left r).contains name = true) ∧
    (∀ x b', r = .ok x b' → ∀ name ∈ e.targets, b'.contains name = true) ∧
    (e.isFormula = true → left r = b ∧ (expr e).run (left r) = r) := by
  intro r
  refine ⟨?_, ?_, ?_, ?_⟩
  · intro name hname
    exact get?_left_expr e b hname
  · intro name hname
    show (left ((expr e).run b)).contains name = true
    rw [left_expr]
    exact Bindings.contains_replay (e.clear_notMem_writes b) hname
  · intro x b' hvalue name hname
    exact contains_of_mem_targets hvalue hname
  · intro hformula
    have hleft : left r = b := left_expr_of_isFormula hformula b
    exact ⟨hleft, congrArg (expr e).run hleft⟩

/-- A sum that assigns to `x` and then fails, an assignment of an assignment, and a sum
without assignments that fails. -/
theorem expr_frame_partialSum :
    let b : Bindings := .ofList [("y", 2)]
    let unknown : Expr := .identifier "q" 8
    let partialSum : Expr := .arith .add (.assign (.identifier "x" 0) (.identifier "y" 4) 2)
      unknown 6
    let twice : Expr := .assign (.identifier "x" 0)
      (.assign (.identifier "w" 4) (.identifier "y" 8) 6) 2
    let plainSum : Expr := .arith .add (.identifier "y" 4) unknown 6
    (left ((expr partialSum).run b)).get? "x" = some 2 ∧
    (left ((expr partialSum).run b)).get? "y" = b.get? "y" ∧
    (left ((expr partialSum).run b)).contains "y" = true ∧
    (∃ b', (expr twice).run b = .ok 2 b' ∧ b'.contains "x" = true ∧ b'.contains "w" = true) ∧
    ending ((expr plainSum).run b) = .error (.unknownName "q" (some "y")) ∧
    left ((expr plainSum).run b) = b ∧
    (expr plainSum).run (left ((expr plainSum).run b)) = (expr plainSum).run b := by
  intro b unknown partialSum twice plainSum
  obtain ⟨hframe, hkept, -, -⟩ := expr_frame partialSum b
  obtain ⟨-, -, hbound, -⟩ := expr_frame twice b
  obtain ⟨-, -, -, hformula⟩ := expr_frame plainSum b
  refine ⟨rfl, hframe "y" (by decide), hkept "y" rfl, ?_, rfl, hformula rfl⟩
  exact ⟨_, rfl, hbound 2 _ rfl "x" (by decide), hbound 2 _ rfl "w" (by decide)⟩

/-! ## Assignments -/

/-- An assignment fails before its value is evaluated, or as its value does. -/
theorem assignment_eq_error {target value : Expr} {fault : EvalFault}
    (h : (assignment target value).run b = .error fault b') :
    ((∀ name position, target ≠ .identifier name position) ∧ b' = b) ∨
      ((∃ name position, target = .identifier name position) ∧
        (expr value).run b = .error fault b') := by
  rw [assignment] at h
  cases target with
  | identifier name position =>
    rw [bindTarget, EStateM.run_bind] at h
    cases hvalue : (expr value).run b with
    | ok x b₁ =>
      rw [hvalue] at h
      cases h
    | error fault' b₁ =>
      rw [hvalue] at h
      cases h
      exact .inr ⟨⟨name, position, rfl⟩, rfl⟩
  | _ =>
    cases h
    refine .inl ⟨?_, rfl⟩
    intro name position htarget
    cases htarget

/-- **What a failing assignment leaves.** All names have their former values if and only if
the target is no name, so that nothing has been evaluated, or the writes of the value up to
the fault, taken together, change nothing. The latter is so if there is no assignment inside
the value. In any case only targets inside the value have changed: the assignment itself has
bound nothing. -/
theorem assignment_unchanged_iff {target value : Expr} {fault : EvalFault}
    (h : (assignment target value).run b = .error fault b') :
    ((∀ name, b'.get? name = b.get? name) ↔
      (∀ name position, target ≠ .identifier name position) ∨
        ∀ name, Event.latest name (b.get? name) (value.writes b) = b.get? name) ∧
    (value.isFormula = true → b' = b) ∧
    (∀ name ∉ value.targets, b'.get? name = b.get? name) := by
  rcases assignment_eq_error h with ⟨htarget, rfl⟩ | ⟨⟨name, position, rfl⟩, hvalue⟩
  · exact ⟨⟨fun _ => .inl htarget, fun _ _ => rfl⟩, fun _ => rfl, fun _ _ => rfl⟩
  · have hleft : b' = left ((expr value).run b) := by
      rw [hvalue]
      rfl
    refine ⟨?_, ?_, ?_⟩
    · -- the latest of the writes to a name is what is read of it
      have hlatest (other : String) :
          b'.get? other = Event.latest other (b.get? other) (value.writes b) := by
        rw [hleft, left_expr, Bindings.get?_replay]
      simp only [hlatest]
      constructor
      · exact .inr
      · rintro (htarget | hsame)
        · exact absurd rfl (htarget name position)
        · exact hsame
    · intro hformula
      rw [hleft, left_expr_of_isFormula hformula]
    · intro other hother
      rw [hleft, get?_left_expr value b hother]

/-- The value assigns to `y` what `y` had before, and fails afterwards. -/
theorem assignment_unchanged_sameValue :
    let b : Bindings := .ofList [("y", 2)]
    let value : Expr := .arith .add (.assign (.identifier "y" 4) (.identifier "y" 8) 6)
      (.identifier "missing" 12) 10
    ∃ b', (assignment (.identifier "x" 0) value).run b =
        .error (.unknownName "missing" none) b' ∧
      (∀ name, b'.get? name = b.get? name) ∧ b'.get? "x" = b.get? "x" := by
  intro b value
  have hwrites : value.writes b = [.write "y" 2] := rfl
  obtain ⟨b', hfails⟩ : ∃ b', (assignment (.identifier "x" 0) value).run b =
      .error (.unknownName "missing" none) b' := ⟨_, rfl⟩
  obtain ⟨hsame, -, hothers⟩ := assignment_unchanged_iff hfails
  refine ⟨b', hfails, hsame.mpr (.inr ?_), hothers "x" (by decide)⟩
  intro name
  by_cases hname : name = "y"
  · subst hname
    rfl
  · simp [hwrites, Event.latest, Event.leaves, hname]

/-- A failing assignment may change bindings: the value assigns to `y`, and fails
afterwards. -/
theorem assignment_changed_innerTarget :
    let b : Bindings := .ofList [("z", 2)]
    let value : Expr := .arith .add (.assign (.identifier "y" 4) (.identifier "z" 8) 6)
      (.identifier "missing" 12) 10
    ∃ b', (assignment (.identifier "x" 0) value).run b =
        .error (.unknownName "missing" none) b' ∧
      b.get? "y" = none ∧ b'.get? "y" = some 2 :=
  ⟨_, rfl, rfl, rfl⟩

end Eval

end LineCalc
