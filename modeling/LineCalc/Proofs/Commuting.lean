import LineCalc.Proofs.Footprint

/-!
# Independent lines

Two lines are independent if neither assigns to a name that the other one reads or
assigns to (`Program.Independent`). It does not matter which of them is run first
(`Session.run_independent`), and this holds of lines that fail as well: what a line has
written before it fails is written in either order.

A line changes nothing but the names that it assigns to (`get?_run`), so the other line
finds all that it reads as it was before, and runs as if it were the first one
(`run_after`).
-/

namespace LineCalc

/-- The fault without the names that it suggests. -/
def Fault.unhinted : Fault → Fault
  | eval fault => eval fault.unhinted
  | fault => fault

/-- Neither program assigns to a name that the other one reads or assigns to. -/
structure Program.Independent (p q : Program) : Prop where
  targets_reads : p.targets.Disjoint q.reads
  reads_targets : p.reads.Disjoint q.targets
  targets_targets : p.targets.Disjoint q.targets

theorem Program.Independent.symm {p q : Program} (h : p.Independent q) : q.Independent p where
  targets_reads := h.reads_targets.symm
  reads_targets := h.targets_reads.symm
  targets_targets := h.targets_targets.symm

namespace Session

variable {a b source : String} {p q : Program}

/-- A line leaves every name as it is that it does not assign to. -/
theorem get?_run (hp : Program.ofSource source = .ok p) (s : Session) {name : String}
    (hname : name ∉ p.targets) :
    (s.run source).2.bindings.get? name = s.bindings.get? name := by
  have hself : ∀ name ∈ p.reads, s.bindings.get? name = s.bindings.get? name := fun _ _ => rfl
  obtain ⟨events, hevents, hparallel⟩ := Eval.program_parallel p hself
  rw [(run_eq_program hp s).2, hparallel.left_eq.1]
  exact Bindings.get?_replay_of_writesTo hevents hname

/-- A line runs alike in two sessions that agree on the names that it reads. -/
theorem run_alike (hp : Program.ofSource source = .ok p) {s s' : Session}
    (h : ∀ name ∈ p.reads, s.bindings.get? name = s'.bindings.get? name) :
    (s.run source).1.mapError Fault.unhinted = (s'.run source).1.mapError Fault.unhinted ∧
    ∀ name, s.bindings.get? name = s'.bindings.get? name →
      (s.run source).2.bindings.get? name = (s'.run source).2.bindings.get? name := by
  refine ⟨?_, fun name => get?_run_congr hp h⟩
  obtain ⟨events, -, hparallel⟩ := Eval.program_parallel p h
  have hending := congrArg (Except.mapError Fault.eval) hparallel.ending_eq
  rw [(run_eq_program hp s).1, (run_eq_program hp s').1]
  generalize Eval.ending ((Eval.program p).run s.bindings) = ending at hending
  generalize Eval.ending ((Eval.program p).run s'.bindings) = ending' at hending
  cases ending <;> cases ending' <;> exact hending

/-- A line runs after an independent one as it would have run before it, and leaves the
same in all names but those that the other line assigns to. -/
theorem run_after (ha : Program.ofSource a = .ok p) (hb : Program.ofSource b = .ok q)
    (h : p.Independent q) (s : Session) :
    (s.run a).1.mapError Fault.unhinted =
      ((s.run b).2.run a).1.mapError Fault.unhinted ∧
    ∀ name ∉ q.targets,
      (s.run a).2.bindings.get? name = ((s.run b).2.run a).2.bindings.get? name := by
  have hreads : ∀ name ∈ p.reads,
      s.bindings.get? name = (s.run b).2.bindings.get? name := by
    intro name hname
    exact (get?_run hb s (h.reads_targets hname)).symm
  obtain ⟨hresult, hbindings⟩ := run_alike ha hreads
  refine ⟨hresult, ?_⟩
  intro name hname
  exact hbindings name (get?_run hb s hname).symm

/-- **Independent lines commute.** Of two lines of which neither assigns to a name that the
other one reads or assigns to, either may be run first. The bindings after both are the
same, and each line has the same value in both orders, or the same fault up to what it
suggests. -/
theorem run_independent (ha : Program.ofSource a = .ok p) (hb : Program.ofSource b = .ok q)
    (h : p.Independent q) (s : Session) :
    (∀ name, ((s.run a).2.run b).2.bindings.get? name =
      ((s.run b).2.run a).2.bindings.get? name) ∧
    (s.run a).1.mapError Fault.unhinted = ((s.run b).2.run a).1.mapError Fault.unhinted ∧
    (s.run b).1.mapError Fault.unhinted = ((s.run a).2.run b).1.mapError Fault.unhinted := by
  obtain ⟨hfirst, hleft⟩ := run_after ha hb h s
  obtain ⟨hsecond, hleft'⟩ := run_after hb ha h.symm s
  refine ⟨?_, hfirst, hsecond⟩
  intro name
  by_cases hname : name ∈ q.targets
  · -- the first line leaves the name alone, before the second one and after it
    have hother : name ∉ p.targets := fun hp => h.targets_targets hp hname
    rw [← hleft' name hother, get?_run ha _ hother]
  · rw [← hleft name hname, get?_run hb _ hname]

/-- The first line writes `x` and then fails; the second one writes `w`, which shows in
what is suggested and nowhere else. -/
theorem run_independent_failingLine :
    let s : Session := { bindings := .ofList [("y", 2)] }
    (s.run "x = y q").1 = .error (.eval (.unknownName "q" (some "x, y"))) ∧
    ((s.run "w = y").2.run "x = y q").1 =
      .error (.eval (.unknownName "q" (some "w, x, y"))) ∧
    (∀ name, ((s.run "x = y q").2.run "w = y").2.bindings.get? name =
      ((s.run "w = y").2.run "x = y q").2.bindings.get? name) ∧
    ((s.run "x = y q").2.run "w = y").2.bindings.get? "x" = some 2 := by
  intro s
  have ha : Program.ofSource "x = y q" = .ok
      [.assign (.identifier "x" 0) (.identifier "y" 4) 2, .identifier "q" 6] := by cbv
  have hb : Program.ofSource "w = y" = .ok
      [.assign (.identifier "w" 0) (.identifier "y" 4) 2] := by cbv
  have hindependent : Program.Independent
      [.assign (.identifier "x" 0) (.identifier "y" 4) 2, .identifier "q" 6]
      [.assign (.identifier "w" 0) (.identifier "y" 4) 2] :=
    ⟨by simp [Program.targets, Program.reads, Expr.targets, Expr.reads],
     by simp [Program.targets, Program.reads, Expr.targets, Expr.reads],
     by simp [Program.targets, Expr.targets]⟩
  obtain ⟨hsame, -, -⟩ := run_independent ha hb hindependent s
  refine ⟨?_, ?_, hsame, ?_⟩
  · rw [(run_eq_program ha s).1]
    rfl
  · rw [(run_eq_program ha _).1, (run_eq_program hb s).2]
    rfl
  · rw [get?_run hb _ (by simp [Program.targets, Expr.targets]), (run_eq_program ha s).2]
    rfl

end Session

end LineCalc
