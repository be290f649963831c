import LineCalc.Proofs.Footprint
import LineCalc.Proofs.NearestNames

/-!
# Sessions with the same bindings

Two sessions may have come to the same bindings in different ways: names were bound in
another order or more often, names were forgotten, lines have failed and left their tokens
behind. None of this shows in what is run afterwards (`Session.run_of_bindings`).

By what the names read and write, the runs of a line are parallel, so they can differ at
most in what a fault suggests. That is looked up among the names that are bound when the
evaluation ends (`Eval.Hinted`), and their order does not matter to the search.
-/

namespace LineCalc

theorem Bindings.mem_names_congr {b b' : Bindings} (h : ∀ name, b.get? name = b'.get? name)
    (name : String) : name ∈ b.names ↔ name ∈ b'.names := by
  rw [mem_names_iff, mem_names_iff, h]

/-- Faults that are the same without a suggestion are the same, or about the same name that
is not known. -/
theorem EvalFault.cases_of_unhinted {f f' : EvalFault} (h : f.unhinted = f'.unhinted) :
    f = f' ∨ ∃ name hint hint', f = .unknownName name hint ∧ f' = .unknownName name hint' := by
  cases f <;> cases f' <;> simp_all [unhinted]

namespace Eval

/-! ## What is suggested -/

/-- What a fault suggests is found among the names that the evaluation has left. -/
def Hinted : EStateM.Result EvalFault Bindings Float → Prop
  | .error (.unknownName name hint) b =>
    hint = NearestName.closestWithin suggestionLimit name b.names
  | _ => True

theorem Hinted.bind {x : Evaluation Float} {next : Float → Evaluation Float} {b : Bindings}
    (hx : Hinted (x.run b)) (hnext : ∀ y b', Hinted ((next y).run b')) :
    Hinted ((x >>= next).run b) := by
  rw [EStateM.run_bind]
  cases hrun : x.run b with
  | ok y b' => exact hnext y b'
  | error fault b' =>
    rw [hrun] at hx
    exact hx

theorem hinted_expr (e : Expr) (b : Bindings) : Hinted ((expr e).run b) := by
  induction e generalizing b with
  | number text position =>
    rw [expr_number, number]
    cases Decimal.read? text <;> trivial
  | identifier name position =>
    rw [expr_identifier, identifier, EStateM.run_bind, EStateM.run_get]
    cases hvalue : b.get? name with
    | some x =>
      simp only [hvalue]
      trivial
    | none =>
      simp only [hvalue]
      rfl
  | arith op left right position ihLeft ihRight =>
    rw [expr_arith]
    exact .bind (ihLeft b) fun x b' => .bind (ihRight b') fun y b'' => trivial
  | assign target value position _ ihValue =>
    rw [expr_assign]
    cases target with
    | identifier name _ => exact .bind (ihValue b) fun x b' => trivial
    | _ => trivial

theorem hinted_statements (p : Program) (last : Float) (b : Bindings) :
    Hinted ((statements last p).run b) := by
  induction p generalizing last b with
  | nil => trivial
  | cons e later ih => exact .bind (hinted_expr e b) ih

theorem hinted_program (p : Program) (b : Bindings) : Hinted ((program p).run b) := by
  cases p with
  | nil => trivial
  | cons e later => exact hinted_statements (e :: later) 0 b

/-- Parallel evaluations from the same bindings end in the same way. -/
theorem Parallel.ending_eq_of_hinted {b b' : Bindings} {events : List Event}
    {r r' : EStateM.Result EvalFault Bindings Float} (h : Parallel b b' events r r')
    (hr : Hinted r) (hr' : Hinted r') (hsame : ∀ name, b.get? name = b'.get? name) :
    ending r = ending r' := by
  cases h with
  | value x => rfl
  | fault hfault =>
    rcases EvalFault.cases_of_unhinted hfault with rfl | ⟨name, hint, hint', rfl, rfl⟩
    · rfl
    · -- the names that are bound at the end are the same, in whatever order
      have hget (other : String) : (b.replay events).get? other = (b'.replay events).get? other :=
        Bindings.get?_replay_congr (hsame other)
      have hhint : hint = hint' := by
        rw [show hint = _ from hr, show hint' = _ from hr']
        exact NearestName.closestWithin_congr (Bindings.mem_names_congr hget)
      rw [hhint]
      rfl

end Eval

namespace Session

/-! ## What is run -/

/-- Sessions with the same bindings run a line to the same result, and have the same
bindings after it. -/
theorem run_same {s s' : Session} (h : ∀ name, s.bindings.get? name = s'.bindings.get? name)
    (source : String) :
    (s.run source).1 = (s'.run source).1 ∧
      ∀ name, (s.run source).2.bindings.get? name = (s'.run source).2.bindings.get? name := by
  cases hsource : Program.ofSource source with
  | error fault =>
    obtain ⟨hresult, hbindings⟩ := Prod.mk.inj (observed_run_of_error hsource s)
    obtain ⟨hresult', hbindings'⟩ := Prod.mk.inj (observed_run_of_error hsource s')
    rw [hresult, hbindings, hresult', hbindings']
    exact ⟨rfl, h⟩
  | ok p =>
    have hreads : ∀ name ∈ p.reads, s.bindings.get? name = s'.bindings.get? name :=
      fun name _ => h name
    refine ⟨?_, fun name => get?_run_congr hsource hreads (h name)⟩
    obtain ⟨events, -, hparallel⟩ := Eval.program_parallel p hreads
    have hending := hparallel.ending_eq_of_hinted (Eval.hinted_program p s.bindings)
      (Eval.hinted_program p s'.bindings) h
    rw [(run_eq_program hsource s).1, (run_eq_program hsource s').1, hending]

/-- The results of lines that are run one after the other. -/
def results (s : Session) : List String → List (Except Fault Float)
  | [] => []
  | line :: later => (s.run line).1 :: (s.run line).2.results later

theorem results_same {s s' : Session}
    (h : ∀ name, s.bindings.get? name = s'.bindings.get? name) (lines : List String) :
    s.results lines = s'.results lines ∧
      ∀ name, (s.performAll (lines.map .run)).bindings.get? name =
        (s'.performAll (lines.map .run)).bindings.get? name := by
  induction lines generalizing s s' with
  | nil => exact ⟨rfl, h⟩
  | cons line later ih =>
    obtain ⟨hresult, hbindings⟩ := run_same h line
    obtain ⟨hresults, hlater⟩ := ih hbindings
    refine ⟨?_, hlater⟩
    rw [results, results, hresult, hresults]

/-- **The past shows only in the bindings.** Two sessions, after any operations each, have
the same bindings. Then each line runs to the same result in both, faults with all that
they suggest included, and leaves the same bindings; and so do any lines that are run one
after the other. -/
theorem run_of_bindings (start start' : Session) (past past' : List Operation)
    (h : ∀ name, (start.performAll past).bindings.get? name =
      (start'.performAll past').bindings.get? name) :
    let s := start.performAll past
    let s' := start'.performAll past'
    (∀ source, (s.run source).1 = (s'.run source).1 ∧
      ∀ name, (s.run source).2.bindings.get? name = (s'.run source).2.bindings.get? name) ∧
    ∀ lines, s.results lines = s'.results lines ∧
      ∀ name, (s.performAll (lines.map .run)).bindings.get? name =
        (s'.performAll (lines.map .run)).bindings.get? name :=
  ⟨run_same h, results_same h⟩

/-- Two names are bound in one order, and in the other one after a line that is not scanned
to its end and after all names were forgotten. -/
theorem run_of_bindings_reordered :
    let s := performAll {} [.set "ab" 2, .set "bb" 1]
    let s' := performAll {} [.set "bb" 7, .set "x" 3, .run "bb #", .clear, .set "bb" 1, .set "ab" 2]
    s.bindings.names = ["ab", "bb"] ∧ s'.bindings.names = ["bb", "ab"] ∧
    (s.run "b").1 = .error (.eval (.unknownName "b" (some "ab, bb"))) ∧
    (s'.run "b").1 = .error (.eval (.unknownName "b" (some "ab, bb"))) ∧
    s.results ["c = ab", "b"] = s'.results ["c = ab", "b"] := by
  intro s s'
  have hsame (name : String) : s.bindings.get? name = s'.bindings.get? name := by
    have hs : s.bindings = (Bindings.empty.insert "ab" 2).insert "bb" 1 := rfl
    have hs' : s'.bindings = (Bindings.empty.insert "bb" 1).insert "ab" 2 := rfl
    rw [hs, hs']
    simp only [Bindings.get?_insert, Bindings.get?_empty]
    grind
  have hsource : Program.ofSource "b" = .ok [.identifier "b" 0] := by cbv
  have hfault : (s.run "b").1 = .error (.eval (.unknownName "b" (some "ab, bb"))) := by
    rw [(run_eq_program hsource s).1]
    rfl
  obtain ⟨hrun, hresults⟩ := run_of_bindings {} {} _ _ hsame
  exact ⟨rfl, rfl, hfault, (hrun "b").1 ▸ hfault, (hresults _).1⟩

end Session

end LineCalc
