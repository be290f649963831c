import LineCalc.Proofs.Evaluation
import LineCalc.Proofs.History

/-!
# The footprint of an expression

What an expression reads and what it assigns to can be told from its text alone
(`Expr.reads`, `Expr.targets`). What it writes, in which order and with which values,
depends on the bindings that it finds (`Expr.writes`).

Two evaluations of one expression run in parallel (`Eval.Parallel`) if they make the
same writes, each to bindings of its own, and end with the same value or with faults
that differ at most in what they suggest. Main statement: evaluations run in parallel if
the bindings that they start from agree on the names that the expression reads
(`Eval.expr_of_reads`). The writes carry the induction: the same writes to bindings that
agree on a name leave bindings that agree on it.
-/

namespace LineCalc

/-! ## Names -/

namespace Expr

/-- The names that occur in an expression, other than as the target of an assignment. -/
def reads : Expr → List String
  | number _ _ => []
  | identifier name _ => [name]
  | arith _ left right _ => left.reads ++ right.reads
  | assign target value _ =>
    match target with
    | identifier _ _ => value.reads
    | _ => target.reads ++ value.reads

/-- The names that occur in an expression as the target of an assignment. -/
def targets : Expr → List String
  | number _ _ | identifier _ _ => []
  | arith _ left right _ => left.targets ++ right.targets
  | assign target value _ =>
    match target with
    | identifier name _ => name :: value.targets
    | _ => target.targets ++ value.targets

/-- The writes of an expression, in the order in which they are made. What comes after a
fault writes nothing. -/
def writes : Expr → Bindings → List Event
  | number _ _, _ | identifier _ _, _ => []
  | arith _ left right _, b =>
    match (Eval.expr left).run b with
    | .ok _ b' => left.writes b ++ right.writes b'
    | .error _ _ => left.writes b
  | assign target value _, b =>
    match target with
    | identifier name _ =>
      match (Eval.expr value).run b with
      | .ok x _ => value.writes b ++ [.write name x]
      | .error _ _ => value.writes b
    | _ => []

theorem mem_targets_assign {target value : Expr} {position : Nat} {name : String}
    (h : name ∈ value.targets) : name ∈ (assign target value position).targets := by
  cases target <;> simp [targets, h]

end Expr

/-! ## Writes -/

namespace Event

/-- The event is a write to one of the names. -/
def WritesTo (names : List String) (e : Event) : Prop :=
  ∃ name ∈ names, ∃ value, e = .write name value

theorem WritesTo.mono {names more : List String} {e : Event} (h : e.WritesTo names)
    (hsub : names ⊆ more) : e.WritesTo more := by
  obtain ⟨name, hname, value, rfl⟩ := h
  exact ⟨name, hsub hname, value, rfl⟩

end Event

namespace Bindings

variable {b b' : Bindings} {events : List Event} {name : String}

/-- Bindings that agree on a name still do so after the same events. -/
theorem get?_replay_congr (h : b.get? name = b'.get? name) :
    (b.replay events).get? name = (b'.replay events).get? name := by
  rw [get?_replay, get?_replay, h]

/-- A name that has been written has the same value in all bindings. -/
theorem get?_replay_of_write {value : Float} (h : .write name value ∈ events) :
    (b.replay events).get? name = (b'.replay events).get? name := by
  rw [get?_replay, get?_replay, Event.latest, Event.latest]
  have hsome : (events.reverse.findSome? (Event.leaves name)).isSome = true := by
    rw [List.findSome?_isSome_iff]
    exact ⟨.write name value, List.mem_reverse.mpr h, by simp [Event.leaves]⟩
  obtain ⟨latest, hlatest⟩ := Option.isSome_iff_exists.mp hsome
  rw [hlatest]
  rfl

/-- Writes to other names leave a name as it is. -/
theorem get?_replay_of_writesTo {names : List String} (h : ∀ e ∈ events, e.WritesTo names)
    (hname : name ∉ names) : (b.replay events).get? name = b.get? name := by
  induction events generalizing b with
  | nil => rfl
  | cons e later ih =>
    obtain ⟨other, hother, value, rfl⟩ := h e (by simp)
    have hne : name ≠ other := fun heq => hname (heq ▸ hother)
    calc (b.replay (.write other value :: later)).get? name
      _ = (b.insert other value).get? name := ih fun e' he' => h e' (by simp [he'])
      _ = b.get? name := by rw [get?_insert, if_neg hne]

end Bindings

theorem Expr.writesTo_of_mem_writes {e : Expr} {b : Bindings} {event : Event}
    (h : event ∈ e.writes b) : event.WritesTo e.targets := by
  induction e generalizing b with
  | number text position => cases h
  | identifier name position => cases h
  | arith op left right position ihLeft ihRight =>
    rw [writes] at h
    rw [targets]
    split at h
    · rcases List.mem_append.mp h with h | h
      · exact (ihLeft h).mono (List.subset_append_left _ _)
      · exact (ihRight h).mono (List.subset_append_right _ _)
    · exact (ihLeft h).mono (List.subset_append_left _ _)
  | assign target value position _ ihValue =>
    have hmono {event : Event} (h : event.WritesTo value.targets) :
        event.WritesTo (assign target value position).targets :=
      h.mono fun _ => mem_targets_assign
    cases target with
    | identifier name _ =>
      simp only [writes] at h
      split at h
      · rcases List.mem_append.mp h with h | h
        · exact hmono (ihValue h)
        · exact ⟨name, by simp [targets], _, List.mem_singleton.mp h⟩
      · exact hmono (ihValue h)
    | _ => cases h

/-! ## Evaluations in parallel -/

/-- The fault without the names that it suggests. -/
def EvalFault.unhinted : EvalFault → EvalFault
  | unknownName name _ => unknownName name none
  | fault => fault

namespace Eval

/-- How an evaluation has ended. -/
def ending : EStateM.Result EvalFault Bindings Float → Except EvalFault Float
  | .ok x _ => .ok x
  | .error fault _ => .error fault

/-- The bindings that an evaluation has left. -/
def left : EStateM.Result EvalFault Bindings Float → Bindings
  | .ok _ b => b
  | .error _ b => b

/-- Two evaluations, from `b` and from `b'`, make the same writes and then end with the
same value, or with faults that differ at most in what they suggest. -/
inductive Parallel (b b' : Bindings) (events : List Event) :
    EStateM.Result EvalFault Bindings Float → EStateM.Result EvalFault Bindings Float → Prop
  | value (x : Float) : Parallel b b' events (.ok x (b.replay events)) (.ok x (b'.replay events))
  | fault {f f' : EvalFault} (h : f.unhinted = f'.unhinted) :
      Parallel b b' events (.error f (b.replay events)) (.error f' (b'.replay events))

/-- What goes on in parallel after some writes does so from before them. -/
theorem Parallel.after {b b' : Bindings} {events more : List Event}
    {r r' : EStateM.Result EvalFault Bindings Float}
    (h : Parallel (b.replay events) (b'.replay events) more r r') :
    Parallel b b' (events ++ more) r r' := by
  cases h with
  | value x =>
    rw [← Bindings.replay_append, ← Bindings.replay_append]
    exact .value x
  | fault hfault =>
    rw [← Bindings.replay_append, ← Bindings.replay_append]
    exact .fault hfault

theorem expr_parallel (e : Expr) {b b' : Bindings}
    (h : ∀ name ∈ e.reads, b.get? name = b'.get? name) :
    e.writes b = e.writes b' ∧
      Parallel b b' (e.writes b) ((expr e).run b) ((expr e).run b') := by
  induction e generalizing b b' with
  | number text position =>
    refine ⟨rfl, ?_⟩
    rw [expr_number, number]
    cases Decimal.read? text with
    | some x => exact .value x
    | none => exact .fault rfl
  | identifier name position =>
    refine ⟨rfl, ?_⟩
    have hname : b.get? name = b'.get? name := h name (by simp [Expr.reads])
    rw [expr_identifier, identifier, EStateM.run_bind, EStateM.run_bind, EStateM.run_get,
      EStateM.run_get]
    simp only [hname]
    cases b'.get? name with
    | some x => exact .value x
    | none => exact .fault rfl
  | arith op left right position ihLeft ihRight =>
    simp only [Expr.reads, List.mem_append] at h
    obtain ⟨hwrites, hleft⟩ := ihLeft fun name hname => h name (.inl hname)
    rw [expr_arith, EStateM.run_bind, EStateM.run_bind, Expr.writes, Expr.writes, ← hwrites]
    generalize (expr left).run b = r at hleft
    generalize (expr left).run b' = r' at hleft
    cases hleft with
    | fault hfault => exact ⟨rfl, .fault hfault⟩
    | value x =>
      -- the left operand has written the same to both, so they still agree on the rest
      have hagree : ∀ name ∈ right.reads,
          (b.replay (left.writes b)).get? name = (b'.replay (left.writes b)).get? name :=
        fun name hname => Bindings.get?_replay_congr (h name (.inr hname))
      obtain ⟨hmore, hright⟩ := ihRight hagree
      refine ⟨congrArg (left.writes b ++ ·) hmore, .after ?_⟩
      show Parallel _ _ _ (EStateM.run (expr right >>= _) _) (EStateM.run (expr right >>= _) _)
      rw [EStateM.run_bind, EStateM.run_bind]
      generalize (expr right).run (b.replay (left.writes b)) = r at hright
      generalize (expr right).run (b'.replay (left.writes b)) = r' at hright
      cases hright with
      | value y => exact .value (op.apply x y)
      | fault hfault => exact .fault hfault
  | assign target value position _ ihValue =>
    rw [expr_assign]
    cases target with
    | identifier name _ =>
      obtain ⟨hwrites, hvalue⟩ := ihValue h
      simp only [Expr.writes, bindTarget]
      rw [EStateM.run_bind, EStateM.run_bind, ← hwrites]
      generalize (expr value).run b = r at hvalue
      generalize (expr value).run b' = r' at hvalue
      cases hvalue with
      | fault hfault => exact ⟨rfl, .fault hfault⟩
      | value x =>
        have hwrite : Parallel (b.replay (value.writes b)) (b'.replay (value.writes b))
            [.write name x] (.ok x ((b.replay (value.writes b)).insert name x))
            (.ok x ((b'.replay (value.writes b)).insert name x)) := .value x
        exact ⟨rfl, hwrite.after⟩
    | _ => exact ⟨rfl, .fault rfl⟩

theorem Parallel.ending_eq {b b' : Bindings} {events : List Event}
    {r r' : EStateM.Result EvalFault Bindings Float} (h : Parallel b b' events r r') :
    (ending r).mapError EvalFault.unhinted = (ending r').mapError EvalFault.unhinted := by
  cases h with
  | value x => rfl
  | fault hfault => exact congrArg Except.error hfault

theorem Parallel.left_eq {b b' : Bindings} {events : List Event}
    {r r' : EStateM.Result EvalFault Bindings Float} (h : Parallel b b' events r r') :
    left r = b.replay events ∧ left r' = b'.replay events := by
  cases h <;> exact ⟨rfl, rfl⟩

/-- **Evaluation depends on what it reads.** If two bindings agree on the names that an
expression reads, evaluating it ends alike from both: with the same value, or with faults
that differ at most in what they suggest. It makes the same writes, in the same order, and
these are all that changes. So the bindings after it agree on each name on which they
agreed before, and on each name that was written. -/
theorem expr_of_reads (e : Expr) {b b' : Bindings}
    (h : ∀ name ∈ e.reads, b.get? name = b'.get? name) :
    let r := (expr e).run b
    let r' := (expr e).run b'
    (ending r).mapError EvalFault.unhinted = (ending r').mapError EvalFault.unhinted ∧
    e.writes b = e.writes b' ∧
    left r = b.replay (e.writes b) ∧ left r' = b'.replay (e.writes b') ∧
    (∀ name, b.get? name = b'.get? name → (left r).get? name = (left r').get? name) ∧
    ∀ name value, .write name value ∈ e.writes b →
      (left r).get? name = (left r').get? name := by
  intro r r'
  obtain ⟨hwrites, hparallel⟩ := expr_parallel e h
  obtain ⟨hleft, hleft'⟩ := hparallel.left_eq
  refine ⟨hparallel.ending_eq, hwrites, hleft, hwrites ▸ hleft', ?_, ?_⟩
  · intro name hname
    rw [hleft, hleft']
    exact Bindings.get?_replay_congr hname
  · intro name value hwrite
    rw [hleft, hleft']
    exact Bindings.get?_replay_of_write hwrite

/-- An operand is assigned to `x`, and then the name `q` is not known. Names that are bound
on one side only show in what is suggested. -/
theorem expr_of_reads_partialSum :
    let e : Expr := .arith .add (.assign (.identifier "x" 0) (.identifier "y" 4) 2)
      (.identifier "q" 8) 6
    let b : Bindings := .ofList [("y", 2)]
    let b' : Bindings := .ofList [("x", 7), ("qq", 5), ("y", 2)]
    e.reads = ["y", "q"] ∧
    ending ((expr e).run b) = .error (.unknownName "q" (some "x, y")) ∧
    ending ((expr e).run b') = .error (.unknownName "q" (some "qq, x, y")) ∧
    e.writes b = [.write "x" 2] ∧ e.writes b' = [.write "x" 2] ∧
    (left ((expr e).run b)).get? "x" = (left ((expr e).run b')).get? "x" := by
  intro e b b'
  have hagree : ∀ name ∈ e.reads, b.get? name = b'.get? name := by
    simp [e, b, b', Expr.reads, Bindings.ofList]
  have hwrites : e.writes b = [.write "x" 2] := rfl
  obtain ⟨-, hsame, -, -, -, hwritten⟩ := expr_of_reads e hagree
  exact ⟨rfl, rfl, rfl, hwrites, hsame ▸ hwrites, hwritten "x" 2 (by simp [hwrites])⟩

end Eval

/-! ## Programs and lines -/

namespace Program

/-- The names that the statements of a program read. -/
def reads (p : Program) : List String := p.flatMap Expr.reads

/-- The names that the statements of a program assign to. -/
def targets (p : Program) : List String := p.flatMap Expr.targets

end Program

namespace Eval

theorem statements_parallel (p : Program) (last : Float) {b b' : Bindings}
    (h : ∀ name ∈ p.reads, b.get? name = b'.get? name) :
    ∃ events, (∀ event ∈ events, event.WritesTo p.targets) ∧
      Parallel b b' events ((statements last p).run b) ((statements last p).run b') := by
  induction p generalizing last b b' with
  | nil => exact ⟨[], by simp, .value last⟩
  | cons e later ih =>
    simp only [Program.reads, List.flatMap_cons, List.mem_append] at h
    obtain ⟨-, hfirst⟩ := expr_parallel e fun name hname => h name (.inl hname)
    have hwrites : ∀ event ∈ e.writes b, event.WritesTo (Program.targets (e :: later)) :=
      fun event hevent => (Expr.writesTo_of_mem_writes hevent).mono (List.subset_append_left _ _)
    rw [statements, EStateM.run_bind, EStateM.run_bind]
    generalize (expr e).run b = r at hfirst
    generalize (expr e).run b' = r' at hfirst
    cases hfirst with
    | fault hfault => exact ⟨e.writes b, hwrites, .fault hfault⟩
    | value x =>
      -- what the later statements read has been written alike or not at all
      have hagree : ∀ name ∈ Program.reads later,
          (b.replay (e.writes b)).get? name = (b'.replay (e.writes b)).get? name :=
        fun name hname => Bindings.get?_replay_congr (h name (.inr hname))
      obtain ⟨more, hmore, hlater⟩ := ih x hagree
      refine ⟨e.writes b ++ more, List.forall_mem_append.mpr ⟨hwrites, ?_⟩, .after hlater⟩
      intro event hevent
      exact (hmore event hevent).mono (List.subset_append_right _ _)

theorem program_parallel (p : Program) {b b' : Bindings}
    (h : ∀ name ∈ p.reads, b.get? name = b'.get? name) :
    ∃ events, (∀ event ∈ events, event.WritesTo p.targets) ∧
      Parallel b b' events ((program p).run b) ((program p).run b') := by
  cases p with
  | nil => exact ⟨[], by simp, .fault rfl⟩
  | cons e later => exact statements_parallel (e :: later) 0 h

end Eval

namespace Session

/-- A line that spells a program ends as the program does. -/
theorem run_eq_program {source : String} {p : Program} (h : Program.ofSource source = .ok p)
    (s : Session) :
    (s.run source).1 = (Eval.ending ((Eval.program p).run s.bindings)).mapError .eval ∧
      (s.run source).2.bindings = Eval.left ((Eval.program p).run s.bindings) := by
  obtain ⟨hresult, hbindings⟩ := Prod.mk.inj (observed_run h s)
  rw [hresult, hbindings, evaluate]
  cases (Eval.program p).run s.bindings <;> exact ⟨rfl, rfl⟩

/-- Sessions that agree on what a line reads still agree, after it, on each name on which
they agreed before. -/
theorem get?_run_congr {source : String} {p : Program} (hp : Program.ofSource source = .ok p)
    {s s' : Session} (h : ∀ name ∈ p.reads, s.bindings.get? name = s'.bindings.get? name)
    {name : String} (hname : s.bindings.get? name = s'.bindings.get? name) :
    (s.run source).2.bindings.get? name = (s'.run source).2.bindings.get? name := by
  obtain ⟨events, -, hparallel⟩ := Eval.program_parallel p h
  rw [(run_eq_program hp s).2, (run_eq_program hp s').2, hparallel.left_eq.1, hparallel.left_eq.2]
  exact Bindings.get?_replay_congr hname

end Session

end LineCalc
