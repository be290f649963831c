import LineCalc.Proofs.Effects

/-!
# What a session remembers

A session runs lines, and between them names can be bound and forgotten from outside
(`Operation`). Each operation is a number of events: a name is written, or all names are
forgotten. A line writes what its assignments say, statement by statement, until one fails
(`Program.writes`); a line that spells no program writes nothing.

The bindings of a session are its history, replayed (`Session.bindings_performAll`). So a
name has the value that the latest event about it has left, and the one that it began with
if there was none (`Bindings.get?_replay`).

Main statement: after any operations, this is what can be read of every name, and the
list of names, their number and the tests for them tell the same
(`Session.performAll_latest`). A line never takes a value away.
-/

namespace LineCalc

/-! ## Events -/

/-- A change of bindings. -/
inductive Event where
  /-- A name is bound to a value. -/
  | write (name : String) (value : Float)
  /-- Every name is forgotten. -/
  | clear

namespace Event

/-- What the event leaves as the value of a name, if it is about that name. -/
def leaves (name : String) : Event → Option (Option Float)
  | write other value => if name = other then some (some value) else none
  | clear => some none

/-- What the latest of the events about a name has left as its value, and `before` if
there is none. -/
def latest (name : String) (before : Option Float) (events : List Event) : Option Float :=
  (events.reverse.findSome? (leaves name)).getD before

theorem latest_cons (name : String) (before : Option Float) (e : Event) (later : List Event) :
    latest name before (e :: later) = latest name ((e.leaves name).getD before) later := by
  rw [latest, latest, List.reverse_cons, List.findSome?_append]
  cases later.reverse.findSome? (leaves name) with
  | some value => rfl
  | none => cases h : e.leaves name <;> simp [h]

/-- The bindings after the event. -/
def apply (b : Bindings) : Event → Bindings
  | write name value => b.insert name value
  | clear => .empty

theorem get?_apply (b : Bindings) (e : Event) (name : String) :
    (e.apply b).get? name = (e.leaves name).getD (b.get? name) := by
  cases e with
  | clear => rfl
  | write other value =>
    rw [apply, Bindings.get?_insert, leaves]
    split <;> rfl

end Event

namespace Bindings

/-- The bindings after events, one after the other. -/
def replay (b : Bindings) (events : List Event) : Bindings := events.foldl Event.apply b

theorem replay_append (b : Bindings) (events later : List Event) :
    b.replay (events ++ later) = (b.replay events).replay later :=
  List.foldl_append

/-- The latest event about a name decides what is read. -/
theorem get?_replay (b : Bindings) (events : List Event) (name : String) :
    (b.replay events).get? name = Event.latest name (b.get? name) events := by
  induction events generalizing b with
  | nil => rfl
  | cons e later ih =>
    rw [Event.latest_cons, ← Event.get?_apply]
    exact ih (e.apply b)

/-- Writes leave no name without a value. -/
theorem contains_replay {b : Bindings} {events : List Event} {name : String}
    (hevents : .clear ∉ events) (h : b.contains name = true) :
    (b.replay events).contains name = true := by
  induction events generalizing b with
  | nil => exact h
  | cons e later ih =>
    rw [List.mem_cons, not_or] at hevents
    refine ih hevents.2 ?_
    cases e with
    | clear => exact absurd rfl hevents.1
    | write other value =>
      rw [contains, Event.apply, get?_insert]
      split
      · rfl
      · exact h

theorem isEmpty_iff {b : Bindings} : b.isEmpty = true ↔ ∀ name, b.get? name = none := by
  have hnames : b.isEmpty = true ↔ b.names = [] := by
    rw [isEmpty, List.isEmpty_iff, names, List.map_eq_nil_iff]
  rw [hnames, List.eq_nil_iff_forall_not_mem]
  simp only [mem_names_iff, Bool.not_eq_true, Option.isSome_eq_false_iff, Option.isNone_iff_eq_none]

/-- The size is the number of names that have a value. -/
theorem size_eq_ncard (b : Bindings) : b.size = {name | (b.get? name).isSome = true}.ncard := by
  have hset : {name | (b.get? name).isSome = true} = (b.names.toFinset : Set String) := by
    ext name
    simp [mem_names_iff]
  have hnodup : b.names.Nodup := b.nodup
  rw [hset, Set.ncard_coe_finset, List.toFinset_card_of_nodup hnodup, names, List.length_map, size]

end Bindings

/-! ## Writes of a line -/

/-- The write that a statement is, if it is an assignment to a name: its value is that of
the formula. -/
def Expr.write? (b : Bindings) : Expr → Option Event
  | .assign (.identifier name _) formula _ =>
    match (Eval.expr formula).run b with
    | .ok value _ => some (.write name value)
    | .error _ _ => none
  | _ => none

/-- The writes of the statements, up to the first one that fails. -/
def Program.writes (b : Bindings) : Program → List Event
  | [] => []
  | e :: later =>
    match (Eval.expr e).run b with
    | .ok _ b' => (e.write? b).toList ++ writes b' later
    | .error _ _ => []

theorem Expr.write?_ne_clear (b : Bindings) (e : Expr) : e.write? b ≠ some .clear := by
  unfold write?
  split
  · split <;> simp
  · simp

theorem Program.clear_notMem_writes (b : Bindings) (program : Program) :
    .clear ∉ Program.writes b program := by
  induction program generalizing b with
  | nil => exact List.not_mem_nil
  | cons e later ih =>
    rw [writes]
    split
    · rw [List.mem_append, not_or, Option.mem_toList]
      exact ⟨e.write?_ne_clear b, ih _⟩
    · exact List.not_mem_nil

namespace Grammar

theorem Formula.write?_expr (f : Formula) (b : Bindings) : f.expr.write? b = none := by
  have h := f.isFormula_expr
  cases hexpr : f.expr with
  | assign target value position =>
    rw [hexpr] at h
    cases h
  | _ => rfl

/-- A statement that succeeds changes the bindings by its write. -/
theorem Statement.replay_write? {g : Statement} {b b' : Bindings} {x : Float}
    (h : g.surface.exec b = (.ok x, b')) : b' = b.replay (g.expr.write? b).toList := by
  cases g with
  | formula f =>
    rw [Statement.expr, f.write?_expr]
    exact (Prod.mk.inj h).2.symm
  | assignment target sign value =>
    rw [Statement.expr]
    rw [Statement.surface] at h
    unfold Atom.surface at h
    unfold Atom.expr
    split at h
    · cases h
    · rename_i hkind
      rw [if_neg hkind, Expr.write?, run_expr_formula]
      rw [Surface.Statement.exec] at h
      cases hvalue : value.surface.value b with
      | error fault =>
        rw [hvalue] at h
        cases h
      | ok y =>
        rw [hvalue] at h
        cases h
        rfl

/-- Statements change the bindings by their writes. -/
theorem replay_writes (first : Statement) (later : List Statement) (b : Bindings) :
    (Surface.runStatements first.surface (later.map Statement.surface) b).2 =
      b.replay (Program.writes b ((first :: later).map Statement.expr)) := by
  induction later generalizing first b with
  | nil =>
    rw [List.map_cons, List.map_nil, List.map_nil, Program.writes, run_expr_statement,
      Surface.runStatements]
    cases hexec : first.surface.exec b with
    | mk result b' =>
      cases result with
      | error fault => exact Surface.Statement.exec_error hexec
      | ok x =>
        show b' = b.replay ((first.expr.write? b).toList ++ [])
        rw [List.append_nil]
        exact Statement.replay_write? hexec
  | cons next later ih =>
    rw [List.map_cons, List.map_cons, Program.writes, run_expr_statement, Surface.runStatements]
    cases hexec : first.surface.exec b with
    | mk result b' =>
      cases result with
      | error fault => exact Surface.Statement.exec_error hexec
      | ok x =>
        -- the later statements start from what this one has written
        show _ = b.replay ((first.expr.write? b).toList ++ _)
        rw [Bindings.replay_append, ← Statement.replay_write? hexec]
        exact ih next b'

end Grammar

/-! ## Operations -/

/-- What can be done with a session. -/
inductive Operation where
  /-- Run a line. -/
  | run (source : String)
  /-- Bind a name to a value. -/
  | set (name : String) (value : Float)
  /-- Forget every name. -/
  | clear

namespace Session

/-- The session after an operation. -/
def perform (s : Session) : Operation → Session
  | .run source => (s.run source).2
  | .set name value => { s with bindings := (s.bindings.exchange name value).2 }
  | .clear => { s with bindings := .empty }

/-- The session after operations, one after the other. -/
def performAll (s : Session) (operations : List Operation) : Session := operations.foldl perform s

/-- The events of an operation. -/
def events (s : Session) : Operation → List Event
  | .run source =>
    match Program.ofSource source with
    | .ok program => Program.writes s.bindings program
    | .error _ => []
  | .set name value => [.write name value]
  | .clear => [.clear]

/-- The events of operations, in order. -/
def history : Session → List Operation → List Event
  | _, [] => []
  | s, operation :: later => s.events operation ++ (s.perform operation).history later

/-- A line changes the bindings by its writes. -/
theorem bindings_run (s : Session) (source : String) :
    (s.run source).2.bindings = s.bindings.replay (s.events (.run source)) := by
  cases hsource : Program.ofSource source with
  | error fault =>
    rw [(Prod.mk.inj (observed_run_of_error hsource s)).2, events, hsource]
    rfl
  | ok program =>
    obtain ⟨first, later, -, rfl, hrun⟩ := exists_runStatements hsource
    rw [(hrun s).2, events, hsource]
    exact Grammar.replay_writes first later s.bindings

theorem bindings_perform (s : Session) (operation : Operation) :
    (s.perform operation).bindings = s.bindings.replay (s.events operation) := by
  cases operation with
  | run source => exact s.bindings_run source
  | set name value => rfl
  | clear => rfl

/-- The bindings after operations are those before, with the history replayed. -/
theorem bindings_performAll (s : Session) (operations : List Operation) :
    (s.performAll operations).bindings = s.bindings.replay (s.history operations) := by
  induction operations generalizing s with
  | nil => rfl
  | cons operation later ih =>
    rw [history, Bindings.replay_append, ← bindings_perform]
    exact ih (s.perform operation)

/-- A line takes no value away. -/
theorem contains_run {s : Session} {name : String} (h : s.bindings.contains name = true)
    (source : String) : (s.run source).2.bindings.contains name = true := by
  rw [bindings_run]
  refine Bindings.contains_replay ?_ h
  rw [events]
  split
  · exact Program.clear_notMem_writes _ _
  · exact List.not_mem_nil

/-- **The latest write counts.** After any operations a name has the value of the latest
write to it since names were last forgotten; a name that has neither been written nor
forgotten is as it was at the start. The names that have a value are listed once each, and
the size is their number. A line that is run next takes no value away. -/
theorem performAll_latest (s : Session) (operations : List Operation) :
    let b := (s.performAll operations).bindings
    let value (name : String) := Event.latest name (s.bindings.get? name) (s.history operations)
    (∀ name, b.get? name = value name) ∧
    (∀ name, b.contains name = (value name).isSome) ∧
    b.names.Nodup ∧ (∀ name, name ∈ b.names ↔ (value name).isSome = true) ∧
    b.size = {name | (value name).isSome = true}.ncard ∧
    (b.isEmpty = true ↔ ∀ name, value name = none) ∧
    ∀ source name, b.contains name = true →
      ((s.performAll operations).run source).2.bindings.contains name = true := by
  intro b value
  have hvalue (name : String) : b.get? name = value name := by
    show (s.performAll operations).bindings.get? name = _
    rw [bindings_performAll, Bindings.get?_replay]
  refine ⟨hvalue, fun name => congrArg Option.isSome (hvalue name), b.nodup, ?_, ?_, ?_, ?_⟩
  · intro name
    rw [← hvalue, Bindings.mem_names_iff]
  · simp only [← hvalue]
    exact b.size_eq_ncard
  · simp only [← hvalue]
    exact Bindings.isEmpty_iff
  · intro source name h
    exact contains_run h source

/-- A name is forgotten and written again by a line that then fails. -/
theorem performAll_latest_failingLine :
    let operations : List Operation := [.set "x" 3, .clear, .set "y" 4, .run "x = y w y = 5"]
    let s := performAll {} operations
    history {} operations = [.write "x" 3, .clear, .write "y" 4, .write "x" 4] ∧
    s.bindings.get? "x" = some 4 ∧ s.bindings.get? "y" = some 4 ∧
    s.bindings.get? "w" = none ∧ (s.run "w y").2.bindings.contains "y" = true := by
  intro operations s
  have hprogram : Program.ofSource "x = y w y = 5" = .ok [
      .assign (.identifier "x" 0) (.identifier "y" 4) 2, .identifier "w" 6,
      .assign (.identifier "y" 8) (.number "5" 12) 10] := by cbv
  have hhistory : history {} operations =
      [.write "x" 3, .clear, .write "y" 4, .write "x" 4] := by
    simp only [operations, history, events, hprogram]
    rfl
  obtain ⟨hget, hcontains, -, -, -, -, hrun⟩ := performAll_latest {} operations
  rw [hhistory] at hget hcontains
  exact ⟨hhistory, hget "x", hget "y", hget "w", hrun _ "y" (hcontains "y")⟩

end Session

end LineCalc
