import Mathlib
import LineCalc.Command.Report
import LineCalc.Proofs.Meaning

/-!
# Keeping going after a failure

A run of lines stops at the first one that fails, or it keeps going. What it comes to before
it ends is said without its reports (`Reaches`): the lines in order, each in the session that
those before it have left, up to one that cannot be read and, unless the run keeps going, up
to one that fails.

Main statement: a run that stops shows the beginning of what the run that keeps going shows,
and both end with the same code (`runLines_keepGoing`). The code is that of a failure just if
the run comes to a line that fails or cannot be read.
-/

namespace LineCalc.Command

/-! ## Reports -/

namespace Report

@[simp] theorem out_append (a b : Report) : (a ++ b).out = a.out ++ b.out := rfl

@[simp] theorem err_append (a b : Report) : (a ++ b).err = a.err ++ b.err := rfl

@[simp] theorem code_append (a b : Report) : (a ++ b).code = max a.code b.code := rfl

/-- What one report shows is the beginning of what the other one shows. -/
structure Begins (a b : Report) : Prop where
  out : a.out.toList <+: b.out.toList
  err : a.err.toList <+: b.err.toList

theorem Begins.refl (a : Report) : a.Begins a :=
  ⟨List.prefix_refl _, List.prefix_refl _⟩

theorem begins_append (a b : Report) : a.Begins (a ++ b) where
  out := by simp
  err := by simp

theorem Begins.append_left {a b : Report} (h : a.Begins b) (front : Report) :
    (front ++ a).Begins (front ++ b) where
  out := by simpa using h.out
  err := by simpa using h.err

end Report

/-! ## One line -/

/-- The line is not blank, and running it ends with a fault. -/
def Fails (s : Session) (line : String) : Prop :=
  Text.isBlank line = false ∧ ∃ fault, (s.run line).1 = .error fault

/-- The session after a line. A blank one is skipped. -/
def after (s : Session) (line : String) : Session :=
  if Text.isBlank line then s else (s.run line).2

variable {keepGoing : Bool} {s s' : Session} {line : String} {rest lines : List (Option String)}

theorem answer_session (s : Session) (line : String) : (answer s line).2 = after s line := by
  rw [answer, after]
  split
  · rfl
  · cases hrun : s.run line with
    | mk result s' => cases result <;> rfl

/-- The code of a line says whether it fails. -/
theorem code_answer (s : Session) (line : String) :
    (¬ Fails s line ∧ (answer s line).1.code = 0) ∨
      (Fails s line ∧ (answer s line).1.code = 1) := by
  rw [answer]
  split
  · rename_i hblank
    exact .inl ⟨fun h => by simp [h.1] at hblank, rfl⟩
  · rename_i hblank
    rw [Bool.not_eq_true] at hblank
    cases hrun : s.run line with
    | mk result s' =>
      cases result with
      | ok value =>
        refine .inl ⟨?_, rfl⟩
        rintro ⟨-, fault, hfault⟩
        rw [hrun] at hfault
        cases hfault
      | error fault => exact .inr ⟨⟨hblank, fault, by rw [hrun]⟩, rfl⟩

theorem runLines_cons_of_goes (h : keepGoing = true ∨ ¬ Fails s line) :
    runLines keepGoing s (some line :: rest) =
      (answer s line).1 ++ runLines keepGoing (after s line) rest := by
  have hgoes : ((answer s line).1.code = 0 || keepGoing) = true := by
    rcases code_answer s line with ⟨-, hcode⟩ | ⟨hfails, -⟩
    · simp [hcode]
    · simp [h.resolve_right (not_not_intro hfails)]
  rw [runLines, ← answer_session]
  exact if_pos hgoes

theorem runLines_cons_of_fails (h : Fails s line) :
    runLines false s (some line :: rest) = (answer s line).1 := by
  rcases code_answer s line with ⟨hnot, -⟩ | ⟨-, hcode⟩
  · exact absurd h hnot
  · have hstops : ¬ ((answer s line).1.code = 0 || false) = true := by simp [hcode]
    rw [runLines]
    exact if_neg hstops

/-! ## What a run comes to -/

/-- A run of the lines from the session comes to the line, which then finds the other
session. -/
inductive Reaches (keepGoing : Bool) :
    Session → List (Option String) → Session → Option String → Prop
  | here (s : Session) (line : Option String) (rest : List (Option String)) :
      Reaches keepGoing s (line :: rest) s line
  | later {s s' : Session} {line : String} {line' : Option String} {rest : List (Option String)}
      (hgoes : keepGoing = true ∨ ¬ Fails s line)
      (h : Reaches keepGoing (after s line) rest s' line') :
      Reaches keepGoing s (some line :: rest) s' line'

/-- The line cannot be read, or it fails. -/
def GoesWrong (s : Session) : Option String → Prop
  | none => True
  | some line => Fails s line

/-- A line that does not fail leaves the code to the others. -/
theorem code_runLines_of_not_fails (h : ¬ Fails s line) :
    (runLines keepGoing s (some line :: rest)).code =
      (runLines keepGoing (after s line) rest).code := by
  rcases code_answer s line with ⟨-, hcode⟩ | ⟨hfails, -⟩
  · rw [runLines_cons_of_goes (.inr h), Report.code_append, hcode, Nat.zero_max]
  · exact absurd hfails h

theorem code_runLines_le (keepGoing : Bool) (s : Session) (lines : List (Option String)) :
    (runLines keepGoing s lines).code ≤ 1 := by
  induction lines generalizing s with
  | nil => exact Nat.zero_le 1
  | cons line rest ih =>
    cases line with
    | none => exact Nat.le_refl 1
    | some line =>
      rcases code_answer s line with ⟨hnot, -⟩ | ⟨hfails, hcode⟩
      · rw [code_runLines_of_not_fails hnot]
        exact ih _
      · cases keepGoing with
        | false =>
          rw [runLines_cons_of_fails hfails]
          exact Nat.le_of_eq hcode
        | true =>
          rw [runLines_cons_of_goes (.inl rfl), Report.code_append, hcode]
          exact Nat.max_le.mpr ⟨Nat.le_refl 1, ih _⟩

/-- Later lines do not undo a failure. -/
theorem code_runLines_of_fails (h : Fails s line) :
    (runLines keepGoing s (some line :: rest)).code = 1 := by
  have hle := code_runLines_le keepGoing s (some line :: rest)
  rcases code_answer s line with ⟨hnot, -⟩ | ⟨-, hcode⟩
  · exact absurd h hnot
  · cases keepGoing with
    | false => rw [runLines_cons_of_fails h, hcode]
    | true =>
      rw [runLines_cons_of_goes (.inl rfl), Report.code_append, hcode] at hle ⊢
      omega

theorem code_runLines_eq_one_iff (keepGoing : Bool) (s : Session) (lines : List (Option String)) :
    (runLines keepGoing s lines).code = 1 ↔
      ∃ s' line, Reaches keepGoing s lines s' line ∧ GoesWrong s' line := by
  induction lines generalizing s with
  | nil =>
    constructor
    · intro h
      cases h
    · rintro ⟨s', line, ⟨⟩, -⟩
  | cons line rest ih =>
    cases line with
    | none => exact ⟨fun _ => ⟨s, none, .here s none rest, trivial⟩, fun _ => rfl⟩
    | some line =>
      by_cases hfails : Fails s line
      · exact ⟨fun _ => ⟨s, some line, .here s _ rest, hfails⟩,
          fun _ => code_runLines_of_fails hfails⟩
      · rw [code_runLines_of_not_fails hfails, ih]
        constructor
        · rintro ⟨s', line', hreaches, hwrong⟩
          exact ⟨s', line', .later (.inr hfails) hreaches, hwrong⟩
        · rintro ⟨s', line', hreaches, hwrong⟩
          cases hreaches with
          | here => exact absurd hwrong hfails
          | later _ hreaches => exact ⟨s', line', hreaches, hwrong⟩

/-! ## Stopping and keeping going -/

theorem begins_runLines (s : Session) (lines : List (Option String)) :
    (runLines false s lines).Begins (runLines true s lines) := by
  induction lines generalizing s with
  | nil => exact .refl _
  | cons line rest ih =>
    cases line with
    | none => exact .refl _
    | some line =>
      rw [runLines_cons_of_goes (.inl rfl)]
      by_cases hfails : Fails s line
      · rw [runLines_cons_of_fails hfails]
        exact Report.begins_append _ _
      · rw [runLines_cons_of_goes (.inr hfails)]
        exact (ih _).append_left _

theorem code_runLines_eq (s : Session) (lines : List (Option String)) :
    (runLines false s lines).code = (runLines true s lines).code := by
  induction lines generalizing s with
  | nil => rfl
  | cons line rest ih =>
    cases line with
    | none => rfl
    | some line =>
      by_cases hfails : Fails s line
      · rw [code_runLines_of_fails hfails, code_runLines_of_fails hfails]
      · rw [code_runLines_of_not_fails hfails, code_runLines_of_not_fails hfails, ih]

theorem runLines_eq_of_succeeds
    (h : ∀ s' line, Reaches true s lines s' (some line) → ¬ Fails s' line) :
    runLines false s lines = runLines true s lines := by
  induction lines generalizing s with
  | nil => rfl
  | cons line rest ih =>
    cases line with
    | none => rfl
    | some line =>
      have hfirst : ¬ Fails s line := h s line (.here s _ rest)
      rw [runLines_cons_of_goes (.inr hfirst), runLines_cons_of_goes (.inl rfl),
        ih fun s' line' hreaches => h s' line' (.later (.inl rfl) hreaches)]

/-- **Keeping going only goes on.** Of the runs of the same lines from the same session, the
one that stops at a failure shows the beginning of what the one that keeps going shows, on
either stream, and they end with the same code. If no line fails, they are the same. The code
of either is that of a failure just if the run comes to a line that fails or that cannot be
read. -/
theorem runLines_keepGoing (s : Session) (lines : List (Option String)) :
    let stopping := runLines false s lines
    let going := runLines true s lines
    stopping.out.toList <+: going.out.toList ∧ stopping.err.toList <+: going.err.toList ∧
    stopping.code = going.code ∧
    ((∀ s' line, Reaches true s lines s' (some line) → ¬ Fails s' line) → stopping = going) ∧
    ∀ keepGoing, (runLines keepGoing s lines).code ≤ 1 ∧
      ((runLines keepGoing s lines).code = 1 ↔
        ∃ s' line, Reaches keepGoing s lines s' line ∧ GoesWrong s' line) := by
  intro stopping going
  refine ⟨(begins_runLines s lines).out, (begins_runLines s lines).err, code_runLines_eq s lines,
    runLines_eq_of_succeeds, ?_⟩
  intro keepGoing
  exact ⟨code_runLines_le keepGoing s lines, code_runLines_eq_one_iff keepGoing s lines⟩

/-- A line that cannot be read ends both runs, and the line after it is not reached. Another
time the first line fails, and one run stops there. -/
theorem runLines_keepGoing_unreadable :
    let lines := [some "\t", some "x = 2", none, some "y"]
    (∀ s' line, Reaches true {} lines s' (some line) → ¬ Fails s' line) ∧
    runLines false {} lines = runLines true {} lines ∧
    Reaches false {} [some "y", none] {} (some "y") ∧ Fails {} "y" ∧
    (runLines false {} [some "y", none]).code = 1 ∧
    (runLines true {} [some "y", none]).code = 1 := by
  intro lines
  have hblank : ¬ Fails {} "\t" := fun h => absurd h.1 (by decide)
  have hvalue (s : Session) : ¬ Fails s "x = 2" := by
    rintro ⟨-, fault, hfault⟩
    rw [Session.run_of_program (by cbv) rfl] at hfault
    cases hfault
  have hsucceeds : ∀ s' line, Reaches true {} lines s' (some line) → ¬ Fails s' line := by
    intro s' line h
    change Reaches true {} [_, _, _, _] s' (some line) at h
    cases h with
    | here => exact hblank
    | later _ h =>
      cases h with
      | here => exact hvalue _
      | later _ h => cases h
  have hfails : Fails {} "y" := by
    refine ⟨by decide, .eval (.unknownName "y" none), ?_⟩
    rw [Session.run_of_program (by cbv) rfl]
    rfl
  have hreaches : Reaches false {} [some "y", none] {} (some "y") := .here _ _ _
  obtain ⟨-, -, -, hsame, -⟩ := runLines_keepGoing {} lines
  obtain ⟨-, -, hcodes, -, hcode⟩ := runLines_keepGoing {} [some "y", none]
  have hone := (hcode false).2.mpr ⟨_, _, hreaches, hfails⟩
  exact ⟨hsucceeds, hsame hsucceeds, hreaches, hfails, hone, hcodes ▸ hone⟩

end LineCalc.Command
