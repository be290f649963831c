import LineCalc.Proofs.InputModes
import LineCalc.Proofs.KeepGoing

/-!
# Lines that are still to come

What standard input has shown so far does not depend on what comes after it. Bytes up to a
line feed have their lines, whether or not they and the bytes that follow are UTF-8
(`Text.decodedLines_append`). A run of these lines either ends before they do (`StopsEarly`),
and then nothing that follows is looked at, or what follows is run after them
(`runLines_append`).

Main statement: the report on a beginning of the input is the beginning of the report on all
of it (`run_pipe_append`).
-/

namespace LineCalc.Command

namespace Report

theorem append_assoc (a b c : Report) : a ++ b ++ c = a ++ (b ++ c) := by
  show append (append a b) c = append a (append b c)
  simp only [append, String.append_assoc, Nat.max_assoc]

theorem empty_append (a : Report) : ({} : Report) ++ a = a := by
  show append {} a = a
  simp [append]

end Report

variable {keepGoing : Bool} {s : Session} {front : List (Option String)}

/-! ## Runs that end early -/

/-- The run comes to a line that cannot be read or, if it does not keep going, to one that
fails. -/
def StopsEarly (keepGoing : Bool) (s : Session) (lines : List (Option String)) : Prop :=
  ∃ s' line, Reaches keepGoing s lines s' line ∧
    (line = none ∨ keepGoing = false ∧ GoesWrong s' line)

/-- A run that ends early does not look at what is still to come. -/
theorem StopsEarly.runLines_append (h : StopsEarly keepGoing s front)
    (later : List (Option String)) :
    runLines keepGoing s (front ++ later) = runLines keepGoing s front := by
  obtain ⟨s', line, hreaches, hstops⟩ := h
  induction hreaches with
  | here s line rest =>
    cases line with
    | none => rfl
    | some line =>
      obtain ⟨rfl, hfails⟩ := hstops.resolve_left (by simp)
      rw [List.cons_append, runLines_cons_of_fails hfails, runLines_cons_of_fails hfails]
  | later hgoes _ ih =>
    rw [List.cons_append, runLines_cons_of_goes hgoes, runLines_cons_of_goes hgoes, ih hstops]

/-- Either a run ends early, or what is still to come is run in the session that it leaves. -/
theorem runLines_append (keepGoing : Bool) (s : Session) (front later : List (Option String)) :
    StopsEarly keepGoing s front ∨
      ∃ s', runLines keepGoing s (front ++ later) =
        runLines keepGoing s front ++ runLines keepGoing s' later := by
  induction front generalizing s with
  | nil => exact .inr ⟨s, (Report.empty_append _).symm⟩
  | cons line rest ih =>
    cases line with
    | none => exact .inl ⟨s, none, .here s none rest, .inl rfl⟩
    | some line =>
      by_cases hgoes : keepGoing = true ∨ ¬ Fails s line
      · rcases ih (after s line) with ⟨s', line', hreaches, hstops⟩ | ⟨s', happend⟩
        · exact .inl ⟨s', line', .later hgoes hreaches, hstops⟩
        · refine .inr ⟨s', ?_⟩
          rw [List.cons_append, runLines_cons_of_goes hgoes, runLines_cons_of_goes hgoes, happend,
            Report.append_assoc]
      · obtain ⟨hstops, hfails⟩ := not_or.mp hgoes
        rw [Bool.not_eq_true] at hstops
        exact .inl ⟨s, some line, .here s _ rest, .inr ⟨hstops, not_not.mp hfails⟩⟩

theorem begins_runLines_append (keepGoing : Bool) (s : Session)
    (front later : List (Option String)) :
    (runLines keepGoing s front).Begins (runLines keepGoing s (front ++ later)) := by
  rcases runLines_append keepGoing s front later with hstops | ⟨s', happend⟩
  · rw [hstops.runLines_append]
    exact .refl _
  · rw [happend]
    exact Report.begins_append _ _

theorem code_runLines_append (h : (runLines keepGoing s front).code = 1)
    (later : List (Option String)) : (runLines keepGoing s (front ++ later)).code = 1 := by
  rcases runLines_append keepGoing s front later with hstops | ⟨s', happend⟩
  · rw [hstops.runLines_append, h]
  · have hle := code_runLines_le keepGoing s (front ++ later)
    rw [happend, Report.code_append, h] at hle ⊢
    omega

/-! ## Standard input -/

/-- **Later input does not change what earlier input has shown.** The bytes of the earlier
input go up to a line feed, and neither they nor the later ones need be UTF-8. What the earlier
lines show is the beginning of what all of them show, on either stream, and the code of a
failure stays. If the run of the earlier lines stops early, the later ones do not show at
all. -/
theorem run_pipe_append {arguments : List String} {keepGoing : Bool}
    (h : Asks arguments { keepGoing }) {front later : List UInt8}
    (hfront : front = [] ∨ front.getLast? = some 10) (w w' : Surroundings)
    (hpipe : w.terminal = false) (hinput : w.input = front)
    (hpipe' : w'.terminal = false) (hinput' : w'.input = front ++ later) :
    let report := run arguments w
    let whole := run arguments w'
    report.out.toList <+: whole.out.toList ∧ report.err.toList <+: whole.err.toList ∧
    (report.code = 1 → whole.code = 1) ∧
    (StopsEarly keepGoing {} (Text.decodedLines front) → whole = report) := by
  intro report whole
  have hreport : report = runLines keepGoing {} (Text.decodedLines front) := by
    rw [← hinput]
    exact run_input h hpipe
  have hwhole : whole =
      runLines keepGoing {} (Text.decodedLines front ++ Text.decodedLines later) := by
    rw [← Text.decodedLines_append hfront, ← hinput']
    exact run_input h hpipe'
  have hbegins : report.Begins whole := by
    rw [hreport, hwhole]
    exact begins_runLines_append keepGoing {} _ _
  refine ⟨hbegins.out, hbegins.err, ?_, ?_⟩
  · intro hcode
    rw [hreport] at hcode
    rw [hwhole]
    exact code_runLines_append hcode _
  · intro hstops
    rw [hreport, hwhole]
    exact hstops.runLines_append _

/-- After a line with a value comes one that is no UTF-8, and it ends the run even if that is to
keep going. The input that follows breaks off inside of a character. -/
theorem run_pipe_append_undecodable :
    let front : List UInt8 := [0x31, 0x0D, 0x0A, 0xFF, 0x0A]
    let later : List UInt8 := [0x32, 0x0A, 0xC3]
    let holding (input : List UInt8) : Surroundings :=
      { input, terminal := false, contentAt := fun _ => .error .missing }
    Asks ["-k"] { keepGoing := true } ∧ front.getLast? = some 10 ∧
    StopsEarly true {} (Text.decodedLines front) ∧
    run ["-k"] (holding (front ++ later)) = run ["-k"] (holding front) ∧
    (run ["-k"] (holding front)).code = 1 ∧ (run ["-k"] (holding (front ++ later))).code = 1 := by
  intro front later holding
  have hasks : Asks ["-k"] { keepGoing := true } := rfl
  have hlines : Text.decodedLines front = [some "1", none] := by decide
  have hreaches : Reaches true {} (Text.decodedLines front) (after {} "1") none := by
    rw [hlines]
    exact .later (.inl rfl) (.here _ none [])
  have hstops : StopsEarly true {} (Text.decodedLines front) := ⟨_, _, hreaches, .inl rfl⟩
  have hone : (run ["-k"] (holding front)).code = 1 := by
    rw [run_input hasks rfl, code_runLines_eq_one_iff]
    exact ⟨_, _, hreaches, trivial⟩
  obtain ⟨-, -, hcode, hsame⟩ :=
    run_pipe_append hasks (.inr rfl) (holding front) (holding (front ++ later)) rfl rfl rfl rfl
  exact ⟨hasks, rfl, hstops, hsame hstops, hone, hcode hone⟩

end LineCalc.Command
