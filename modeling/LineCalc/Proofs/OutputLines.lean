import Mathlib
import LineCalc.Proofs.FaultOrigins
import LineCalc.Proofs.KeepGoing
import LineCalc.Proofs.LineEnds
import LineCalc.Proofs.Printing

/-!
# A line of output for each line

A run that keeps going answers each line that is not blank with one line, on standard output
if it has a value and on standard error if it fails (`runLines_lineForLine`). Neither can be
mistaken for two, since no line feed stands in the text of a value or in a message: a message
quotes what is plain or foreign to the language, and a line feed is neither.
-/

namespace LineCalc

/-! ## No line feed inside -/

/-- The characters that stand for what is no decimal. -/
def Decimal.signs : List Char := ['-', 'i', 'n', 'f', 'N', 'a']

theorem Decimal.mem_magnitudeText {rank : Nat} {c : Char} (h : c ∈ magnitudeText rank) :
    Token.isNumeral c = true ∨ c ∈ signs := by
  unfold magnitudeText at h
  by_cases hzero : rank = 0
  · rw [if_pos hzero] at h
    rw [List.mem_singleton.mp h]
    exact .inl rfl
  · rw [if_neg hzero] at h
    by_cases htop : rank = Double.top
    · rw [if_pos htop] at h
      refine .inr (List.mem_cons_of_mem _ ?_)
      exact List.mem_append_left ['N', 'a'] h
    · rw [if_neg htop] at h
      generalize shortest rank = found at h
      obtain ⟨multiple, power⟩ := found
      exact .inl ((isDecimal_positional multiple power).isNumeral c h)

/-- The characters of the text of a double. -/
theorem Decimal.mem_text {x : Float} {c : Char} (h : c ∈ (text x).toList) :
    Token.isNumeral c = true ∨ c ∈ signs := by
  have hmagnitude : c ∈ magnitudeText (Double.rank x) → Token.isNumeral c = true ∨ c ∈ signs :=
    mem_magnitudeText
  unfold text at h
  generalize magnitudeText (Double.rank x) = magnitude at h hmagnitude
  by_cases hnumber : x.isNaN = true
  · rw [if_pos hnumber] at h
    have hall : ∀ c ∈ "NaN".toList, c ∈ signs := by simp [signs]
    exact .inr (hall c h)
  · rw [if_neg hnumber] at h
    dsimp only at h
    rw [String.toList_ofList] at h
    split at h
    · rcases List.mem_cons.mp h with rfl | h
      · exact .inr List.mem_cons_self
      · exact hmagnitude h
    · exact hmagnitude h

theorem Decimal.notMem_text {c : Char} (hnumeral : Token.isNumeral c = false) (hsign : c ∉ signs)
    (x : Float) : c ∉ (text x).toList := by
  intro h
  rcases mem_text h with hnumeral' | hsign'
  · rw [hnumeral] at hnumeral'
    cases hnumeral'
  · exact hsign hsign'

/-- No message of a run has a line feed in it. -/
theorem Session.feed_notMem_message {s : Session} {source : String} {fault : Fault}
    (hnames : s.bindings.WellNamed) (h : (s.run source).1 = .error fault) :
    '\n' ∉ fault.message.toList := by
  have hscan : '\n' ∉ ScanFault.wording.toList := by decide +kernel
  have hparse : '\n' ∉ ParseFault.wording.toList := by decide +kernel
  have heval : '\n' ∉ EvalFault.wording.toList := by decide +kernel
  have hplain : ¬ ((Token.isNumeral '\n' = true ∨ Token.isNamePart '\n' = true) ∨
    '\n' = ',' ∨ '\n' = ' ') := by decide
  cases fault with
  | scan reason =>
    exact notMem_message_of_run hnames h '\n' rfl hscan fun hforeign => hforeign (by decide)
  | parse reason => exact notMem_message_of_run hnames h '\n' rfl hparse id
  | eval reason => exact notMem_message_of_run hnames h '\n' rfl heval hplain

namespace Text

theorem terminated_singleton (line : String) : terminated [line] = line ++ "\n" := by
  rw [terminated, List.flatMap_singleton, String.ofList_append, String.ofList_toList]

theorem terminated_append (front later : List String) :
    terminated (front ++ later) = terminated front ++ terminated later := by
  rw [terminated, List.flatMap_append, String.ofList_append]
  rfl

/-- As many line feeds as lines, if there are none inside. -/
theorem count_terminated {lines : List String} (h : ∀ line ∈ lines, '\n' ∉ line.toList) :
    (terminated lines).toList.count '\n' = lines.length := by
  rw [terminated, String.toList_ofList]
  induction lines with
  | nil => rfl
  | cons line later ih =>
    obtain ⟨hline, hlater⟩ := List.forall_mem_cons.mp h
    rw [List.flatMap_cons, List.count_append, List.count_append, List.count_eq_zero.mpr hline,
      ih hlater, List.length_cons, Nat.zero_add]
    exact Nat.add_comm _ _

end Text

namespace Command

/-! ## Turns -/

/-- The lines that are not blank, each with the session that it finds. -/
def turns (s : Session) : List String → List (Session × String)
  | [] => []
  | line :: later =>
    if Text.isBlank line then turns s later else (s, line) :: turns (s.run line).2 later

/-- The line that is shown on standard output: the text of the value, if there is one. -/
def outLine? (turn : Session × String) : Option String :=
  match (turn.1.run turn.2).1 with
  | .ok x => some (Decimal.text x)
  | .error _ => none

/-- The line that is shown on standard error: the message of the fault, if there is one. -/
def errLine? (turn : Session × String) : Option String :=
  match (turn.1.run turn.2).1 with
  | .ok _ => none
  | .error fault => some ("error: " ++ fault.message)

section
variable {s : Session} {line : String} {lines : List String}

theorem map_snd_turns (s : Session) (lines : List String) :
    (turns s lines).map Prod.snd = lines.filter fun line => !Text.isBlank line := by
  induction lines generalizing s with
  | nil => rfl
  | cons line later ih =>
    rw [turns]
    by_cases hblank : Text.isBlank line = true
    · rw [if_pos hblank, List.filter_cons_of_neg (by simp [hblank]), ih]
    · rw [if_neg hblank, List.filter_cons_of_pos (by simp [hblank]), List.map_cons, ih]

/-- All sessions have plain names if the first one has. -/
theorem wellNamed_of_mem_turns (h : s.bindings.WellNamed) :
    ∀ turn ∈ turns s lines, turn.1.bindings.WellNamed := by
  induction lines generalizing s with
  | nil => exact fun turn hturn => absurd hturn List.not_mem_nil
  | cons line later ih =>
    rw [turns]
    split
    · exact ih h
    · exact List.forall_mem_cons.mpr ⟨h, ih (h.run line)⟩

/-- What one line shows. -/
theorem answer_of_not_blank (hblank : ¬ Text.isBlank line = true) :
    (answer s line).1.out = Text.terminated (outLine? (s, line)).toList ∧
      (answer s line).1.err = Text.terminated (errLine? (s, line)).toList := by
  rw [answer, if_neg hblank, outLine?, errLine?]
  cases hrun : s.run line with
  | mk result s' =>
    cases result with
    | ok x =>
      exact ⟨(Text.terminated_singleton _).symm, rfl⟩
    | error fault =>
      exact ⟨rfl, (Text.terminated_singleton _).symm⟩

/-- A run that keeps going shows the lines of its turns. -/
theorem runLines_eq_turns (s : Session) (lines : List String) :
    (runLines true s (lines.map some)).out =
        Text.terminated ((turns s lines).filterMap outLine?) ∧
      (runLines true s (lines.map some)).err =
        Text.terminated ((turns s lines).filterMap errLine?) := by
  induction lines generalizing s with
  | nil => exact ⟨rfl, rfl⟩
  | cons line later ih =>
    obtain ⟨hout, herr⟩ := ih (after s line)
    rw [List.map_cons, runLines_cons_of_goes (.inl rfl), Report.out_append, Report.err_append,
      hout, herr, turns, after]
    by_cases hblank : Text.isBlank line = true
    · rw [if_pos hblank, if_pos hblank, answer, if_pos hblank]
      exact ⟨String.empty_append, String.empty_append⟩
    · obtain ⟨hout', herr'⟩ := @answer_of_not_blank s line hblank
      rw [if_neg hblank, if_neg hblank, hout', herr', ← Text.terminated_append,
        ← Text.terminated_append, List.filterMap_cons, List.filterMap_cons]
      cases outLine? (s, line) <;> cases errLine? (s, line) <;> exact ⟨rfl, rfl⟩

/-- A turn has one of the two lines, with no line feed in it. -/
theorem line_of_turn (turn : Session × String) (h : turn.1.bindings.WellNamed) :
    (∃ x, (turn.1.run turn.2).1 = .ok x ∧ outLine? turn = some (Decimal.text x) ∧
      errLine? turn = none ∧ '\n' ∉ (Decimal.text x).toList) ∨
    ∃ fault, (turn.1.run turn.2).1 = .error fault ∧ outLine? turn = none ∧
      errLine? turn = some ("error: " ++ fault.message) ∧ '\n' ∉ fault.message.toList := by
  rw [outLine?, errLine?]
  cases hrun : (turn.1.run turn.2).1 with
  | ok x => exact .inl ⟨x, rfl, rfl, rfl, Decimal.notMem_text rfl (by decide) x⟩
  | error fault => exact .inr ⟨fault, rfl, rfl, rfl, Session.feed_notMem_message h hrun⟩

theorem feed_notMem_lines {answered : List (Session × String)}
    (h : ∀ turn ∈ answered, turn.1.bindings.WellNamed) :
    (∀ line ∈ answered.filterMap outLine?, '\n' ∉ line.toList) ∧
      ∀ line ∈ answered.filterMap errLine?, '\n' ∉ line.toList := by
  constructor
  · intro line hline
    obtain ⟨turn, hturn, hsome⟩ := List.mem_filterMap.mp hline
    rcases line_of_turn turn (h turn hturn) with ⟨x, -, hout, -, hfeed⟩ | ⟨fault, -, hout, -⟩
    · rw [hout] at hsome
      rwa [← Option.some.inj hsome]
    · rw [hout] at hsome
      cases hsome
  · intro line hline
    obtain ⟨turn, hturn, hsome⟩ := List.mem_filterMap.mp hline
    rcases line_of_turn turn (h turn hturn) with ⟨x, -, -, herr, -⟩ | ⟨fault, -, -, herr, hfeed⟩
    · rw [herr] at hsome
      cases hsome
    · rw [herr] at hsome
      rw [← Option.some.inj hsome, String.toList_append, List.mem_append, not_or]
      exact ⟨by decide, hfeed⟩

/-- There are as many lines as turns on both streams together. -/
theorem length_lines (answered : List (Session × String)) :
    (answered.filterMap outLine?).length + (answered.filterMap errLine?).length =
      answered.length := by
  induction answered with
  | nil => rfl
  | cons turn later ih =>
    rw [List.filterMap_cons, List.filterMap_cons, outLine?, errLine?, List.length_cons, ← ih]
    cases (turn.1.run turn.2).1 with
    | ok x => exact Nat.add_right_comm _ 1 _
    | error fault => exact (Nat.add_assoc _ _ 1).symm

end

/-! ## Main statement -/

/-- **A line of output for each line.** A run that keeps going from a fresh session takes the
lines that are not blank in turn. Each shows one line: the text of its value on standard output,
or its message on standard error. Both streams have these lines in order, each with a line feed
at its end and none inside, and nothing else. -/
theorem runLines_lineForLine (lines : List String) :
    let report := runLines true {} (lines.map some)
    let answered := turns {} lines
    answered.map Prod.snd = lines.filter (fun line => !Text.isBlank line) ∧
    report.out = Text.terminated (answered.filterMap outLine?) ∧
    report.err = Text.terminated (answered.filterMap errLine?) ∧
    (∀ turn ∈ answered,
      (∃ x, (turn.1.run turn.2).1 = .ok x ∧ outLine? turn = some (Decimal.text x) ∧
        errLine? turn = none ∧ '\n' ∉ (Decimal.text x).toList) ∨
      ∃ fault, (turn.1.run turn.2).1 = .error fault ∧ outLine? turn = none ∧
        errLine? turn = some ("error: " ++ fault.message) ∧ '\n' ∉ fault.message.toList) ∧
    report.out.toList.count '\n' + report.err.toList.count '\n' =
      (lines.filter fun line => !Text.isBlank line).length := by
  intro report answered
  have hnames : ∀ turn ∈ answered, turn.1.bindings.WellNamed :=
    wellNamed_of_mem_turns Bindings.wellNamed_empty
  have hturns := map_snd_turns {} lines
  obtain ⟨hout, herr⟩ := runLines_eq_turns {} lines
  obtain ⟨hfeed, hfeed'⟩ := feed_notMem_lines hnames
  refine ⟨hturns, hout, herr, fun turn hturn => line_of_turn turn (hnames turn hturn), ?_⟩
  rw [hout, herr, Text.count_terminated hfeed, Text.count_terminated hfeed', length_lines, ← hturns,
    List.length_map]

/-- A character that no token has, a blank that separates no tokens, and a value. -/
theorem runLines_lineForLine_foreign :
    let lines := ["é", "\u00a0", "2"]
    let report := runLines true {} (lines.map some)
    (({}, "é") : Session × String) ∈ turns {} lines ∧ outLine? ({}, "é") = none ∧
      report.out.toList.count '\n' + report.err.toList.count '\n' = 2 := by
  intro lines report
  have hmem : (({}, "é") : Session × String) ∈ turns {} lines := List.mem_cons_self
  have hfault : (Session.run {} "é").1 = .error (.scan (.unexpected 'é' 0)) := by cbv
  obtain ⟨-, -, -, hlines, hcount⟩ := runLines_lineForLine lines
  refine ⟨hmem, ?_, hcount⟩
  rcases hlines _ hmem with ⟨x, hvalue, -⟩ | ⟨fault, -, hout, -⟩
  · rw [hfault] at hvalue
    cases hvalue
  · exact hout

end Command

end LineCalc
