import LineCalc.Command.Run
import LineCalc.Proofs.LineEnds

/-!
# File, pipe and arguments

The command takes its lines from a file, from standard input or from its arguments. A file is
decoded as a whole and then cut into lines, a pipe is cut first, and an argument is a line
already. Main statement: the same lines give the same report, wherever they come from
(`run_file_pipe_arguments`).
-/

namespace LineCalc.Command

/-! ## Arguments -/

/-- The arguments ask for lines to be run with these options. -/
def Asks (arguments : List String) (o : Options) : Prop :=
  Request.ofArguments arguments = .ok (.calculate o)

namespace Options

variable {o o' : Options}

theorem request_eq_ok (h : o.request = .ok (.calculate o')) : o = o' := by
  rw [request] at h
  split at h
  · cases h
  · cases h
    rfl

theorem request_of_file_eq_none (h : o.file = none) : o.request = .ok (.calculate o) := by
  rw [request, h]
  rfl

/-- What comes after `--` is added to the expressions, whatever the options before it are. -/
theorem readArguments_append {options : List String}
    (h : readArguments options o = .ok (.calculate o')) (hdashes : "--" ∉ options)
    (hfile : o'.file = none) (expressions : List String) :
    readArguments (options ++ "--" :: expressions) o =
      .ok (.calculate { o' with expressions := o'.expressions ++ expressions }) := by
  fun_induction readArguments options o with
  | case1 o =>
    obtain rfl := request_eq_ok h
    rw [List.nil_append, readArguments, if_pos rfl]
    exact request_of_file_eq_none hfile
  | case2 o rest => exact absurd (by simp) hdashes
  | case6 argument rest o hargument next hread ih =>
    rw [List.cons_append, readArguments, if_neg hargument]
    simp only [hread]
    exact ih h fun hmem => hdashes (by simp [hmem])
  | case9 argument o hargument awaiting hread path rest hpath next hwith ih =>
    rw [List.cons_append, List.cons_append, readArguments, if_neg hargument]
    simp only [hread, hwith, if_neg hpath]
    exact ih h fun hmem => hdashes (by simp [hmem])
  | _ => cases h

end Options

/-- Options in front of `--`, and expressions after it. -/
theorem Asks.expressions {options : List String} {o : Options} (h : Asks options o)
    (hdashes : "--" ∉ options) (hfile : o.file = none) (expressions : List String) :
    Asks (options ++ "--" :: expressions)
      { o with expressions := o.expressions ++ expressions } :=
  Options.readArguments_append h hdashes hfile expressions

/-! ## Reports -/

section
variable {arguments : List String} {w : Surroundings} {keepGoing : Bool} {path text : String}

theorem Asks.run_eq {o : Options} (h : Asks arguments o) (w : Surroundings) :
    run arguments w = calculate w o := by
  rw [run, show Request.ofArguments arguments = _ from h]

/-- A file that holds a text is run line by line. -/
theorem run_file (h : Asks arguments { file := some path, keepGoing })
    (hcontent : w.contentAt path = .ok (Text.encoded text)) :
    run arguments w = runLines keepGoing {} ((Text.lines text).map some) := by
  rw [h.run_eq]
  show runFile w keepGoing path = _
  rw [runFile, Surroundings.readText, hcontent]
  simp only [Text.fromUTF8?_encoded]

/-- So is what comes on standard input, unless that is a terminal. -/
theorem run_input (h : Asks arguments { keepGoing }) (hterminal : w.terminal = false) :
    run arguments w = runLines keepGoing {} (Text.decodedLines w.input) := by
  rw [h.run_eq]
  show runInput w keepGoing = _
  rw [runInput, if_neg (by simp [hterminal])]

theorem run_pipe (h : Asks arguments { keepGoing }) (hterminal : w.terminal = false)
    (hinput : w.input = Text.encoded text) :
    run arguments w = runLines keepGoing {} ((Text.lines text).map some) := by
  rw [run_input h hterminal, hinput, Text.decodedLines_encoded]

theorem run_terminal (h : Asks arguments { keepGoing }) (hterminal : w.terminal = true) :
    run arguments w = dialogue {} (Text.rawLines w.input) := by
  rw [h.run_eq]
  show runInput w keepGoing = _
  rw [runInput, if_pos hterminal]

theorem run_expressions {expressions : List String} (hne : expressions ≠ [])
    (h : Asks arguments { keepGoing, expressions }) :
    run arguments w = runLines keepGoing {} (expressions.map some) := by
  rw [h.run_eq]
  cases expressions with
  | nil => exact absurd rfl hne
  | cons first later => rfl

end

/-- **It does not matter where lines come from.** A text in a file and the same text on
standard input give the same report, that is the same output on both streams and the same
code. So do lines that are given as expressions after `--` and the file in which each of them
is followed by a line feed, if none has a line feed in it or a carriage return at its end. -/
theorem run_file_pipe_arguments {keepGoing : Bool} {path : String} {fileArguments : List String}
    (hfile : Asks fileArguments { file := some path, keepGoing }) :
    (∀ (text : String) (pipeArguments : List String) (w w' : Surroundings),
      Asks pipeArguments { keepGoing } →
      w.contentAt path = .ok (Text.encoded text) →
      w'.terminal = false → w'.input = Text.encoded text →
      run fileArguments w = run pipeArguments w') ∧
    ∀ (expressions options : List String) (w w' : Surroundings), expressions ≠ [] →
      (∀ line ∈ expressions, '\n' ∉ line.toList ∧ line.toList.getLast? ≠ some '\r') →
      Asks options { keepGoing } → "--" ∉ options →
      w.contentAt path = .ok (Text.encoded (Text.terminated expressions)) →
      run (options ++ "--" :: expressions) w' = run fileArguments w := by
  constructor
  · intro text pipeArguments w w' hpipe hcontent hterminal hinput
    rw [run_file hfile hcontent, run_pipe hpipe hterminal hinput]
  · intro expressions options w w' hne hlines hoptions hdashes hcontent
    rw [run_file hfile hcontent, Text.lines_terminated hlines,
      run_expressions hne (hoptions.expressions hdashes rfl expressions)]

/-- A carriage return ends no line by itself, and the last line may lack its end. A lone dash
and an empty line may be given as expressions. -/
theorem run_file_pipe_arguments_returns :
    let text := "x = 1\r\nx\r+ y\n\nx"
    let lines := ["x = 1", "", "-", "x\r+ 1"]
    let holding (content : String) : Surroundings :=
      { input := Text.encoded text, terminal := false
        contentAt := fun _ => .ok (Text.encoded content) }
    Asks ["-k", "--file", "script"] { file := some "script", keepGoing := true } ∧
    Asks ["--keep-going"] { keepGoing := true } ∧
    (∀ line ∈ lines, '\n' ∉ line.toList ∧ line.toList.getLast? ≠ some '\r') ∧
    run ["-k", "--file", "script"] (holding text) = run ["--keep-going"] (holding text) ∧
    run ("--keep-going" :: "--" :: lines) (holding text) =
      run ["-k", "--file", "script"] (holding (Text.terminated lines)) := by
  intro text lines holding
  have hfile : Asks ["-k", "--file", "script"] { file := some "script", keepGoing := true } := rfl
  have hpipe : Asks ["--keep-going"] { keepGoing := true } := rfl
  have hlines : ∀ line ∈ lines, '\n' ∉ line.toList ∧ line.toList.getLast? ≠ some '\r' := by decide
  obtain ⟨hsame, hexpressions⟩ := run_file_pipe_arguments hfile
  exact ⟨hfile, hpipe, hlines, hsame text _ _ _ hpipe rfl rfl rfl,
    hexpressions lines _ _ _ (by decide) hlines hpipe (by decide) rfl⟩

end LineCalc.Command
