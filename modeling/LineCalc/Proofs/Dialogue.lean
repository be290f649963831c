import LineCalc.Proofs.InputModes
import LineCalc.Proofs.KeepGoing

/-!
# Dialogues

At a terminal every line is answered on its own, after a prompt. A line that fails does not
end the dialogue, so it comes to the same as a run that keeps going over the lines without the
white space at their ends, with the prompts put in between (`dialogue_eq`). Main statement:
`run_terminal_piped`.
-/

namespace LineCalc.Text

/-! ## Trimmed lines -/

theorem toList_trimEnd (text : String) :
    (trimEnd text).toList = (text.toList.reverse.dropWhile isWhite).reverse := by
  rw [trimEnd, String.toList_ofList]

/-- A line end is white space, so it does not matter whether it is cut off before. -/
theorem trimEnd_chomp (piece : List Char) :
    trimEnd (.ofList (chomp piece)) = trimEnd (.ofList piece) := by
  have hfeed : isWhite '\n' = true := by decide
  have hreturn : isWhite '\r' = true := by decide
  rw [trimEnd, trimEnd, String.toList_ofList, String.toList_ofList, chomp]
  split
  · rename_i rest hrest
    rw [hrest, List.reverse_reverse, List.dropWhile_cons_of_pos hfeed,
      List.dropWhile_cons_of_pos hreturn]
  · rename_i rest _ hrest
    rw [hrest, List.reverse_reverse, List.dropWhile_cons_of_pos hfeed]
  · rfl

theorem mem_of_mem_trimEnd {text : String} {c : Char} (h : c ∈ (trimEnd text).toList) :
    c ∈ text.toList := by
  rw [toList_trimEnd, List.mem_reverse] at h
  exact List.mem_reverse.mp (List.dropWhile_subset isWhite h)

/-- What is left does not end with white space. -/
theorem isWhite_of_getLast?_trimEnd {text : String} {c : Char}
    (h : (trimEnd text).toList.getLast? = some c) : isWhite c = false := by
  rw [toList_trimEnd, List.getLast?_reverse] at h
  have hhead := List.head?_dropWhile_not isWhite text.toList.reverse
  rwa [h] at hhead

/-- There is a text that has the trimmed lines. -/
theorem lines_terminated_trimEnd (text : String) :
    lines (terminated ((lines text).map trimEnd)) = (lines text).map trimEnd := by
  refine lines_terminated ?_
  intro line hline
  obtain ⟨whole, hwhole, rfl⟩ := List.mem_map.mp hline
  refine ⟨fun hmem => feed_notMem_of_mem_lines hwhole (mem_of_mem_trimEnd hmem), ?_⟩
  intro hreturn
  exact absurd (isWhite_of_getLast?_trimEnd hreturn) (by decide)

end LineCalc.Text

namespace LineCalc.Command

/-! ## What a dialogue shows -/

/-- What the lines show on standard output, each in the session that those before it have
left. -/
def outputs (s : Session) : List String → List String
  | [] => []
  | line :: later => (answer s line).1.out :: outputs (after s line) later

theorem dialogue_cons (s : Session) (line : String) (rest : List (Option String)) :
    dialogue s (some line :: rest) =
      prompt ++ (answer s (Text.trimEnd line)).1 ++
        dialogue (after s (Text.trimEnd line)) rest := by
  rw [dialogue, reply, ← answer_session]

/-- A dialogue differs from a run that keeps going over the trimmed lines in its prompts
only. -/
theorem dialogue_eq (s : Session) (lines : List String) :
    dialogue s (lines.map some) =
      { runLines true s ((lines.map Text.trimEnd).map some) with
        out := String.join ((outputs s (lines.map Text.trimEnd)).map ("> " ++ ·)) ++ "> " } := by
  induction lines generalizing s with
  | nil => simp [dialogue, runLines, outputs, prompt]
  | cons line later ih =>
    rw [List.map_cons, dialogue_cons, ih, List.map_cons, List.map_cons,
      runLines_cons_of_goes (.inl rfl), outputs, List.map_cons, String.join_cons]
    show Report.append (Report.append prompt _) _ = _
    simp [Report.append, prompt, String.append_assoc]

/-- A run that keeps going shows the same without prompts. -/
theorem out_runLines (s : Session) (lines : List String) :
    (runLines true s (lines.map some)).out = String.join (outputs s lines) := by
  induction lines generalizing s with
  | nil => exact String.join_nil.symm
  | cons line later ih =>
    rw [List.map_cons, runLines_cons_of_goes (.inl rfl), Report.out_append, ih, outputs,
      String.join_cons]

/-! ## A terminal and a pipe -/

/-- **A dialogue is the run of the trimmed lines that keeps going.** A text is typed at a
terminal, whether or not the command is told to keep going. There is a text that has the same
lines without the white space at their ends, and each such text on standard input, with the
command told to keep going, gives the same messages and the same code. What the terminal shows
is a prompt and the output of a line, for each line in order, and then a prompt; without the
prompts it is what the other run shows. -/
theorem run_terminal_piped {arguments pipeArguments : List String} {keepGoing : Bool}
    (h : Asks arguments { keepGoing }) (hpipe : Asks pipeArguments { keepGoing := true })
    (text : String) :
    (∃ trimmed, Text.lines trimmed = (Text.lines text).map Text.trimEnd) ∧
    ∀ (trimmed : String) (w w' : Surroundings),
      Text.lines trimmed = (Text.lines text).map Text.trimEnd →
      w.terminal = true → w.input = Text.encoded text →
      w'.terminal = false → w'.input = Text.encoded trimmed →
      let typed := run arguments w
      let piped := run pipeArguments w'
      let shown := outputs {} (Text.lines trimmed)
      typed.err = piped.err ∧ typed.code = piped.code ∧
      typed.out = String.join (shown.map ("> " ++ ·)) ++ "> " ∧
      piped.out = String.join shown := by
  refine ⟨⟨_, Text.lines_terminated_trimEnd text⟩, ?_⟩
  intro trimmed w w' hlines hterminal hinput hterminal' hinput' typed piped shown
  -- the lines as they are typed, with their ends
  let raw := (Text.pieces (· == '\n') text.toList).map String.ofList
  have htrimmed : raw.map Text.trimEnd = Text.lines trimmed := by
    rw [hlines, Text.lines]
    simp [raw, Text.trimEnd_chomp]
  have htyped : typed = dialogue {} (raw.map some) := by
    show run arguments w = _
    rw [run_terminal h hterminal, hinput, Text.rawLines_encoded, List.map_map]
    rfl
  have hpiped : piped = runLines true {} ((raw.map Text.trimEnd).map some) := by
    rw [htrimmed]
    exact run_pipe hpipe hterminal' hinput'
  rw [htyped, hpiped, dialogue_eq, htrimmed]
  exact ⟨rfl, rfl, rfl, out_runLines {} _⟩

/-- Between lines that have a value one is blank and one fails. Their ends differ, and the last
one has none. -/
theorem run_terminal_piped_session :
    let text := "x = 2 \t\r\n\u00a0\ny\nx"
    let trimmed := "x = 2\n\r\ny\nx\n"
    let holding (input : String) (terminal : Bool) : Surroundings :=
      { input := Text.encoded input, terminal, contentAt := fun _ => .error .missing }
    let typed := run [] (holding text true)
    let piped := run ["-k"] (holding trimmed false)
    let shown := outputs {} ["x = 2", "", "y", "x"]
    Asks [] {} ∧ Asks ["-k"] { keepGoing := true } ∧
    Text.lines trimmed = (Text.lines text).map Text.trimEnd ∧
    typed.err = piped.err ∧ typed.code = piped.code ∧
    typed.out = String.join (shown.map ("> " ++ ·)) ++ "> " ∧ piped.out = String.join shown := by
  intro text trimmed holding typed piped shown
  have hasks : Asks [] {} := rfl
  have hpipe : Asks ["-k"] { keepGoing := true } := rfl
  have hlines : Text.lines trimmed = (Text.lines text).map Text.trimEnd := by decide
  have htrimmed : Text.lines trimmed = ["x = 2", "", "y", "x"] := by decide
  obtain ⟨-, hsame⟩ := run_terminal_piped hasks hpipe text
  have hreports :=
    hsame trimmed (holding text true) (holding trimmed false) hlines rfl rfl rfl rfl
  rw [htrimmed] at hreports
  exact ⟨hasks, hpipe, hlines, hreports⟩

end LineCalc.Command
