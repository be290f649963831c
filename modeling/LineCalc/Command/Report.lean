import LineCalc.Decimal.Shortest
import LineCalc.Session
import LineCalc.Text.Blank
import LineCalc.Text.Lines

/-!
# Reports

What a run of lines shows: a value on standard output for each line that has one,
a message on standard error for each line that fails, and an exit code that says
whether any failed. Reports follow one another, so the report of a run is put
together from those of its lines. What is logged is no part of a report.
-/

namespace LineCalc.Command

/-- What the command shows and the code that it ends with. -/
structure Report where
  out : String := ""
  err : String := ""
  code : Nat := 0
  deriving DecidableEq, Repr

namespace Report

/-- One report after the other. The code stays that of a failure. -/
def append (a b : Report) : Report :=
  ⟨a.out ++ b.out, a.err ++ b.err, max a.code b.code⟩

instance : Append Report := ⟨append⟩

/-- The report of a line that has a value. -/
def value (x : Float) : Report := { out := Decimal.text x ++ "\n" }

/-- The report of a line that fails. -/
def fault (fault : Fault) : Report :=
  { err := "error: " ++ fault.message ++ "\n", code := 1 }

/-- The report of a failure that ends the command, with what caused it. -/
def failure (what : String) (cause : String) : Report :=
  { err := "Error: " ++ what ++ "\n\nCaused by:\n    " ++ cause ++ "\n", code := 1 }

end Report

/-- Run a line and report on it. A line of white space is skipped. -/
def answer (s : Session) (line : String) : Report × Session :=
  if Text.isBlank line then ({}, s)
  else
    match s.run line with
    | (.ok value, s) => (.value value, s)
    | (.error fault, s) => (.fault fault, s)

/-- Run lines in order. A line that fails is the last one, unless the run is
to keep going; a line that could not be decoded is the last one in any case. -/
def runLines (keepGoing : Bool) : Session → List (Option String) → Report
  | _, [] => {}
  | _, none :: _ => .failure "failed to read input" "stream did not contain valid UTF-8"
  | s, some line :: rest =>
    let (report, s) := answer s line
    if report.code = 0 || keepGoing then report ++ runLines keepGoing s rest else report

/-! ## Dialogues -/

/-- The prompt that is shown before a line is read. -/
def prompt : Report := { out := "> " }

/-- Run a line typed at a terminal, without the white space at its end. -/
def reply (s : Session) (line : String) : Report × Session := answer s (Text.trimEnd line)

/-- The report on a line typed at a terminal that could not be decoded. -/
def garbled : Report := { err := "Error: stream did not contain valid UTF-8\n", code := 1 }

/-- Run the lines typed at a terminal. None is the last one because it fails;
the prompt is also shown before the read that finds the end of the input. -/
def dialogue : Session → List (Option String) → Report
  | _, [] => prompt
  | _, none :: _ => prompt ++ garbled
  | s, some line :: rest =>
    let (report, s) := reply s line
    prompt ++ report ++ dialogue s rest

end LineCalc.Command
