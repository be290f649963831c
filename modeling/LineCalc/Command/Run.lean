import LineCalc.Command.Folder
import LineCalc.Command.Options
import LineCalc.Command.Report

/-!
# The command

From arguments and surroundings to a report. Lines come from a file, from the
arguments, or from standard input; only the last can be a terminal. What the user
is told about the options themselves is worded elsewhere and found, like the files,
in the surroundings.
-/

namespace LineCalc.Command

/-- What the command finds when it starts. -/
structure Surroundings where
  /-- The bytes of standard input, up to its end. -/
  input : List UInt8
  /-- Whether standard input is a terminal. -/
  terminal : Bool
  /-- The content of the file at a path. -/
  contentAt : String → Except ReadFault (List UInt8)
  /-- The text that is shown to a user who asks for help. -/
  help : String := ""
  /-- What is said about arguments that make no sense. It may quote them. -/
  usage : List String → String := fun _ => ""

/-- The name of the command and its version. -/
def versionLine : String := "tally 0.1.0\n"

/-- The text of the file at a path. -/
def Surroundings.readText (w : Surroundings) (path : String) : Except ReadFault String :=
  match w.contentAt path with
  | .error fault => .error fault
  | .ok bytes =>
    match String.fromUTF8? ⟨bytes.toArray⟩ with
    | some text => .ok text
    | none => .error .notText

/-- Run the lines of a file. The file is read as a whole before any line runs. -/
def runFile (w : Surroundings) (keepGoing : Bool) (path : String) : Report :=
  match w.readText path with
  | .error fault => .failure ("failed to read the input file '" ++ path ++ "'") fault.cause
  | .ok text => runLines keepGoing {} ((Text.lines text).map some)

/-- Run the lines of standard input. -/
def runInput (w : Surroundings) (keepGoing : Bool) : Report :=
  if w.terminal then dialogue {} (Text.rawLines w.input)
  else runLines keepGoing {} (Text.decodedLines w.input)

/-- Run the lines that the options ask for. -/
def calculate (w : Surroundings) (o : Options) : Report :=
  match o.file, o.expressions with
  | some path, _ => runFile w o.keepGoing path
  | none, [] => runInput w o.keepGoing
  | none, expressions => runLines o.keepGoing {} (expressions.map some)

/-- Run the command. Arguments that make no sense give the code 2. -/
def run (arguments : List String) (w : Surroundings) : Report :=
  match Request.ofArguments arguments with
  | .error _ => { err := w.usage arguments, code := 2 }
  | .ok .help => { out := w.help }
  | .ok .version => { out := versionLine }
  | .ok (.calculate o) => calculate w o

end LineCalc.Command
