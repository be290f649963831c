import LineCalc.Command.Run

/-!
# The program

Reads what the command needs, runs it, and writes its report. At a terminal each
line is answered before the next one is read.
-/

namespace LineCalc.Command

/-- All bytes of a stream, after those read already. -/
partial def readAll (stream : IO.FS.Stream) (bytes : ByteArray) : IO ByteArray := do
  let chunk ← stream.read 65536
  if chunk.isEmpty then return bytes else readAll stream (bytes ++ chunk)

/-- Read a file. Of the wrong types that can be met, 21 is a folder where a file
should be, and the other one is a file where a folder should be. -/
def readPath (path : String) : IO (Except ReadFault (List UInt8)) := do
  try
    return .ok (← IO.FS.readBinFile path).data.toList
  catch
    | .inappropriateType _ 21 _ => return .error .isAFolder
    | .inappropriateType .. => return .error .notAFolder
    | _ => return .error .missing

/-- Write a report to the standard streams. -/
def Report.write (report : Report) : IO Unit := do
  let out ← IO.getStdout
  out.putStr report.out
  out.flush
  (← IO.getStderr).putStr report.err

/-- Answer the lines typed at a terminal until the input ends. -/
partial def converse (stream : IO.FS.Stream) (s : Session) (code : Nat) : IO UInt32 := do
  prompt.write
  let line ← try stream.getLine catch _ =>
    garbled.write
    return 1
  if line.isEmpty then return code.toUInt32
  let (report, s) := reply s line
  report.write
  converse stream s (max code report.code)

/-- Run the command in surroundings that are known, and write its report. -/
def runAndWrite (arguments : List String) (w : Surroundings) : IO UInt32 := do
  let report := run arguments w
  report.write
  return report.code.toUInt32

end LineCalc.Command

open LineCalc.Command in
/-- Run the command on the arguments of the process. Only what it is going to
use is read. -/
def main (arguments : List String) : IO UInt32 := do
  let stdin ← IO.getStdin
  let unused : Surroundings :=
    { input := [], terminal := false, contentAt := fun _ => .error .missing }
  match Request.ofArguments arguments with
  | .ok (.calculate { file := some path, .. }) =>
    let content ← readPath path
    runAndWrite arguments { unused with contentAt := fun _ => content }
  | .ok (.calculate { expressions := [], .. }) =>
    if ← stdin.isTty then
      converse stdin {} 0
    else
      let bytes ← readAll stdin .empty
      runAndWrite arguments { unused with input := bytes.data.toList }
  | _ => runAndWrite arguments unused
