import LineCalc.Eval
import LineCalc.Program
import LineCalc.Token.Scan

/-!
# Sessions

A session runs lines one after the other, and the names bound by a line are known
to the next. A line is scanned as a whole, then parsed as a whole, and only then
evaluated, so a line that is not well formed binds nothing.
-/

namespace LineCalc

/-- What is kept between two lines. -/
structure Session where
  /-- The names bound so far. -/
  bindings : Bindings := .empty
  /-- The tokens of the line read last, up to a character that stopped the
  scan. They are replaced by those of the next line and never read again. -/
  scanned : List Token := []

namespace Session

/-- Evaluate a program with the bindings of the session. -/
def evaluate (s : Session) (program : Program) : Except Fault Float × Session :=
  match (Eval.program program).run s.bindings with
  | .ok value bindings => (.ok value, { s with bindings })
  | .error fault bindings => (.error (.eval fault), { s with bindings })

/-- Scan a line. -/
def scan (s : Session) (source : String) : Except ScanFault (List Token) × Session :=
  let scan := Token.scan source
  (scan.result, { s with scanned := scan.tokens })

/-- Run a line. -/
def run (s : Session) (source : String) : Except Fault Float × Session :=
  match s.scan source with
  | (.error fault, s) => (.error (.scan fault), s)
  | (.ok tokens, s) =>
    match Program.ofTokens tokens (Text.byteSize source.toList) with
    | .error fault => (.error (.parse fault), s)
    | .ok program => s.evaluate program

end Session

/-- The program that a source spells. -/
def Program.ofSource (source : String) : Except Fault Program :=
  match Token.tokenize source with
  | .error fault => .error (.scan fault)
  | .ok tokens => (Program.ofTokens tokens (Text.byteSize source.toList)).mapError .parse

/-- The value of a line in a session of its own. -/
def evaluate (source : String) : Except Fault Float := (Session.run {} source).1

end LineCalc
