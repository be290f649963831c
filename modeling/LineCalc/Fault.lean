import LineCalc.Token.Basic

/-!
# Faults

Everything that can go wrong with a line, by the stage at which it shows: while
its tokens are read, while they are put together, or while the expressions are
evaluated. A fault is its cause; `Fault.message` is the one place that words it.
-/

namespace LineCalc

/-- How many parentheses may be open at once. -/
def groupLimit : Nat := 256

/-- A character that belongs to no token. -/
inductive ScanFault where
  | unexpected (character : Char) (position : Nat)
  deriving DecidableEq, Repr

/-- A token that cannot stand where it does, or one that is missing. -/
inductive ParseFault where
  /-- A token of one kind has to come here. -/
  | expected (kind : Token.Kind) (position : Nat)
  /-- An operand has to come here. -/
  | expectedAtom (position : Nat)
  /-- This parenthesis opens one group too many. -/
  | tooDeep (position : Nat)
  /-- There is no token at all. -/
  | emptyInput
  deriving DecidableEq, Repr

/-- A reason why an expression has no value. -/
inductive EvalFault where
  /-- A name that is not bound, with the bound names closest to it. -/
  | unknownName (name : String) (suggestion : Option String)
  /-- A number literal without a digit where one is needed. -/
  | malformedNumber (text : String)
  /-- An assignment to something else than a name. -/
  | invalidTarget (target : String)
  /-- A program without statements. -/
  | emptyProgram
  deriving DecidableEq, Repr

/-- A fault of any stage. -/
inductive Fault where
  | scan (fault : ScanFault)
  | parse (fault : ParseFault)
  | eval (fault : EvalFault)
  deriving DecidableEq, Repr

namespace ScanFault

/-- The character is shown as it is. -/
def message : ScanFault → String
  | unexpected character position =>
    "Error at " ++ position.repr ++ " position: unexpected character '" ++
      .ofList [character] ++ "'."

/-- The byte offset that the fault points at. -/
def position : ScanFault → Nat
  | unexpected _ position => position

end ScanFault

namespace ParseFault

/-- Places are given as byte offsets. -/
def message : ParseFault → String
  | expected kind position => kind.tag ++ " expected at " ++ position.repr ++ " position."
  | expectedAtom position =>
    "Expected number or variable on " ++ position.repr ++ " position."
  | tooDeep position =>
    "Parentheses nested deeper than " ++ groupLimit.repr ++ " levels at " ++
      position.repr ++ " position."
  | emptyInput => "Nothing to evaluate."

/-- The byte offset that the fault points at, if it points at one. -/
def position? : ParseFault → Option Nat
  | expected _ position | expectedAtom position | tooDeep position => some position
  | emptyInput => none

end ParseFault

namespace EvalFault

/-- The question that offers names close to an unknown one. -/
def hint : Option String → String
  | none => ""
  | some suggestion => " Did you mean '" ++ suggestion ++ "'?"

/-- Names and literals are quoted as they were written. -/
def message : EvalFault → String
  | unknownName name suggestion =>
    "Invalid identifier. No variable with name '" ++ name ++ "' was found." ++ hint suggestion
  | malformedNumber text => "Malformed number '" ++ text ++ "'."
  | invalidTarget target =>
    "Cannot assign to '" ++ target ++ "'; only variables can be assigned."
  | emptyProgram => "Nothing to evaluate."

end EvalFault

namespace Fault

/-- The text shown to the user. -/
def message : Fault → String
  | scan fault => fault.message
  | parse fault => fault.message
  | eval fault => fault.message

/-- The byte offset in the line that the fault points at, if it points at one. -/
def position? : Fault → Option Nat
  | scan fault => some fault.position
  | parse fault => fault.position?
  | eval _ => none

end Fault

end LineCalc
