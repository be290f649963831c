import LineCalc.Operator

/-!
# Tokens

The words of the language: number literals, identifiers, the operators, `=` and
parentheses. A token remembers its text and the byte offset at which it starts.
-/

namespace LineCalc

namespace Token

/-- What sort of word a token is. -/
inductive Kind where
  | number
  | identifier
  | space
  | assign
  | plus
  | minus
  | times
  | divide
  | remainder
  | leftParen
  | rightParen
  deriving DecidableEq, Repr

namespace Kind

/-- The name of a kind in messages. -/
def tag : Kind → String
  | number => "number"
  | identifier => "variable"
  | space => "space"
  | assign => "assign"
  | plus => "plus"
  | minus => "minus"
  | times => "multi"
  | divide => "division"
  | remainder => "remainder"
  | leftParen => "lpar"
  | rightParen => "rpar"

/-- All kinds, in the order of their declaration. -/
def all : List Kind :=
  [number, identifier, space, assign, plus, minus, times, divide, remainder, leftParen, rightParen]

/-- The kind with a given tag. -/
def ofTag? (name : String) : Option Kind :=
  all.find? fun kind => kind.tag = name

/-- The arithmetic operator that tokens of a kind stand for. -/
def operator? : Kind → Option Operator
  | plus => some .add
  | minus => some .subtract
  | times => some .multiply
  | divide => some .divide
  | remainder => some .remainder
  | _ => none

/-- Whether tokens of a kind are operands by themselves. -/
def isAtom : Kind → Bool
  | number | identifier => true
  | _ => false

end Kind

end Token

/-- A word of the source with its place. -/
structure Token where
  kind : Token.Kind
  text : String
  /-- Byte offset of the first character in the UTF-8 form of the source. -/
  position : Nat
  deriving DecidableEq, Repr

end LineCalc
