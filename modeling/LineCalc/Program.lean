import LineCalc.Cursor
import LineCalc.Expr.Basic

/-!
# From tokens to programs

The language has five forms:

* an *atom* is a number or a name;
* an *operand* is an atom, or a formula in parentheses;
* a *formula* is a chain of operands with operators between them, grouped from
  the left, since no operator binds tighter than another;
* a *statement* is a formula, or an atom, `=` and a formula;
* a *program* is one statement after the other, at least one.

Statements have no end mark: a formula goes on as long as operators follow. Two
tokens decide whether a statement is an assignment. Parentheses leave no trace in
the expression, but no more than `groupLimit` of them may be open at once.

An operand and a chain may contain each other, so their readings carry a bound on
the number of tokens left; each step consumes one, so the number of tokens of the
cursor is always enough.
-/

namespace LineCalc.Program

open Cursor

/-- Read a number or a name. -/
def atom : Reading Expr := do
  match ← takeIf Token.Kind.isAtom with
  | some token =>
    if token.kind = .number then return .number token.text token.position
    else return .identifier token.text token.position
  | none => throw (.expectedAtom (← get).position)

mutual

/-- Read an operand from at most `bound` tokens. -/
def operandWithin : Nat → Reading Expr
  | 0 => atom
  | bound + 1 => do
    match ← take .leftParen with
    | none => atom
    | some paren =>
      openGroup paren.position
      let first ← operandWithin bound
      let inner ← chainWithin bound first
      let _ ← require .rightParen
      closeGroup
      return inner

/-- Read the operators and operands that follow an operand, from at most
`bound` tokens, each operation being the left operand of the next. -/
def chainWithin : Nat → Expr → Reading Expr
  | 0, left => return left
  | bound + 1, left => do
    match ← takeOperator with
    | none => return left
    | some (op, position) =>
      let right ← operandWithin bound
      chainWithin bound (.arith op left right position)

end

/-- Read an operand. -/
def operand : Reading Expr := do
  operandWithin (← get).tokens.length

/-- Read a chain of operands. -/
def formula : Reading Expr := do
  let bound := (← get).tokens.length
  let first ← operandWithin bound
  chainWithin bound first

/-- Whether an assignment is next: an atom with `=` after it. -/
def startsAssignment (c : Cursor) : Bool :=
  (c.kindAt? 0).any Token.Kind.isAtom && c.kindAt? 1 == some .assign

/-- Read a statement. -/
def statement : Reading Expr := do
  if startsAssignment (← get) then
    let target ← atom
    let sign ← require .assign
    let value ← formula
    return .assign target value sign.position
  else
    formula

/-- Read statements until no token is left, `bound` of them at most. -/
def statementsWithin : Nat → Reading Program
  | 0 => return []
  | bound + 1 => do
    if (← get).isEmpty then
      return []
    else
      let first ← statement
      let later ← statementsWithin bound
      return first :: later

/-- Read the whole list of tokens as a program. Every statement consumes a
token, so there are at most as many statements as tokens. -/
def read : Reading Program := do
  let c ← get
  if c.isEmpty then throw .emptyInput else statementsWithin c.tokens.length

/-- The program that a list of tokens spells, in a source of `finish` bytes. -/
def ofTokens (tokens : List Token) (finish : Nat) : Except ParseFault Program :=
  match read.run { tokens, finish } with
  | .ok program _ => .ok program
  | .error fault _ => .error fault

end LineCalc.Program
