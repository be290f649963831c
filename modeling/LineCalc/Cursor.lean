import LineCalc.Fault

/-!
# Cursors

A cursor is a place in a list of tokens: the tokens that are left, and how many
parentheses have been opened and not closed on the way. A reading moves a cursor
and either gives a value or stops at a fault. In both cases the cursor stays
where the reading left it, and so does the count of open groups.
-/

namespace LineCalc

/-- A place in a list of tokens. -/
structure Cursor where
  /-- The tokens that are left. -/
  tokens : List Token
  /-- The byte offset at which the source ends. -/
  finish : Nat
  /-- How many groups are open. -/
  openGroups : Nat := 0
  deriving DecidableEq, Repr

/-- An action that moves a cursor. -/
abbrev Reading (α : Type) := EStateM ParseFault Cursor α

namespace Cursor

/-- The next token, which is not consumed. -/
def peek? (c : Cursor) : Option Token := c.tokens.head?

/-- The kind of the token that `n` others come before. -/
def kindAt? (c : Cursor) (n : Nat) : Option Token.Kind := c.tokens[n]?.map Token.kind

/-- Whether no token is left. -/
def isEmpty (c : Cursor) : Bool := c.tokens.isEmpty

/-- The place of the next token, or the end of the source. -/
def position (c : Cursor) : Nat :=
  match c.tokens with
  | [] => c.finish
  | token :: _ => token.position

/-- Consume the next token, if there is one. -/
def advance : Reading (Option Token) := fun c =>
  match c.tokens with
  | [] => .ok none c
  | token :: rest => .ok (some token) { c with tokens := rest }

/-- Consume the next token if its kind is accepted. -/
def takeIf (accepts : Token.Kind → Bool) : Reading (Option Token) := fun c =>
  match c.tokens with
  | [] => .ok none c
  | token :: rest =>
    if accepts token.kind then .ok (some token) { c with tokens := rest } else .ok none c

/-- Consume the next token if it has the given kind. -/
def take (kind : Token.Kind) : Reading (Option Token) := takeIf (· == kind)

/-- Consume the next token if it is an arithmetic operator, and say which one
it is and where it stands. -/
def takeOperator : Reading (Option (Operator × Nat)) := fun c =>
  match c.tokens with
  | [] => .ok none c
  | token :: rest =>
    match token.kind.operator? with
    | some op => .ok (some (op, token.position)) { c with tokens := rest }
    | none => .ok none c

/-- Consume the next token, which has to have the given kind. -/
def require (kind : Token.Kind) : Reading Token := do
  match ← take kind with
  | some token => return token
  | none => throw (.expected kind (← get).position)

/-- Count one more open group, for the parenthesis at the given place. -/
def openGroup (position : Nat) : Reading Unit := do
  let c ← get
  if c.openGroups < groupLimit then
    set { c with openGroups := c.openGroups + 1 }
  else
    throw (.tooDeep position)

/-- Count one open group less, if any is open. -/
def closeGroup : Reading Unit :=
  modify fun c => { c with openGroups := c.openGroups - 1 }

end Cursor

end LineCalc
