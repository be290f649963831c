import LineCalc.Eval
import LineCalc.Token.Scan

/-!
# Surface lines

A line as its writer means it, with neither tokens nor expressions: statements,
chains of operands and parentheses, and the texts of numbers and names.

* `Written` says which texts are ways of writing a line. Blanks may stand anywhere
  around its words, and at least one has to stand between two atoms.
* `Line.run` says directly what a line does: a chain is worked off from left to
  right, no operator binding tighter than another, and statements run in order up
  to the first fault.
-/

namespace LineCalc.Surface

/-! ## Lines -/

inductive Atom where
  | number (text : String)
  | name (text : String)

mutual

/-- An atom, or a chain in parentheses. -/
inductive Operand where
  | atom (a : Atom)
  | group (first : Operand) (links : Links)

/-- The operators and operands after the first operand of a chain. -/
inductive Links where
  | nil
  | cons (op : Operator) (right : Operand) (later : Links)

end

structure Chain where
  first : Operand
  links : Links

inductive Statement where
  | chain (c : Chain)
  | assign (target : Atom) (value : Chain)

/-- The text is one that the atom can have: digits and points, or a name. -/
def Atom.Spelled : Atom → Prop
  | .number text => text.toList ≠ [] ∧ ∀ c ∈ text.toList, Token.isNumeral c = true
  | .name text => ∃ first rest, text.toList = first :: rest ∧
      Token.isNameStart first = true ∧ ∀ c ∈ rest, Token.isNamePart c = true

mutual

def Operand.Spelled : Operand → Prop
  | .atom a => a.Spelled
  | .group first links => first.Spelled ∧ links.Spelled

def Links.Spelled : Links → Prop
  | .nil => True
  | .cons _ right later => right.Spelled ∧ later.Spelled

end

mutual

/-- How many parentheses are open at once at most. -/
def Operand.depth : Operand → Nat
  | .atom _ => 0
  | .group first links => max first.depth links.depth + 1

def Links.depth : Links → Nat
  | .nil => 0
  | .cons _ right later => max right.depth later.depth

end

def Chain.Spelled (c : Chain) : Prop := c.first.Spelled ∧ c.links.Spelled

def Chain.depth (c : Chain) : Nat := max c.first.depth c.links.depth

def Statement.Spelled : Statement → Prop
  | .chain c => c.Spelled
  | .assign target value => target.Spelled ∧ value.Spelled

def Statement.depth : Statement → Nat
  | .chain c => c.depth
  | .assign _ value => value.depth

/-- At least one statement, with proper texts and no more parentheses open at
once than allowed. -/
structure Line where
  first : Statement
  later : List Statement
  spelled : ∀ s ∈ first :: later, s.Spelled
  depth_le : ∀ s ∈ first :: later, s.depth ≤ groupLimit

/-! ## Writing a line -/

/-- A token without its place. -/
structure Word where
  kind : Token.Kind
  text : String
  deriving DecidableEq

def Atom.word : Atom → Word
  | .number text => ⟨.number, text⟩
  | .name text => ⟨.identifier, text⟩

def operatorWord : Operator → Word
  | .add => ⟨.plus, "+"⟩
  | .subtract => ⟨.minus, "-"⟩
  | .multiply => ⟨.times, "*"⟩
  | .divide => ⟨.divide, "/"⟩
  | .remainder => ⟨.remainder, "%"⟩

mutual

def Operand.words : Operand → List Word
  | .atom a => [a.word]
  | .group first links =>
    ⟨.leftParen, "("⟩ :: (first.words ++ (links.words ++ [⟨.rightParen, ")"⟩]))

def Links.words : Links → List Word
  | .nil => []
  | .cons op right later => operatorWord op :: (right.words ++ later.words)

end

def Chain.words (c : Chain) : List Word := c.first.words ++ c.links.words

def Statement.words : Statement → List Word
  | .chain c => c.words
  | .assign target value => target.word :: ⟨.assign, "="⟩ :: value.words

def Line.words (line : Line) : List Word := (line.first :: line.later).flatMap Statement.words

/-- A text, possibly empty, of the blanks that separate tokens. -/
def IsGap (text : List Char) : Prop := ∀ c ∈ text, Token.isSpace c = true

/-- Words in their order, each with a gap after it that may be empty unless it
stands between two atoms. -/
inductive Spaced : List Word → List Char → Prop
  | nil : Spaced [] []
  | cons (w : Word) {gap : List Char} {words : List Word} {text : List Char} (hgap : IsGap gap)
      (hapart : w.kind.isAtom = true → (∃ next ∈ words.head?, next.kind.isAtom = true) → gap ≠ [])
      (hlater : Spaced words text) : Spaced (w :: words) (w.text.toList ++ (gap ++ text))

/-- The text is a way of writing the words: a gap, and then the words with their
gaps. -/
def Written (words : List Word) (text : String) : Prop :=
  ∃ gap rest : List Char, IsGap gap ∧ Spaced words rest ∧ text.toList = gap ++ rest

/-! ## What a line does -/

def Atom.value (b : Bindings) : Atom → Except EvalFault Float
  | .number text =>
    match Decimal.read? text with
    | some value => .ok value
    | none => .error (.malformedNumber text)
  | .name text =>
    match b.get? text with
    | some value => .ok value
    | none =>
      .error (.unknownName text (NearestName.closestWithin Eval.suggestionLimit text b.names))

mutual

def Operand.value (b : Bindings) : Operand → Except EvalFault Float
  | .atom a => a.value b
  | .group first links => do
    let x ← first.value b
    links.fold b x

/-- Work off the operators from the left, `x` being the value so far. -/
def Links.fold (b : Bindings) : Links → Float → Except EvalFault Float
  | .nil, x => .ok x
  | .cons op right later, x => do
    let y ← right.value b
    later.fold b (op.apply x y)

end

def Chain.value (b : Bindings) (c : Chain) : Except EvalFault Float := do
  let x ← c.first.value b
  c.links.fold b x

/-- The result of a statement and the bindings after it. That a target is no name
is a fault whatever its value would be. -/
def Statement.exec (b : Bindings) : Statement → Except EvalFault Float × Bindings
  | .chain c => (c.value b, b)
  | .assign (.number text) _ => (.error (.invalidTarget text), b)
  | .assign (.name text) value =>
    match value.value b with
    | .ok x => (.ok x, b.insert text x)
    | .error fault => (.error fault, b)

/-- Statements run in order. The first fault ends the run; without one the last
value is the result. -/
def runStatements : Statement → List Statement → Bindings → Except EvalFault Float × Bindings
  | s, [], b => s.exec b
  | s, next :: later, b =>
    match s.exec b with
    | (.ok _, b') => runStatements next later b'
    | (.error fault, b') => (.error fault, b')

def Line.run (line : Line) (b : Bindings) : Except EvalFault Float × Bindings :=
  runStatements line.first line.later b

end LineCalc.Surface
