/-!
# Edit distance

The distance of two words is the least number of characters that have to be
inserted, removed or replaced to turn one into the other. The table of the
distances between beginnings of the words is computed row by row, and only the
last row is kept: entry `j` of the row for a beginning `u` of the first word is
the distance of `u` from the first `j` characters of the second word.
-/

namespace LineCalc.EditDistance

/-- The entries of a row from one column on, for the character `c` of the
first word and the characters left of the second: `diagonal` and the list are
the former row from the column before on, and `left` is the new entry of the
column before. -/
def fillRow (c : Char) : List Char → Nat → Nat → List Nat → List Nat
  | d :: word, diagonal, left, above :: row =>
    let replaced := if c = d then diagonal else diagonal + 1
    let entry := min (min replaced (left + 1)) (above + 1)
    entry :: fillRow c word above entry row
  | _, _, _, _ => []

/-- The row that follows `row` when the first word grows by `c`. -/
def nextRow (word : List Char) (row : List Nat) (c : Char) : List Nat :=
  match row with
  | [] => []
  | first :: rest => (first + 1) :: fillRow c word first (first + 1) rest

/-- The row of the whole first word. The row of the empty word counts the
characters that have to be inserted. -/
def lastRow (a b : List Char) : List Nat :=
  a.foldl (nextRow b) (List.range (b.length + 1))

/-- The edit distance of two texts, counted in characters. -/
def distance (a b : String) : Nat :=
  (lastRow a.toList b.toList).getLastD 0

end LineCalc.EditDistance
