import LineCalc.EditDistance
import LineCalc.Text.Sorted

/-!
# Nearest names

The names that are closest to a word by edit distance. They are offered to the
user who wrote a name that is not known.
-/

namespace LineCalc.NearestName

open EditDistance (distance)

/-- The candidates nearest to `word`, given those `found` so far at distance
`best`. Nothing is nearer than an exact match, so one ends the search. -/
def search (word : String) : List String → Nat → List String → List String
  | [], _, found => found
  | candidate :: rest, best, found =>
    let d := distance word candidate
    if d = 0 then [candidate]
    else if d < best then search word rest d [candidate]
    else if d = best then search word rest best (found ++ [candidate])
    else search word rest best found

/-- The candidates nearest to `word` among those at most `limit` edits away,
sorted and joined by commas, if there are any. -/
def closestWithin (limit : Nat) (word : String) (candidates : List String) : Option String :=
  match Text.sorted (search word candidates limit []) with
  | [] => none
  | names => some (", ".intercalate names)

/-- The candidates nearest to `word`, however far away. The limit excludes
nothing, since no distance exceeds the length of the longer word. -/
def closest (word : String) (candidates : List String) : Option String :=
  closestWithin ((candidates.map String.length).foldl max word.length) word candidates

end LineCalc.NearestName
