import LineCalc.EditDistance

/-!
# The table of distances

The distance of two words by recursion on their last characters (`between`): they are
replaced, or one of them is inserted or removed. This is the whole table of the distances
between beginnings of the words, while the search for a distance keeps one row of it at a
time. Each row that it computes is a row of the table (`nextRow_rowFrom`), so the distance
is the last entry (`distance_eq_between`).

No distance is zero but that of a word from itself (`distance_eq_zero_iff`).
-/

namespace LineCalc.EditDistance

/-- The distance of two words that are given backwards. -/
def between : List Char → List Char → Nat
  | [], v => v.length
  | u, [] => u.length
  | c :: u, d :: v =>
    min (min (if c = d then between u v else between u v + 1) (between (c :: u) v + 1))
      (between u (d :: v) + 1)
termination_by u v => u.length + v.length

theorem between_nil_left (v : List Char) : between [] v = v.length := by
  rw [between]

theorem between_nil_right (u : List Char) : between u [] = u.length := by
  cases u with
  | nil => rw [between]
  | cons c u =>
    rw [between]
    intro h
    cases h

theorem between_cons (c d : Char) (u v : List Char) :
    between (c :: u) (d :: v) =
      min (min (if c = d then between u v else between u v + 1) (between (c :: u) v + 1))
        (between u (d :: v) + 1) := by
  rw [between]

/-- Words at no distance are equal: only a character that stays the same costs nothing. -/
theorem eq_of_between_eq_zero {u v : List Char} (h : between u v = 0) : u = v := by
  induction u generalizing v with
  | nil =>
    rw [between_nil_left] at h
    exact (List.length_eq_zero_iff.mp h).symm
  | cons c u ih =>
    cases v with
    | nil =>
      rw [between_nil_right] at h
      cases h
    | cons d v =>
      rw [between_cons] at h
      split at h
      · rename_i hsame
        have hrest : between u v = 0 := by omega
        rw [hsame, ih hrest]
      · omega

theorem between_self (u : List Char) : between u u = 0 := by
  induction u with
  | nil => exact between_nil_left []
  | cons c u ih => simp [between_cons, ih]

/-! ## Rows -/

/-- The row of the table for `u`, from the column of `v` on. -/
def rowFrom (u v : List Char) : List Char → List Nat
  | [] => [between u v]
  | d :: word => between u v :: rowFrom u (d :: v) word

theorem fillRow_rowFrom (c d : Char) (u v word : List Char) :
    fillRow c (d :: word) (between u v) (between (c :: u) v) (rowFrom u (d :: v) word) =
      rowFrom (c :: u) (d :: v) word := by
  induction word generalizing d v with
  | nil => simp only [rowFrom, fillRow, between_cons]
  | cons d' word ih =>
    -- the entry that is left of the next one has just been computed
    rw [rowFrom, fillRow, rowFrom, ← between_cons, ih]

/-- Each row gives the next one. -/
theorem nextRow_rowFrom (word u : List Char) (c : Char) :
    nextRow word (rowFrom u [] word) c = rowFrom (c :: u) [] word := by
  have hfirst : between u [] + 1 = between (c :: u) [] := by
    rw [between_nil_right, between_nil_right, List.length_cons]
  cases word with
  | nil => simp only [rowFrom, nextRow, hfirst, fillRow]
  | cons d word => simp only [rowFrom, nextRow, hfirst, fillRow_rowFrom]

theorem foldl_nextRow (word a u : List Char) :
    a.foldl (nextRow word) (rowFrom u [] word) = rowFrom (a.reverse ++ u) [] word := by
  induction a generalizing u with
  | nil => rfl
  | cons c a ih =>
    rw [List.foldl_cons, nextRow_rowFrom, ih, List.reverse_cons, List.append_assoc]
    rfl

theorem rowFrom_nil (v word : List Char) :
    rowFrom [] v word = List.range' v.length (word.length + 1) := by
  induction word generalizing v with
  | nil => simp [rowFrom, between_nil_left]
  | cons d word ih =>
    calc rowFrom [] v (d :: word)
      _ = v.length :: List.range' (v.length + 1) (word.length + 1) := by
        rw [rowFrom, ih, between_nil_left, List.length_cons]
      _ = List.range' v.length (word.length + 1 + 1) := List.range'_succ.symm

theorem getLastD_rowFrom (u v word : List Char) (default : Nat) :
    (rowFrom u v word).getLastD default = between u (word.reverse ++ v) := by
  induction word generalizing v default with
  | nil => rfl
  | cons d word ih =>
    rw [rowFrom, List.getLastD_cons, ih, List.reverse_cons, List.append_assoc]
    rfl

/-- The distance is the last entry of the table. -/
theorem distance_eq_between (a b : String) :
    distance a b = between a.toList.reverse b.toList.reverse := by
  have hstart : List.range (b.toList.length + 1) = rowFrom [] [] b.toList := by
    rw [rowFrom_nil, List.range_eq_range']
    rfl
  rw [distance, lastRow, hstart, foldl_nextRow, getLastD_rowFrom, List.append_nil,
    List.append_nil]

theorem distance_eq_zero_iff {a b : String} : distance a b = 0 ↔ a = b := by
  rw [distance_eq_between]
  constructor
  · intro h
    exact String.toList_inj.mp (List.reverse_inj.mp (eq_of_between_eq_zero h))
  · rintro rfl
    exact between_self _

end LineCalc.EditDistance
