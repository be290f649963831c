import Mathlib.Order.Bounds.Basic
import LineCalc.Proofs.DistanceTable

/-!
# Edit sequences

An edit inserts, removes or replaces one character of a word (`Edit`), and a sequence of
edits turns one word into another (`Edits`). Main statement: the distance of two texts is the
length of the shortest such sequence (`distance_isLeast_edits`).

* That there is a sequence of this length is read off the table of distances, entry by entry
  (`edits_between`).
* That none is shorter holds because an edit changes a distance by one at most
  (`Edit.between_le`).

The row of the table can be overwritten in place, from left to right, if the entry on the
diagonal is saved (`inPlace?`). Such a row is half new and half old in between
(`overwriteFrom?_eq`), and no column is ever outside of it.
-/

namespace LineCalc.EditDistance

/-! ## Edits -/

/-- One character is inserted, removed or replaced. -/
inductive Edit : List Char → List Char → Prop
  | insert (front back : List Char) (c : Char) : Edit (front ++ back) (front ++ c :: back)
  | remove (front back : List Char) (c : Char) : Edit (front ++ c :: back) (front ++ back)
  | replace (front back : List Char) (c d : Char) :
      Edit (front ++ c :: back) (front ++ d :: back)

/-- So many edits, one after the other, turn the first word into the second one. -/
inductive Edits : Nat → List Char → List Char → Prop
  | refl (u : List Char) : Edits 0 u u
  | first {n : Nat} {u v w : List Char} (h : Edit u v) (later : Edits n v w) : Edits (n + 1) u w

section
variable {n : Nat} {u v w : List Char}

theorem Edit.cons (h : Edit u v) (c : Char) : Edit (c :: u) (c :: v) := by
  cases h with
  | insert front back d => exact .insert (c :: front) back d
  | remove front back d => exact .remove (c :: front) back d
  | replace front back d e => exact .replace (c :: front) back d e

/-- An edit of a word is an edit of the word written backwards. -/
theorem Edit.reverse (h : Edit u v) : Edit u.reverse v.reverse := by
  cases h with
  | insert front back c => simpa using Edit.insert back.reverse front.reverse c
  | remove front back c => simpa using Edit.remove back.reverse front.reverse c
  | replace front back c d => simpa using Edit.replace back.reverse front.reverse c d

theorem Edits.cons (h : Edits n u v) (c : Char) : Edits n (c :: u) (c :: v) := by
  induction h with
  | refl u => exact .refl (c :: u)
  | first h _ ih => exact .first (h.cons c) ih

theorem Edits.reverse (h : Edits n u v) : Edits n u.reverse v.reverse := by
  induction h with
  | refl u => exact .refl u.reverse
  | first h _ ih => exact .first h.reverse ih

theorem Edits.last (h : Edits n u v) (hlast : Edit v w) : Edits (n + 1) u w := by
  induction h with
  | refl u => exact .first hlast (.refl w)
  | first h _ ih => exact .first h (ih hlast)

/-! ## A shortest sequence -/

theorem Edits.insertFirst (h : Edits n u v) (d : Char) : Edits (n + 1) u (d :: v) :=
  h.last (.insert [] v d)

theorem Edits.removeFirst (h : Edits n u v) (c : Char) : Edits (n + 1) (c :: u) v :=
  .first (.remove [] u c) h

theorem Edits.replaceFirst (h : Edits n u v) (c d : Char) : Edits (n + 1) (c :: u) (d :: v) :=
  .first (.replace [] u c d) (h.cons d)

theorem Edits.shorter {m : Nat} (h : Edits m u v) (h' : Edits n u v) : Edits (min m n) u v := by
  rcases Nat.le_total m n with hle | hle
  · rwa [Nat.min_eq_left hle]
  · rwa [Nat.min_eq_right hle]

theorem edits_of_nil (v : List Char) : Edits v.length [] v := by
  induction v with
  | nil => exact .refl []
  | cons d v ih => exact ih.insertFirst d

theorem edits_to_nil (u : List Char) : Edits u.length u [] := by
  induction u with
  | nil => exact .refl []
  | cons c u ih => exact ih.removeFirst c

/-- There are as many edits as the entry of the table says. -/
theorem edits_between (u v : List Char) : Edits (between u v) u v := by
  induction u generalizing v with
  | nil =>
    rw [between_nil_left]
    exact edits_of_nil v
  | cons c u ihu =>
    induction v with
    | nil =>
      rw [between_nil_right]
      exact edits_to_nil (c :: u)
    | cons d v ihv =>
      have hreplace :
          Edits (if c = d then between u v else between u v + 1) (c :: u) (d :: v) := by
        split
        · rename_i hsame
          rw [hsame]
          exact (ihu v).cons d
        · exact (ihu v).replaceFirst c d
      have hinsert : Edits (between (c :: u) v + 1) (c :: u) (d :: v) := ihv.insertFirst d
      have hremove : Edits (between u (d :: v) + 1) (c :: u) (d :: v) :=
        (ihu (d :: v)).removeFirst c
      rw [between_cons]
      exact (hreplace.shorter hinsert).shorter hremove

/-! ## No shorter sequence -/

/-- A character more on the left can be removed. -/
theorem between_cons_left_le (c : Char) (u w : List Char) :
    between (c :: u) w ≤ between u w + 1 := by
  cases w with
  | nil => simp [between_nil_right]
  | cons d w =>
    rw [between_cons]
    omega

/-- A character more on the right can be inserted. -/
theorem between_cons_right_le (u : List Char) (d : Char) (w : List Char) :
    between u (d :: w) ≤ between u w + 1 := by
  cases u with
  | nil => simp [between_nil_left]
  | cons c u =>
    rw [between_cons]
    omega

/-- A character that is removed on the left can be inserted again. -/
theorem between_le_cons_left (c : Char) (u w : List Char) :
    between u w ≤ between (c :: u) w + 1 := by
  induction w with
  | nil =>
    rw [between_nil_right, between_nil_right, List.length_cons]
    omega
  | cons d w ih =>
    have hinsert : between u (d :: w) ≤ between u w + 1 := between_cons_right_le u d w
    rw [between_cons]
    split <;> omega

theorem between_replace_le (c d : Char) (u w : List Char) :
    between (c :: u) w ≤ between (d :: u) w + 1 := by
  induction w with
  | nil => simp [between_nil_right]
  | cons e w ih =>
    rw [between_cons, between_cons]
    split <;> split <;> omega

/-- What changes a distance by one at most still does so behind a character that stays. -/
theorem between_cons_le_cons (h : ∀ w, between u w ≤ between v w + 1) (c : Char)
    (w : List Char) : between (c :: u) w ≤ between (c :: v) w + 1 := by
  induction w with
  | nil =>
    have hnil := h []
    simp only [between_nil_right, List.length_cons] at hnil ⊢
    omega
  | cons d w ih =>
    have hrest := h w
    have hwhole := h (d :: w)
    rw [between_cons, between_cons]
    split <;> omega

theorem between_append_le_append (h : ∀ w, between u w ≤ between v w + 1)
    (front w : List Char) : between (front ++ u) w ≤ between (front ++ v) w + 1 := by
  induction front generalizing w with
  | nil => exact h w
  | cons c front ih => exact between_cons_le_cons ih c w

/-- An edit changes the distance to any word by one at most. -/
theorem Edit.between_le (h : Edit u v) (w : List Char) : between u w ≤ between v w + 1 := by
  cases h with
  | insert front back c => exact between_append_le_append (between_le_cons_left c back) front w
  | remove front back c => exact between_append_le_append (between_cons_left_le c back) front w
  | replace front back c d => exact between_append_le_append (between_replace_le c d back) front w

theorem Edits.between_le (h : Edits n u v) : between u v ≤ n := by
  induction h with
  | refl u => exact Nat.le_of_eq (between_self u)
  | first h _ ih => exact Nat.le_trans (h.between_le _) (Nat.succ_le_succ ih)

end

/-- The distance is the least number of edits. -/
theorem isLeast_edits (a b : String) :
    IsLeast {n | Edits n a.toList b.toList} (distance a b) := by
  rw [distance_eq_between]
  constructor
  · have hedits := (edits_between a.toList.reverse b.toList.reverse).reverse
    rwa [List.reverse_reverse, List.reverse_reverse] at hedits
  · intro n hedits
    exact (Edits.reverse hedits).between_le

/-! ## One row in place -/

/-- Overwrite the entry of column `j + 1` for the characters `c` of the first word and `d` of
the second one. The row is new up to column `j`, and `diagonal` is the old entry there. The
answer has the old entry that was overwritten; there is none if a column is outside. -/
def overwrite? (c d : Char) (j : Nat) (row : List Nat) (diagonal : Nat) :
    Option (List Nat × Nat) := do
  let left ← row[j]?
  let above ← row[j + 1]?
  let replaced := if c = d then diagonal else diagonal + 1
  return (row.set (j + 1) (min (min replaced (left + 1)) (above + 1)), above)

/-- Overwrite the entries after column `j`, for the characters left of the second word. -/
def overwriteFrom? (c : Char) : List Char → Nat → List Nat → Nat → Option (List Nat)
  | [], _, row, _ => some row
  | d :: word, j, row, diagonal => do
    let (row, diagonal) ← overwrite? c d j row diagonal
    overwriteFrom? c word (j + 1) row diagonal

/-- Overwrite the whole row, for the character `c` at place `i` of the first word. -/
def overwriteRow? (word : List Char) (i : Nat) (c : Char) (row : List Nat) :
    Option (List Nat) := do
  let diagonal ← row[0]?
  overwriteFrom? c word 0 (row.set 0 (i + 1)) diagonal

/-- Overwrite the row again and again, for the characters left of the first word from place
`i` on. -/
def overwriteRows? (word : List Char) : List Char → Nat → List Nat → Option (List Nat)
  | [], _, row => some row
  | c :: a, i, row => do
    let row ← overwriteRow? word i c row
    overwriteRows? word a (i + 1) row

/-- The distance of two texts by a single row that is overwritten in place. There is no answer
if a column outside of the row is looked at. -/
def inPlace? (a b : String) : Option Nat := do
  let row ← overwriteRows? b.toList a.toList 0 (List.range (b.toList.length + 1))
  row[b.toList.length]?

section
variable {word : List Char}

theorem length_fillRow (c : Char) (diagonal left : Nat) {row : List Nat}
    (h : row.length = word.length) : (fillRow c word diagonal left row).length = word.length := by
  induction word generalizing diagonal left row with
  | nil => rfl
  | cons d word ih =>
    cases row with
    | nil => cases h
    | cons above row => rw [fillRow, List.length_cons, List.length_cons, ih _ _ (Nat.succ.inj h)]

/-- In a row that is new up to `left` and old after it, the rest is overwritten. -/
theorem overwriteFrom?_eq (c : Char) (front : List Nat) (diagonal left : Nat) {row : List Nat}
    (h : row.length = word.length) :
    overwriteFrom? c word front.length (front ++ left :: row) diagonal =
      some (front ++ left :: fillRow c word diagonal left row) := by
  induction word generalizing front diagonal left row with
  | nil =>
    obtain rfl := List.length_eq_zero_iff.mp h
    rfl
  | cons d word ih =>
    cases row with
    | nil => cases h
    | cons above row =>
      -- the entry that is written is the last new one from here on
      have hstep := ih (front ++ [left]) above
        (min (min (if c = d then diagonal else diagonal + 1) (left + 1)) (above + 1))
        (Nat.succ.inj h)
      simp only [List.length_append, List.length_singleton, List.append_assoc,
        List.singleton_append] at hstep
      rw [overwriteFrom?, overwrite?, fillRow]
      simpa using hstep

theorem overwriteRow?_eq (i : Nat) (c : Char) {row : List Nat} (h : row.length = word.length) :
    overwriteRow? word i c (i :: row) = some (nextRow word (i :: row) c) :=
  overwriteFrom?_eq c [] i (i + 1) h

theorem overwriteRows?_eq (a : List Char) (i : Nat) {row : List Nat}
    (h : row.length = word.length) :
    overwriteRows? word a i (i :: row) = some (a.foldl (nextRow word) (i :: row)) := by
  induction a generalizing i row with
  | nil => rfl
  | cons c a ih =>
    rw [overwriteRows?, overwriteRow?_eq i c h, List.foldl_cons]
    exact ih (i + 1) (length_fillRow c i (i + 1) h)

theorem length_foldl_nextRow (a : List Char) {row : List Nat}
    (h : row.length = word.length + 1) :
    (a.foldl (nextRow word) row).length = word.length + 1 := by
  induction a generalizing row with
  | nil => exact h
  | cons c a ih =>
    cases row with
    | nil => cases h
    | cons first row =>
      refine ih ?_
      rw [nextRow, List.length_cons, length_fillRow c _ _ (Nat.succ.inj h)]

end

/-- Each row has one entry for each column. -/
theorem length_lastRow (a b : List Char) : (lastRow a b).length = b.length + 1 :=
  length_foldl_nextRow a List.length_range

/-- No column is outside of the row, and its last entry is the distance. -/
theorem inPlace?_eq (a b : String) : inPlace? a b = some (distance a b) := by
  have hstart : List.range (b.toList.length + 1) = 0 :: List.range' 1 b.toList.length := by
    rw [List.range_eq_range', List.range'_succ]
  have hlength := length_lastRow a.toList b.toList
  have hrows : overwriteRows? b.toList a.toList 0 (List.range (b.toList.length + 1)) =
      some (lastRow a.toList b.toList) := by
    rw [lastRow, hstart]
    exact overwriteRows?_eq a.toList 0 List.length_range'
  have hlast : (lastRow a.toList b.toList)[b.toList.length]? = some (distance a b) := by
    rw [distance, List.getLastD_eq_getLast?, List.getLast?_eq_getElem?, hlength]
    simp [hlength]
  rw [inPlace?, hrows]
  exact hlast

/-- **The distance of two texts is the least number of edits.** Some sequence of so many
insertions, removals and replacements of single characters turns one into the other, and no
shorter one does. Whatever part of the first text has been read, the row has one entry for each
column; so it can be overwritten in place, and every column that is looked at is inside. -/
theorem distance_isLeast_edits (a b : String) :
    IsLeast {n | Edits n a.toList b.toList} (distance a b) ∧
    (∀ read, (lastRow read b.toList).length = b.toList.length + 1) ∧
    inPlace? a b = some (distance a b) :=
  ⟨isLeast_edits a b, fun read => length_lastRow read b.toList, inPlace?_eq a b⟩

example : inPlace? "kitten" "sitting" = some 3 := by decide

end LineCalc.EditDistance
