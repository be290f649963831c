import LineCalc.Proofs.EditSequences

/-!
# The distance is a metric

The table of distances is filled along the first text, with a row over the second one, so
it does not show in the table that the texts may be exchanged, nor how distances add up.
It shows in the sequences of edits: one that turns a word into another can be undone
(`Edits.symm`), and two can be joined (`Edits.trans`). The distance is the length of a
shortest sequence, so it inherits both.

An edit changes the length of a word by one at most, so the distance is at least the
difference of the lengths. It is at most the larger length, since every place of the
longer word can be settled by one edit (`between_le_max`).
-/

namespace LineCalc.EditDistance

section
variable {m n : Nat} {u v w : List Char}

/-! ## Sequences undone and joined -/

theorem Edit.symm (h : Edit u v) : Edit v u := by
  cases h with
  | insert front back c => exact .remove front back c
  | remove front back c => exact .insert front back c
  | replace front back c d => exact .replace front back d c

/-- The edits are undone, the last one first. -/
theorem Edits.symm (h : Edits n u v) : Edits n v u := by
  induction h with
  | refl u => exact .refl u
  | first h _ ih => exact ih.last h.symm

theorem Edits.trans (h : Edits m u v) (hlater : Edits n v w) : Edits (m + n) u w := by
  induction h with
  | refl u => rwa [Nat.zero_add]
  | first h _ ih =>
    rw [Nat.succ_add]
    exact .first h (ih hlater)

/-! ## Lengths -/

theorem Edit.length_le (h : Edit u v) : v.length ≤ u.length + 1 := by
  cases h <;> simp only [List.length_append, List.length_cons] <;> omega

theorem Edits.length_le (h : Edits n u v) : v.length ≤ u.length + n := by
  induction h with
  | refl u => exact Nat.le_refl _
  | first h _ ih =>
    have hfirst := h.length_le
    omega

/-- One edit for each place is enough: replace what stands there, or insert or remove it if
one of the words has ended. -/
theorem between_le_max (u v : List Char) : between u v ≤ max u.length v.length := by
  induction u generalizing v with
  | nil =>
    rw [between_nil_left]
    exact Nat.le_max_right _ _
  | cons c u ih =>
    cases v with
    | nil =>
      rw [between_nil_right]
      exact Nat.le_max_left _ _
    | cons d v =>
      have hrest := ih v
      rw [between_cons, List.length_cons, List.length_cons]
      split <;> omega

end

/-! ## Distances -/

section
variable {a b : String}

theorem edits_distance (a b : String) : Edits (distance a b) a.toList b.toList :=
  (isLeast_edits a b).1

theorem distance_le_of_edits {n : Nat} (h : Edits n a.toList b.toList) : distance a b ≤ n :=
  (isLeast_edits a b).2 h

theorem distance_le_symm (a b : String) : distance a b ≤ distance b a :=
  distance_le_of_edits (edits_distance b a).symm

theorem length_le_add_distance (a b : String) : b.length ≤ a.length + distance a b := by
  rw [← String.length_toList, ← String.length_toList]
  exact (edits_distance a b).length_le

theorem distance_le_max_length (a b : String) : distance a b ≤ max a.length b.length := by
  have hmax := between_le_max a.toList.reverse b.toList.reverse
  rwa [← distance_eq_between, List.length_reverse, List.length_reverse, String.length_toList,
    String.length_toList] at hmax

/-- **The distance is a metric.** It is zero between equal texts only, it does not depend on
the order of the texts, and a way over a third text is no shorter. It lies between the
difference of the lengths and the larger of them. -/
theorem distance_metric (a b c : String) :
    (distance a b = 0 ↔ a = b) ∧
    distance a b = distance b a ∧
    distance a c ≤ distance a b + distance b c ∧
    ((a.length : Int) - b.length).natAbs ≤ distance a b ∧
    distance a b ≤ max a.length b.length := by
  have hsymm : distance a b = distance b a :=
    Nat.le_antisymm (distance_le_symm a b) (distance_le_symm b a)
  refine ⟨distance_eq_zero_iff, hsymm, ?_, ?_, distance_le_max_length a b⟩
  · exact distance_le_of_edits ((edits_distance a b).trans (edits_distance b c))
  · have hlonger := length_le_add_distance a b
    have hshorter := length_le_add_distance b a
    omega

end

end LineCalc.EditDistance
