import Mathlib.Data.List.MinMax
import Mathlib.Data.List.Sort
import Mathlib.Data.String.Basic
import LineCalc.Eval
import LineCalc.Proofs.DistanceTable

/-!
# The nearest names

The search for the names nearest to a word goes through the candidates once and keeps the
best ones so far. What it finds are the candidates at the least distance, if that is
within the limit (`mem_search`). An exact match ends the search early, but then it is the
only word at that distance, and a search to the end finds the same (`searchAll`).

The names that were found are sorted and listed once each, and such a list is determined by
its members (`sorted_congr`). So the order of the candidates does not show in the answer
(`closestWithin_congr`), nor does the order of the bound names in what is suggested for one
that is not. Main statement: `closestWithin_exact`.
-/

namespace LineCalc.Text

theorem pairwise_insertSorted {name : String} {names : List String}
    (h : names.Pairwise (· < ·)) : (insertSorted name names).Pairwise (· < ·) := by
  induction names with
  | nil => exact List.pairwise_singleton _ _
  | cons first rest ih =>
    obtain ⟨hfirst, hrest⟩ := List.pairwise_cons.mp h
    rw [insertSorted]
    split
    · rename_i hlt
      refine List.pairwise_cons.mpr ⟨?_, h⟩
      intro other hother
      rcases List.mem_cons.mp hother with rfl | hother
      · exact hlt
      · exact hlt.trans (hfirst other hother)
    · split
      · exact h
      · rename_i hlt hne
        have hgt : first < name := lt_of_le_of_ne (not_lt.mp hlt) (Ne.symm hne)
        refine List.pairwise_cons.mpr ⟨?_, ih hrest⟩
        intro other hother
        rcases mem_insertSorted.mp hother with rfl | hother
        · exact hgt
        · exact hfirst other hother

theorem pairwise_sorted (names : List String) : (sorted names).Pairwise (· < ·) := by
  induction names with
  | nil => exact .nil
  | cons name rest ih => exact pairwise_insertSorted ih

/-- A sorted list is determined by its members. -/
theorem sorted_congr {names names' : List String} (h : ∀ name, name ∈ names ↔ name ∈ names') :
    sorted names = sorted names' := by
  refine (pairwise_sorted names).eq_of_mem_iff (pairwise_sorted names') ?_
  intro name
  rw [mem_sorted, mem_sorted, h]

end LineCalc.Text

namespace LineCalc.NearestName

open EditDistance (distance distance_eq_zero_iff)

variable {limit best : Nat} {word name : String} {candidates found : List String}

/-! ## What the search finds -/

/-- The search without its early end: every candidate is looked at. -/
def searchAll (word : String) : List String → Nat → List String → List String
  | [], _, found => found
  | candidate :: rest, best, found =>
    let d := distance word candidate
    if d < best then searchAll word rest d [candidate]
    else if d = best then searchAll word rest best (found ++ [candidate])
    else searchAll word rest best found

/-- What the whole search finds, given the candidates `found` so far at distance `best`: those
among all of them that are at most so far away, and no further than any candidate that is
still to come. -/
theorem mem_searchAll (hfound : ∀ other ∈ found, distance word other = best) :
    name ∈ searchAll word candidates best found ↔
      (name ∈ found ∨ name ∈ candidates) ∧ distance word name ≤ best ∧
        ∀ other ∈ candidates, distance word name ≤ distance word other := by
  induction candidates generalizing best found with
  | nil =>
    rw [searchAll]
    constructor
    · intro hname
      exact ⟨.inl hname, (hfound name hname).le, by simp⟩
    · rintro ⟨hname | hname, -⟩
      · exact hname
      · cases hname
  | cons candidate rest ih =>
    rw [searchAll, List.forall_mem_cons, List.mem_cons]
    split
    · rename_i hlt
      -- what was found before is further away than the candidate
      have hdrop : name ∈ found → ¬ distance word name ≤ distance word candidate := by
        intro hname
        rw [hfound name hname]
        omega
      rw [ih (by simp), List.mem_singleton]
      grind
    · split
      · rename_i heq
        have hboth : ∀ other ∈ found ++ [candidate], distance word other = best :=
          List.forall_mem_append.mpr ⟨hfound, by simp [heq]⟩
        rw [ih hboth, List.mem_append, List.mem_singleton]
        grind
      · -- the candidate is too far away
        rw [ih hfound]
        grind

/-- The early end is an exact match. -/
theorem search_of_mem (h : word ∈ candidates) : search word candidates best found = [word] := by
  induction candidates generalizing best found with
  | nil => cases h
  | cons candidate rest ih =>
    rw [search]
    by_cases hsame : word = candidate
    · rw [if_pos (distance_eq_zero_iff.mpr hsame), hsame]
    · have hrest : word ∈ rest := (List.mem_cons.mp h).resolve_left hsame
      rw [if_neg (mt distance_eq_zero_iff.mp hsame), ih hrest, ih hrest, ih hrest, ite_self,
        ite_self]

/-- Without an exact match the search goes to the end. -/
theorem search_of_notMem (h : word ∉ candidates) :
    search word candidates best found = searchAll word candidates best found := by
  induction candidates generalizing best found with
  | nil => rfl
  | cons candidate rest ih =>
    obtain ⟨hne, hrest⟩ := not_or.mp (mt List.mem_cons.mpr h)
    rw [search, if_neg (mt distance_eq_zero_iff.mp hne), searchAll, ih hrest, ih hrest, ih hrest]

/-- The early end changes nothing, since only the word itself is at distance zero. -/
theorem mem_search (hfound : ∀ other ∈ found, distance word other = best) :
    name ∈ search word candidates best found ↔
      (name ∈ found ∨ name ∈ candidates) ∧ distance word name ≤ best ∧
        ∀ other ∈ candidates, distance word name ≤ distance word other := by
  by_cases hmem : word ∈ candidates
  · have hzero : distance word word = 0 := distance_eq_zero_iff.mpr rfl
    rw [search_of_mem hmem, List.mem_singleton]
    constructor
    · rintro rfl
      simp [hzero, hmem]
    · rintro ⟨-, -, hle⟩
      have hname : distance word name = 0 := by
        have := hle word hmem
        omega
      exact (distance_eq_zero_iff.mp hname).symm
  · rw [search_of_notMem hmem, mem_searchAll hfound]

/-! ## The answer -/

/-- The candidate is within the limit, and none is nearer to the word. -/
structure Nearest (limit : Nat) (word : String) (candidates : List String) (name : String) :
    Prop where
  mem : name ∈ candidates
  within : distance word name ≤ limit
  least : ∀ other ∈ candidates, distance word name ≤ distance word other

/-- All of the nearest candidates, in increasing order and each of them once. -/
structure Lists (limit : Nat) (word : String) (candidates names : List String) : Prop where
  sorted : names.Pairwise (· < ·)
  mem_iff : ∀ name, name ∈ names ↔ Nearest limit word candidates name

theorem Lists.unique {names names' : List String} (h : Lists limit word candidates names)
    (h' : Lists limit word candidates names') : names = names' := by
  refine h.sorted.eq_of_mem_iff h'.sorted ?_
  intro name
  rw [h.mem_iff, h'.mem_iff]

theorem mem_search_nil :
    name ∈ search word candidates limit [] ↔ Nearest limit word candidates name := by
  rw [mem_search (by simp)]
  constructor
  · rintro ⟨hname, hwithin, hleast⟩
    exact ⟨hname.resolve_left List.not_mem_nil, hwithin, hleast⟩
  · intro h
    exact ⟨.inr h.mem, h.within, h.least⟩

theorem lists_search (limit : Nat) (word : String) (candidates : List String) :
    Lists limit word candidates (Text.sorted (search word candidates limit [])) where
  sorted := Text.pairwise_sorted _
  mem_iff name := by rw [Text.mem_sorted, mem_search_nil]

/-- One of the candidates within the limit is the nearest. -/
theorem exists_nearest_iff :
    (∃ name, Nearest limit word candidates name) ↔
      ∃ other ∈ candidates, distance word other ≤ limit := by
  constructor
  · rintro ⟨name, h⟩
    exact ⟨name, h.mem, h.within⟩
  · rintro ⟨other, hother, hwithin⟩
    cases hleast : candidates.argmin (distance word) with
    | none =>
      rw [List.argmin_eq_none.mp hleast] at hother
      cases hother
    | some name =>
      have hle (other : String) (hother : other ∈ candidates) :
          distance word name ≤ distance word other := List.le_of_mem_argmin hother hleast
      exact ⟨name, List.argmin_mem hleast, (hle other hother).trans hwithin, hle⟩

theorem closestWithin_of_lists {names : List String} (h : Lists limit word candidates names) :
    closestWithin limit word candidates =
      if names = [] then none else some (", ".intercalate names) := by
  rw [closestWithin, (lists_search limit word candidates).unique h]
  cases names <;> rfl

/-- There is no answer just if all candidates are too far away. -/
theorem closestWithin_eq_none_iff :
    closestWithin limit word candidates = none ↔
      ∀ other ∈ candidates, limit < distance word other := by
  have hlists := lists_search limit word candidates
  rw [closestWithin_of_lists hlists, ite_eq_left_iff, List.eq_nil_iff_forall_not_mem]
  simp only [hlists.mem_iff, reduceCtorEq, imp_false, not_not]
  rw [← not_exists, exists_nearest_iff]
  simp

/-- An answer has all the nearest candidates in it. -/
theorem closestWithin_eq_some_iff {text : String} :
    closestWithin limit word candidates = some text ↔
      ∃ names, names ≠ [] ∧ Lists limit word candidates names ∧
        text = ", ".intercalate names := by
  constructor
  · intro h
    have hlists := lists_search limit word candidates
    rw [closestWithin_of_lists hlists] at h
    obtain ⟨hne, htext⟩ := Option.ite_none_left_eq_some.mp h
    exact ⟨_, hne, hlists, (Option.some.inj htext).symm⟩
  · rintro ⟨names, hne, hlists, rfl⟩
    rw [closestWithin_of_lists hlists, if_neg hne]

/-- The answer depends on nothing but which names are candidates. -/
theorem closestWithin_congr {candidates' : List String}
    (h : ∀ name, name ∈ candidates ↔ name ∈ candidates') :
    closestWithin limit word candidates = closestWithin limit word candidates' := by
  have hsorted : Text.sorted (search word candidates limit []) =
      Text.sorted (search word candidates' limit []) := by
    refine Text.sorted_congr ?_
    intro name
    rw [mem_search (by simp), mem_search (by simp)]
    simp only [h]
  rw [closestWithin, closestWithin, hsorted]

/-- The answer of the search without its early end is the same. -/
theorem sorted_search_eq (limit : Nat) (word : String) (candidates : List String) :
    Text.sorted (search word candidates limit []) =
      Text.sorted (searchAll word candidates limit []) := by
  refine Text.sorted_congr ?_
  intro name
  rw [mem_search (by simp), mem_searchAll (by simp)]

/-! ## What is suggested for an unknown name -/

theorem run_identifier_of_get?_eq_none {b : Bindings} (h : b.get? word = none) :
    (Eval.identifier word).run b =
      .error (.unknownName word (closestWithin Eval.suggestionLimit word b.names)) b := by
  rw [Eval.identifier, EStateM.run_bind, EStateM.run_get]
  simp only [h]
  rfl

/-- **The search for the nearest names is exact, whatever the order of the candidates.** There
is no answer just if all candidates are further away than the limit, and else it has all those
at the least distance in it, in increasing order and each of them once. The early end of the
search does not change this, nor does it matter in which order and how often the candidates
come.

So it is with the suggestion for a name that is not bound: it is the same for every order of
the names that are, there is one just if one of them is at most two edits away, and it does not
have the unknown name in it. -/
theorem closestWithin_exact (limit : Nat) (word : String) (candidates : List String) :
    (closestWithin limit word candidates = none ↔
      ∀ other ∈ candidates, limit < distance word other) ∧
    (∀ text, closestWithin limit word candidates = some text ↔
      ∃ names, names ≠ [] ∧ Lists limit word candidates names ∧
        text = ", ".intercalate names) ∧
    Text.sorted (search word candidates limit []) =
      Text.sorted (searchAll word candidates limit []) ∧
    (∀ candidates', (∀ name, name ∈ candidates ↔ name ∈ candidates') →
      closestWithin limit word candidates = closestWithin limit word candidates') ∧
    ∀ b : Bindings, b.get? word = none → ∃ suggestion : Option String,
      (∀ b' : Bindings, b'.names.Perm b.names →
        (Eval.identifier word).run b' = .error (.unknownName word suggestion) b') ∧
      (suggestion.isSome ↔ ∃ other ∈ b.names, distance word other ≤ 2) ∧
      ∀ text, suggestion = some text →
        ∃ names, Lists 2 word b.names names ∧ text = ", ".intercalate names ∧ word ∉ names := by
  refine ⟨closestWithin_eq_none_iff, fun text => closestWithin_eq_some_iff,
    sorted_search_eq limit word candidates, fun _ => closestWithin_congr, ?_⟩
  intro b hunbound
  have hnotMem : word ∉ b.names := by
    rw [Bindings.mem_names_iff, hunbound]
    simp
  refine ⟨closestWithin 2 word b.names, ?_, ?_, ?_⟩
  · intro b' hperm
    have hunbound' : b'.get? word = none := by
      rw [hperm.mem_iff.symm.not, Bindings.mem_names_iff] at hnotMem
      simpa using hnotMem
    have hsame : closestWithin Eval.suggestionLimit word b'.names = closestWithin 2 word b.names :=
      closestWithin_congr fun name => hperm.mem_iff
    rw [run_identifier_of_get?_eq_none hunbound', hsame]
  · rw [Option.isSome_iff_ne_none, ne_eq, closestWithin_eq_none_iff]
    simp
  · intro text htext
    obtain ⟨names, -, hlists, rfl⟩ := closestWithin_eq_some_iff.mp htext
    exact ⟨names, hlists, rfl, fun hmem => hnotMem ((hlists.mem_iff word).mp hmem).mem⟩

/-- Two candidates are equally near, and one of them comes twice. Among the bound names they
stand in one order or in the other. -/
theorem closestWithin_exact_ties :
    let word := "rate"
    let candidates := ["rates", "ratio", "date", "rates"]
    let b := Bindings.ofList [("rates", 1), ("date", 2), ("x", 3)]
    let b' := Bindings.ofList [("x", 3), ("date", 2), ("rates", 1)]
    closestWithin 2 word candidates = some "date, rates" ∧
    closestWithin 2 word ["date", "rates", "ratio"] = some "date, rates" ∧
    b.get? word = none ∧ b'.names.Perm b.names ∧
    (∃ other ∈ b.names, distance word other ≤ 2) ∧
    ∃ suggestion : Option String, suggestion.isSome ∧
      (Eval.identifier word).run b' = .error (.unknownName word suggestion) b' := by
  intro word candidates b b'
  have hunbound : b.get? word = none := rfl
  have hperm : b'.names.Perm b.names := by decide
  have hnear : ∃ other ∈ b.names, distance word other ≤ 2 := ⟨"date", by decide, by decide⟩
  have hmembers (name : String) :
      name ∈ candidates ↔ name ∈ ["date", "rates", "ratio"] := by
    simp only [candidates, List.mem_cons]
    grind
  obtain ⟨-, -, -, hcongr, hsuggests⟩ := closestWithin_exact 2 word candidates
  obtain ⟨suggestion, hrun, hsome, -⟩ := hsuggests b hunbound
  have hanswer : closestWithin 2 word candidates = some "date, rates" := by decide
  exact ⟨hanswer, (hcongr _ hmembers).symm.trans hanswer, hunbound, hperm, hnear, suggestion,
    hsome.mpr hnear, hrun b' hperm⟩

end LineCalc.NearestName
