import LineCalc.Text.Sorted

/-!
# Bindings

Names and their values. Every name is bound at most once, and a name keeps its
place when its value changes. `get?` is the view through which bindings are
compared: their order shows nowhere, since names are listed sorted.
-/

namespace LineCalc

/-- Names with their values. -/
structure Bindings where
  entries : List (String × Float)
  /-- No name occurs twice. -/
  nodup : (entries.map Prod.fst).Nodup

namespace Bindings

/-- No name is bound. -/
def empty : Bindings := ⟨[], List.nodup_nil⟩

/-- Change the value of a name where it stands, or add it at the end. -/
def update (name : String) (value : Float) : List (String × Float) → List (String × Float)
  | [] => [(name, value)]
  | entry :: rest =>
    if entry.1 = name then (name, value) :: rest else entry :: update name value rest

theorem mem_names_update {name : String} {value : Float} {other : String}
    {entries : List (String × Float)} :
    other ∈ (update name value entries).map Prod.fst ↔
      other = name ∨ other ∈ entries.map Prod.fst := by
  induction entries with
  | nil => simp [update]
  | cons entry rest ih =>
    rw [update]
    split
    · rename_i h
      simp [h]
    · rw [List.map_cons, List.mem_cons, ih, List.map_cons, List.mem_cons]
      exact or_left_comm

theorem nodup_names_update {name : String} {value : Float} {entries : List (String × Float)}
    (h : (entries.map Prod.fst).Nodup) : ((update name value entries).map Prod.fst).Nodup := by
  induction entries with
  | nil => simp [update]
  | cons entry rest ih =>
    rw [List.map_cons, List.nodup_cons] at h
    rw [update]
    split
    · rename_i hname
      rw [List.map_cons, List.nodup_cons]
      exact ⟨hname ▸ h.1, h.2⟩
    · rename_i hname
      rw [List.map_cons, List.nodup_cons, mem_names_update]
      exact ⟨fun hmem => hmem.elim hname h.1, ih h.2⟩

/-- Bind a name to a value, whether it was bound before or not. -/
def insert (b : Bindings) (name : String) (value : Float) : Bindings :=
  ⟨update name value b.entries, nodup_names_update b.nodup⟩

/-- The value of a name, if it is bound. -/
def get? (b : Bindings) (name : String) : Option Float := b.entries.lookup name

theorem lookup_update (name : String) (value : Float) (entries : List (String × Float))
    (other : String) :
    (update name value entries).lookup other =
      if other = name then some value else entries.lookup other := by
  induction entries with
  | nil =>
    by_cases h : other = name
    · simp [update, h]
    · simp [update, List.lookup_cons, h, beq_false_of_ne h]
  | cons entry rest ih =>
    obtain ⟨key, old⟩ := entry
    rw [update]
    by_cases hkey : key = name
    · -- the name stands here, and its value is replaced
      by_cases h : other = name
      · simp [hkey, h]
      · simp [hkey, List.lookup_cons, h, beq_false_of_ne h]
    · by_cases h : other = key
      · simp [hkey, h]
      · simp [hkey, List.lookup_cons, beq_false_of_ne h, ih]

/-- What is read after a name has been bound. -/
@[simp] theorem get?_insert (b : Bindings) (name : String) (value : Float) (other : String) :
    (b.insert name value).get? other = if other = name then some value else b.get? other :=
  lookup_update name value b.entries other

@[simp] theorem get?_empty (name : String) : empty.get? name = none := rfl

/-- Bind a name and give back the value that it had. -/
def exchange (b : Bindings) (name : String) (value : Float) : Option Float × Bindings :=
  (b.get? name, b.insert name value)

/-- Whether a name is bound. -/
def contains (b : Bindings) (name : String) : Bool := (b.get? name).isSome

/-- How many names are bound. -/
def size (b : Bindings) : Nat := b.entries.length

/-- Whether no name is bound. -/
def isEmpty (b : Bindings) : Bool := b.entries.isEmpty

/-- The bound names. -/
def names (b : Bindings) : List String := b.entries.map Prod.fst

theorem mem_names_iff {b : Bindings} {name : String} :
    name ∈ b.names ↔ (b.get? name).isSome = true := by
  rw [names, get?]
  induction b.entries with
  | nil => simp
  | cons entry rest ih =>
    by_cases h : name = entry.1
    · simp [h]
    · simp [h, ih]

theorem map_fst_update (name : String) (value : Float) (entries : List (String × Float)) :
    (update name value entries).map Prod.fst =
      if name ∈ entries.map Prod.fst then entries.map Prod.fst
      else entries.map Prod.fst ++ [name] := by
  induction entries with
  | nil => rfl
  | cons entry rest ih =>
    rw [update]
    by_cases hname : entry.1 = name
    · simp [hname]
    · have hne : ¬ name = entry.1 := fun h => hname h.symm
      rw [if_neg hname, List.map_cons, ih, List.map_cons]
      simp only [List.mem_cons, hne, false_or]
      split <;> rfl

/-- A name keeps its place when it is bound anew, and else comes last. -/
theorem names_insert (b : Bindings) (name : String) (value : Float) :
    (b.insert name value).names = if name ∈ b.names then b.names else b.names ++ [name] :=
  map_fst_update name value b.entries

/-- The bound names with their values, sorted by name. -/
def sorted (b : Bindings) : List (String × Float) :=
  (Text.sorted b.names).filterMap fun name => (b.get? name).map fun value => (name, value)

/-- The bindings of a list of names and values, a later one replacing an
earlier one of the same name. -/
def ofList (entries : List (String × Float)) : Bindings :=
  entries.foldl (fun b entry => b.insert entry.1 entry.2) empty

/-- Whether two bindings have the same names with equal values. Equality of
values is that of doubles: the two zeros are equal, and what is not a number
equals nothing. -/
def agrees (a b : Bindings) : Bool :=
  a.size == b.size &&
    a.entries.all fun entry => (b.get? entry.1).any fun value => entry.2 == value

end Bindings

end LineCalc
