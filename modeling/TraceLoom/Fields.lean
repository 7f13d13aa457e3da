/-!
Fields: values under distinct names, in the order in which the names first came.  Writing to a
name that is present keeps its place.
-/

namespace TraceLoom

abbrev Fields (α : Type _) := List (String × α)

namespace Fields

variable {α β : Type _}

def get? (name : String) : Fields α → Option α
  | [] => none
  | (key, value) :: rest => if key = name then some value else get? name rest

def has (name : String) (fields : Fields α) : Bool :=
  fields.any fun field => field.1 == name

def keys (fields : Fields α) : List String :=
  fields.map (·.1)

def values (fields : Fields α) : List α :=
  fields.map (·.2)

/-- Writes a value under a name: in the place of the name if it is present, else at the end. -/
def insert (name : String) (value : α) : Fields α → Fields α
  | [] => [(name, value)]
  | (key, old) :: rest =>
    if key = name then (key, value) :: rest else (key, old) :: insert name value rest

def erase (name : String) (fields : Fields α) : Fields α :=
  fields.filter fun field => field.1 != name

/-- The fields of a list of pairs, where the last value of a name counts. -/
def ofPairs (pairs : List (String × α)) : Fields α :=
  pairs.foldl (fun fields pair => fields.insert pair.1 pair.2) []

def mapValues (f : α → β) (fields : Fields α) : Fields β :=
  fields.map fun field => (field.1, f field.2)

/-- Writes a value into fields that are sorted by name, keeping them sorted. -/
def insertSorted (name : String) (value : α) : Fields α → Fields α
  | [] => [(name, value)]
  | (key, old) :: rest =>
    if name < key then (name, value) :: (key, old) :: rest
    else if key = name then (key, value) :: rest
    else (key, old) :: insertSorted name value rest

/-- The fields in the order of their names; the last value of a name counts. -/
def sort (fields : Fields α) : Fields α :=
  fields.foldl (fun sorted field => sorted.insertSorted field.1 field.2) []

@[simp] theorem get?_insert_self (name : String) (value : α) (fields : Fields α) :
    (fields.insert name value).get? name = some value := by
  induction fields with
  | nil => simp [insert, get?]
  | cons field rest ih =>
    obtain ⟨key, old⟩ := field
    by_cases h : key = name <;> simp [insert, get?, h, ih]

theorem get?_insert_of_ne {name other : String} (h : other ≠ name) (value : α)
    (fields : Fields α) : (fields.insert name value).get? other = fields.get? other := by
  induction fields with
  | nil => simp [insert, get?, Ne.symm h]
  | cons field rest ih =>
    obtain ⟨key, old⟩ := field
    by_cases hk : key = name
    · subst hk
      simp [insert, get?, Ne.symm h]
    · by_cases ho : key = other
      · subst ho
        simp [insert, get?, h]
      · simp [insert, get?, hk, ho, ih]

theorem keys_insert_of_mem {name : String} (value : α) {fields : Fields α}
    (h : name ∈ fields.keys) : (fields.insert name value).keys = fields.keys := by
  induction fields with
  | nil => simp [keys] at h
  | cons field rest ih =>
    obtain ⟨key, old⟩ := field
    by_cases hk : key = name
    · simp [insert, keys, hk]
    · have hrest : name ∈ keys rest := by
        simpa [keys, Ne.symm hk] using h
      simpa [insert, keys, hk] using ih hrest

theorem keys_insert_of_not_mem {name : String} (value : α) {fields : Fields α}
    (h : name ∉ fields.keys) : (fields.insert name value).keys = fields.keys ++ [name] := by
  induction fields with
  | nil => rfl
  | cons field rest ih =>
    obtain ⟨key, old⟩ := field
    simp only [keys, List.map_cons, List.mem_cons, not_or] at h
    simpa [insert, keys, Ne.symm h.1] using ih h.2

end Fields

end TraceLoom
