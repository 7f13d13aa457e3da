import Mathlib.Data.List.Sort
import Mathlib.Data.String.Basic
import TraceLoom.Proofs.Fields

/-!
Fields in the order of their names.  Sorting keeps what stands under each name, and sorted fields
are told by that: two records with distinct names have the same fields if and only if they are sorted
alike.
-/

namespace TraceLoom.Fields

variable {α β : Type} {fs gs : Fields α} {name other : String}

/-- The names ascend, so that none comes twice. -/
def Ascending (fields : Fields α) : Prop :=
  fields.keys.Pairwise (· < ·)

theorem Ascending.nodup (h : fs.Ascending) : fs.keys.Nodup :=
  h.imp fun hlt => hlt.ne

theorem get?_mapValues (f : α → β) (name : String) (fields : Fields α) :
    (fields.mapValues f).get? name = (fields.get? name).map f := by
  induction fields with
  | nil => rfl
  | cons field rest ih =>
      change (if field.1 = name then some (f field.2) else get? name (mapValues f rest)) = _
      rw [ih, get?]
      split_ifs <;> rfl

theorem mapValues_mapValues {γ : Type} (f : α → β) (g : β → γ) (fields : Fields α) :
    (fields.mapValues f).mapValues g = fields.mapValues fun value => g (f value) := by
  simp [mapValues]

@[simp] theorem keys_nil : keys ([] : Fields α) = [] :=
  rfl

@[simp] theorem keys_mapValues (f : α → β) (fields : Fields α) :
    (fields.mapValues f).keys = fields.keys := by
  simp [keys, mapValues]

/-! ## Writing into sorted fields -/

theorem get?_insertSorted_self (name : String) (value : α) (fields : Fields α) :
    (fields.insertSorted name value).get? name = some value := by
  induction fields with
  | nil => simp [insertSorted, get?]
  | cons field rest ih =>
      obtain ⟨key, old⟩ := field
      unfold insertSorted
      split_ifs with hlt heq
      · simp [get?]
      · simp [get?, heq]
      · simpa [get?, heq] using ih

theorem get?_insertSorted_of_ne (h : other ≠ name) (value : α) (fields : Fields α) :
    (fields.insertSorted name value).get? other = fields.get? other := by
  induction fields with
  | nil => simp [insertSorted, get?, h.symm]
  | cons field rest ih =>
      obtain ⟨key, old⟩ := field
      unfold insertSorted
      split_ifs with hlt heq
      · rw [get?, if_neg h.symm]
      · subst heq
        simp [get?, h.symm]
      · simp [get?, ih]

theorem mem_keys_insertSorted {value : α} :
    other ∈ (fs.insertSorted name value).keys ↔ other = name ∨ other ∈ fs.keys := by
  by_cases h : other = name
  · rw [← exists_get?_iff_mem_keys, h, get?_insertSorted_self]
    simp
  · rw [← exists_get?_iff_mem_keys, get?_insertSorted_of_ne h, exists_get?_iff_mem_keys]
    simp [h]

theorem Ascending.insertSorted (h : fs.Ascending) (name : String) (value : α) :
    (fs.insertSorted name value).Ascending := by
  induction fs with
  | nil => exact List.pairwise_singleton _ _
  | cons field rest ih =>
      obtain ⟨key, old⟩ := field
      obtain ⟨hkey, hrest⟩ := List.pairwise_cons.mp h
      unfold Fields.insertSorted
      split_ifs with hlt heq
      · refine List.pairwise_cons.mpr ⟨fun n hn => ?_, h⟩
        rcases List.mem_cons.mp hn with rfl | hn
        · exact hlt
        · exact hlt.trans (hkey n hn)
      · exact h
      · refine List.pairwise_cons.mpr ⟨fun n hn => ?_, ih hrest⟩
        rcases mem_keys_insertSorted.mp hn with rfl | hn
        · exact lt_of_le_of_ne (not_lt.mp hlt) heq
        · exact hkey n hn

theorem insertSorted_mapValues (f : α → β) (name : String) (value : α) (fields : Fields α) :
    (fields.mapValues f).insertSorted name (f value) =
      (fields.insertSorted name value).mapValues f := by
  induction fields with
  | nil => rfl
  | cons field rest ih =>
      obtain ⟨key, old⟩ := field
      change (if name < key then _ else if key = name then _ else (key, f old) ::
        (mapValues f rest).insertSorted name (f value)) = _
      rw [ih, Fields.insertSorted]
      split_ifs <;> rfl

/-! ## Sorting -/

theorem sort_append_singleton (pairs : List (String × α)) (pair : String × α) :
    sort (pairs ++ [pair]) = (sort pairs).insertSorted pair.1 pair.2 := by
  simp [sort]

theorem ascending_sort (fields : Fields α) : fields.sort.Ascending := by
  induction fields using List.reverseRecOn with
  | nil => exact List.Pairwise.nil
  | append_singleton fields field ih =>
      rw [sort_append_singleton]
      exact ih.insertSorted field.1 field.2

/-- Sorting keeps what counts under a name. -/
theorem get?_sort (name : String) (fields : Fields α) :
    fields.sort.get? name = (ofPairs fields).get? name := by
  induction fields using List.reverseRecOn with
  | nil => rfl
  | append_singleton fields field ih =>
      rw [sort_append_singleton, ofPairs_append_singleton]
      by_cases h : name = field.1
      · rw [h, get?_insertSorted_self, get?_insert_self]
      · rw [get?_insertSorted_of_ne h, get?_insert_of_ne h, ih]

theorem sort_mapValues (f : α → β) (fields : Fields α) :
    (fields.mapValues f).sort = fields.sort.mapValues f := by
  induction fields using List.reverseRecOn with
  | nil => rfl
  | append_singleton fields field ih =>
      have hmap : mapValues f (fields ++ [field]) =
          mapValues f fields ++ [(field.1, f field.2)] := by simp [mapValues]
      rw [hmap, sort_append_singleton, sort_append_singleton, ih]
      exact insertSorted_mapValues f field.1 field.2 _

/-- Ascending fields are told by what stands under each name. -/
theorem Ascending.eq (hfs : fs.Ascending) (hgs : gs.Ascending)
    (h : ∀ name, fs.get? name = gs.get? name) : fs = gs := by
  have hkeys : fs.keys = gs.keys := by
    refine List.Perm.eq_of_pairwise' hfs hgs ?_
    refine (List.perm_ext_iff_of_nodup hfs.nodup hgs.nodup).mpr fun name => ?_
    rw [← exists_get?_iff_mem_keys, ← exists_get?_iff_mem_keys, h]
  rw [eq_filterMap_keys hfs.nodup, eq_filterMap_keys hgs.nodup, hkeys]
  simp only [h]

/-- A name that is not there yet is written at the end. -/
theorem insert_of_not_mem (value : α) (h : name ∉ fs.keys) :
    fs.insert name value = fs ++ [(name, value)] := by
  induction fs with
  | nil => rfl
  | cons field rest ih =>
      obtain ⟨key, old⟩ := field
      obtain ⟨hne, hrest⟩ := not_or.mp (mt List.mem_cons.mpr h)
      rw [insert, if_neg (Ne.symm hne), ih hrest, List.cons_append]

theorem ofPairs_of_nodup (h : fs.keys.Nodup) : ofPairs fs = fs := by
  induction fs using List.reverseRecOn with
  | nil => rfl
  | append_singleton fields field ih =>
      have hkeys : keys (fields ++ [field]) = keys fields ++ [field.1] := by simp [keys]
      rw [hkeys, ← List.concat_eq_append, List.nodup_concat] at h
      rw [ofPairs_append_singleton, ih h.2, insert_of_not_mem field.2 h.1]

/-- Records with distinct names have the same fields if and only if they are sorted alike. -/
theorem sort_eq_sort_iff (hfs : fs.keys.Nodup) (hgs : gs.keys.Nodup) :
    fs.sort = gs.sort ↔ ∀ name, fs.get? name = gs.get? name := by
  constructor
  · intro h name
    rw [← ofPairs_of_nodup hfs, ← ofPairs_of_nodup hgs, ← get?_sort, ← get?_sort, h]
  · intro h
    refine (ascending_sort fs).eq (ascending_sort gs) fun name => ?_
    rw [get?_sort, get?_sort, ofPairs_of_nodup hfs, ofPairs_of_nodup hgs, h]

/-- Sorting moves the fields of a record with distinct names, no more. -/
theorem mem_sort (h : fs.keys.Nodup) {field : String × α} : field ∈ fs.sort ↔ field ∈ fs := by
  have hget : fs.sort.get? field.1 = fs.get? field.1 := by rw [get?_sort, ofPairs_of_nodup h]
  constructor
  · intro hmem
    exact mem_of_get? (hget ▸ get?_of_mem (ascending_sort fs).nodup hmem)
  · intro hmem
    exact mem_of_get? (hget.trans (get?_of_mem h hmem))

theorem sort_sort (fields : Fields α) : fields.sort.sort = fields.sort := by
  refine (ascending_sort _).eq (ascending_sort _) fun name => ?_
  rw [get?_sort, ofPairs_of_nodup (ascending_sort fields).nodup]

end TraceLoom.Fields
