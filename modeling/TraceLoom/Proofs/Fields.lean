import Mathlib.Data.List.Induction
import Mathlib.Data.List.Perm.Subperm
import Mathlib.Data.List.Nodup
import TraceLoom.Fields

/-!
Looking up fields under distinct names.
-/

namespace TraceLoom.Fields

variable {α : Type}

theorem mem_of_get? {name : String} {value : α} {fields : Fields α}
    (h : fields.get? name = some value) : (name, value) ∈ fields := by
  induction fields with
  | nil => simp [get?] at h
  | cons field rest ih =>
      obtain ⟨key, old⟩ := field
      by_cases hk : key = name
      · simp_all [get?]
      · simp only [get?, hk, if_false] at h
        exact List.mem_cons_of_mem _ (ih h)

theorem get?_of_mem {name : String} {value : α} {fields : Fields α}
    (hnodup : fields.keys.Nodup) (h : (name, value) ∈ fields) :
    fields.get? name = some value := by
  induction fields with
  | nil => simp at h
  | cons field rest ih =>
      obtain ⟨key, old⟩ := field
      simp only [keys, List.map_cons, List.nodup_cons] at hnodup
      rcases List.mem_cons.mp h with heq | hrest
      · simp_all [get?]
      · have hne : key ≠ name := by
          rintro rfl
          exact hnodup.1 (List.mem_map.mpr ⟨_, hrest, rfl⟩)
        simpa [get?, hne] using ih hnodup.2 hrest

theorem exists_get?_iff_mem_keys {name : String} {fields : Fields α} :
    (∃ value, fields.get? name = some value) ↔ name ∈ fields.keys := by
  induction fields with
  | nil => simp [get?, keys]
  | cons field rest ih =>
      obtain ⟨key, old⟩ := field
      by_cases hk : key = name
      · simp [get?, keys, hk]
      · simp [get?, keys, hk, Ne.symm hk] at ih ⊢
        exact ih

theorem get?_eq_none_iff {name : String} {fields : Fields α} :
    fields.get? name = none ↔ name ∉ fields.keys := by
  rw [← exists_get?_iff_mem_keys, Option.eq_none_iff_forall_ne_some]
  simp

@[simp] theorem has_eq_true_iff {name : String} {fields : Fields α} :
    fields.has name = true ↔ name ∈ fields.keys := by
  simp [has, keys]

theorem mem_keys_of_mem {field : String × α} {fields : Fields α} (h : field ∈ fields) :
    field.1 ∈ fields.keys :=
  List.mem_map.mpr ⟨field, h, rfl⟩

theorem insert_self {name : String} {value : α} {fields : Fields α}
    (h : fields.get? name = some value) : fields.insert name value = fields := by
  induction fields with
  | nil => simp [get?] at h
  | cons field rest ih =>
      obtain ⟨key, old⟩ := field
      by_cases hk : key = name
      · simp_all [get?, insert]
      · simp_all [get?, insert]

theorem get?_append (name : String) (fs gs : Fields α) :
    get? name (fs ++ gs) = (fs.get? name).or (gs.get? name) := by
  induction fs with
  | nil => simp [get?]
  | cons field rest ih =>
      by_cases hk : field.1 = name <;> simp [get?, hk, ih]

theorem get?_map_key {β : Type} (name : String) (f : String → α) (entries : List (String × β)) :
    get? name (entries.map fun entry => (entry.1, f entry.1)) =
      if name ∈ entries.map (·.1) then some (f name) else none := by
  induction entries with
  | nil => simp [get?]
  | cons entry rest ih =>
      by_cases hk : entry.1 = name
      · simp [get?, hk]
      · have hmem : name ∈ (entry :: rest).map (·.1) ↔ name ∈ rest.map (·.1) := by
          simp [Ne.symm hk]
        rw [List.map_cons, get?, if_neg hk, ih, if_congr hmem rfl rfl]

theorem get?_map_name {names : List String} (f : String → α) {name : String} (h : name ∈ names) :
    get? name (names.map fun n => (n, f n)) = some (f name) := by
  induction names with
  | nil => simp at h
  | cons n names ih =>
      by_cases hn : n = name
      · simp [get?, hn]
      · simpa [get?, hn] using ih ((List.mem_cons.mp h).resolve_left (Ne.symm hn))

theorem nodup_insert (name : String) (value : α) {fields : Fields α} (h : fields.keys.Nodup) :
    (fields.insert name value).keys.Nodup := by
  by_cases hmem : name ∈ fields.keys
  · rwa [keys_insert_of_mem value hmem]
  · rw [keys_insert_of_not_mem value hmem, ← List.concat_eq_append, List.nodup_concat]
    exact ⟨hmem, h⟩

theorem forall_insert_named {p : String → α → Prop} {name : String} {value : α} {fields : Fields α}
    (hvalue : p name value) (h : ∀ field ∈ fields, p field.1 field.2) :
    ∀ field ∈ fields.insert name value, p field.1 field.2 := by
  induction fields with
  | nil => simpa [insert] using hvalue
  | cons field rest ih =>
      obtain ⟨key, old⟩ := field
      obtain ⟨hold, hrest⟩ := List.forall_mem_cons.mp h
      unfold insert
      split
      · rename_i heq
        exact List.forall_mem_cons.mpr ⟨heq ▸ hvalue, hrest⟩
      · exact List.forall_mem_cons.mpr ⟨hold, ih hrest⟩

theorem forall_insert {p : α → Prop} {name : String} {value : α} {fields : Fields α}
    (hvalue : p value) (h : ∀ field ∈ fields, p field.2) :
    ∀ field ∈ fields.insert name value, p field.2 :=
  forall_insert_named (p := fun _ => p) hvalue h

theorem forall_insertSorted {p : α → Prop} {name : String} {value : α} {fields : Fields α}
    (hvalue : p value) (h : ∀ field ∈ fields, p field.2) :
    ∀ field ∈ fields.insertSorted name value, p field.2 := by
  induction fields with
  | nil => simpa [insertSorted] using hvalue
  | cons field rest ih =>
      obtain ⟨key, old⟩ := field
      obtain ⟨hold, hrest⟩ := List.forall_mem_cons.mp h
      unfold insertSorted
      split
      · exact List.forall_mem_cons.mpr ⟨hvalue, h⟩
      · split
        · exact List.forall_mem_cons.mpr ⟨hvalue, hrest⟩
        · exact List.forall_mem_cons.mpr ⟨hold, ih hrest⟩

/-- What holds of all values is kept when fields are written one after another. -/
theorem forall_foldl {p : α → Prop} {f : Fields α → String × α → Fields α}
    (hf : ∀ fields pair, p pair.2 → (∀ field ∈ fields, p field.2) →
      ∀ field ∈ f fields pair, p field.2)
    {pairs : List (String × α)} (h : ∀ pair ∈ pairs, p pair.2) {fields : Fields α}
    (hfields : ∀ field ∈ fields, p field.2) : ∀ field ∈ pairs.foldl f fields, p field.2 := by
  induction pairs generalizing fields with
  | nil => exact hfields
  | cons pair pairs ih =>
      obtain ⟨hpair, hpairs⟩ := List.forall_mem_cons.mp h
      exact ih hpairs (hf fields pair hpair hfields)

theorem forall_ofPairs {p : α → Prop} {pairs : List (String × α)}
    (h : ∀ pair ∈ pairs, p pair.2) : ∀ field ∈ ofPairs pairs, p field.2 :=
  forall_foldl (fun _ _ => forall_insert) h (List.forall_mem_nil _)

theorem forall_sort {p : α → Prop} {fields : Fields α} (h : ∀ field ∈ fields, p field.2) :
    ∀ field ∈ fields.sort, p field.2 :=
  forall_foldl (fun _ _ => forall_insertSorted) h (List.forall_mem_nil _)

/-! ### Corresponding fields -/

section

variable {β : Type} {r : α → β → Prop} {fs : Fields α} {gs : Fields β}

/-- Writing corresponding values under one name keeps a correspondence. -/
theorem forall₂_insert (h : List.Forall₂ (fun f g => g.1 = f.1 ∧ r f.2 g.2) fs gs)
    (name : String) {a : α} {b : β} (hab : r a b) :
    List.Forall₂ (fun f g => g.1 = f.1 ∧ r f.2 g.2) (fs.insert name a) (gs.insert name b) := by
  induction h with
  | nil => exact .cons ⟨rfl, hab⟩ .nil
  | cons hfield hrest ih =>
      rw [insert, insert, hfield.1]
      split
      · exact .cons ⟨rfl, hab⟩ hrest
      · exact .cons ⟨rfl, hfield.2⟩ ih

/-- Folding corresponding fields into others keeps the correspondence if a single field does. -/
theorem forall₂_foldl {f : Fields α → String × α → Fields α} {g : Fields β → String × β → Fields β}
    (hstep : ∀ {fs gs x y}, List.Forall₂ (fun f g => g.1 = f.1 ∧ r f.2 g.2) fs gs → y.1 = x.1 →
      r x.2 y.2 → List.Forall₂ (fun f g => g.1 = f.1 ∧ r f.2 g.2) (f fs x) (g gs y))
    {xs : List (String × α)} {ys : List (String × β)}
    (h : List.Forall₂ (fun f g => g.1 = f.1 ∧ r f.2 g.2) xs ys)
    (hfs : List.Forall₂ (fun f g => g.1 = f.1 ∧ r f.2 g.2) fs gs) :
    List.Forall₂ (fun f g => g.1 = f.1 ∧ r f.2 g.2) (xs.foldl f fs) (ys.foldl g gs) := by
  induction h generalizing fs gs with
  | nil => exact hfs
  | cons hfield _ ih => exact ih (hstep hfs hfield.1 hfield.2)

theorem forall₂_ofPairs (h : List.Forall₂ (fun f g => g.1 = f.1 ∧ r f.2 g.2) fs gs) :
    List.Forall₂ (fun f g => g.1 = f.1 ∧ r f.2 g.2) (ofPairs fs) (ofPairs gs) :=
  forall₂_foldl (fun hfs hname hab => hname ▸ forall₂_insert hfs _ hab) h .nil

end

/-! ### Repeated names -/

theorem ofPairs_append_singleton (pairs : List (String × α)) (pair : String × α) :
    ofPairs (pairs ++ [pair]) = (ofPairs pairs).insert pair.1 pair.2 := by
  simp [ofPairs]

theorem keys_ofPairs (pairs : List (String × α)) :
    (ofPairs pairs).keys = (keys pairs).eraseDups := by
  induction pairs using List.reverseRecOn with
  | nil => rfl
  | append_singleton pairs pair ih =>
      have hkeys : keys (pairs ++ [pair]) = keys pairs ++ [pair.1] := by simp [keys]
      rw [ofPairs_append_singleton, hkeys, List.eraseDups_append]
      by_cases hmem : pair.1 ∈ keys pairs
      · rw [keys_insert_of_mem _ (by rwa [ih, List.mem_eraseDups]), ih]
        simp [List.removeAll, hmem]
      · rw [keys_insert_of_not_mem _ (by rwa [ih, List.mem_eraseDups]), ih]
        simp [List.removeAll, hmem, List.eraseDups_cons]

theorem get?_ofPairs (name : String) (pairs : List (String × α)) :
    (ofPairs pairs).get? name = pairs.reverse.lookup name := by
  induction pairs using List.reverseRecOn with
  | nil => rfl
  | append_singleton pairs pair ih =>
      rw [ofPairs_append_singleton, List.reverse_append, List.reverse_singleton,
        List.singleton_append, List.lookup_cons]
      by_cases hname : name = pair.1
      · rw [hname, get?_insert_self, beq_self_eq_true]
      · rw [get?_insert_of_ne hname, ih, beq_false_of_ne hname]

theorem nodup_ofPairs (pairs : List (String × α)) : (ofPairs pairs).keys.Nodup := by
  induction pairs using List.reverseRecOn with
  | nil => exact List.nodup_nil
  | append_singleton pairs pair ih =>
      rw [ofPairs_append_singleton]
      exact nodup_insert pair.1 pair.2 ih

/-- Fields are told by their names and what stands under each. -/
theorem eq_filterMap_keys {fields : Fields α} (h : fields.keys.Nodup) :
    fields = fields.keys.filterMap fun name => (fields.get? name).map (name, ·) := by
  induction fields with
  | nil => rfl
  | cons field rest ih =>
      obtain ⟨key, value⟩ := field
      obtain ⟨hkey, hrest⟩ := List.nodup_cons.mp h
      have hsame : ∀ name ∈ keys rest, (get? name ((key, value) :: rest)).map (name, ·) =
          (get? name rest).map (name, ·) := by
        intro name hname
        have hne : key ≠ name := fun heq => hkey (by rwa [heq])
        rw [get?, if_neg hne]
      have hkeys : keys ((key, value) :: rest) = key :: keys rest := rfl
      rw [hkeys, List.filterMap_cons, List.filterMap_congr hsame, ← ih hrest]
      simp [get?]

/-- Every name once, where it first comes, with the last value that comes under it. -/
def condensed (pairs : List (String × α)) : Fields α :=
  (keys pairs).eraseDups.filterMap fun name => (pairs.reverse.lookup name).map (name, ·)

theorem ofPairs_eq_condensed (pairs : List (String × α)) : ofPairs pairs = condensed pairs := by
  rw [eq_filterMap_keys (nodup_ofPairs pairs), condensed, keys_ofPairs]
  simp only [get?_ofPairs]

/-- Among records of one size, one that has all the names of another has no others. -/
theorem keys_perm_of_subset {β : Type} {fs : Fields α} {gs : Fields β}
    (hnodup : gs.keys.Nodup) (hlength : fs.length = gs.length) (hsub : gs.keys ⊆ fs.keys) :
    gs.keys.Perm fs.keys :=
  (hnodup.subperm hsub).perm_of_length_le (by simp [keys, hlength])

end TraceLoom.Fields
