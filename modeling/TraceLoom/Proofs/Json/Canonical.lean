import TraceLoom.Json.Basic
import TraceLoom.Proofs.FieldOrder

/-!
Values that say the same in another order.  Where no object has a name twice, reading a value by
names is reading its canonical form, so values with one canonical form cannot be told apart by
reading.
-/

namespace TraceLoom.Json

variable {j k : Json} {name : String}

mutual

/-- No object in the value has a name twice. -/
def Distinct : Json → Prop
  | .array items => DistinctItems items
  | .object fields => (Fields.keys fields).Nodup ∧ DistinctFields fields
  | _ => True
termination_by structural j => j

def DistinctItems : List Json → Prop
  | [] => True
  | j :: js => Distinct j ∧ DistinctItems js
termination_by structural js => js

def DistinctFields : List (String × Json) → Prop
  | [] => True
  | (_, j) :: fs => Distinct j ∧ DistinctFields fs
termination_by structural fs => fs

end

@[simp] theorem distinct_array_iff {items : List Json} :
    (array items).Distinct ↔ ∀ j ∈ items, j.Distinct := by
  rw [Distinct]
  induction items with
  | nil => simp [DistinctItems]
  | cons j js ih => simp [DistinctItems, ih]

@[simp] theorem distinct_object_iff {fields : Fields Json} :
    (object fields).Distinct ↔ fields.keys.Nodup ∧ ∀ field ∈ fields, field.2.Distinct := by
  have hfields : DistinctFields fields ↔ ∀ field ∈ fields, field.2.Distinct := by
    induction fields with
    | nil => simp [DistinctFields]
    | cons field fields ih => simp only [DistinctFields, ih, List.forall_mem_cons]
  rw [Distinct, hfields]

@[simp] theorem distinct_string (s : String) : (string s).Distinct :=
  trivial

@[simp] theorem distinct_boolean (b : Bool) : (boolean b).Distinct :=
  trivial

theorem canonicalItems_eq_map (items : List Json) : canonicalItems items = items.map canonical := by
  induction items with
  | nil => rfl
  | cons j js ih => rw [canonicalItems, ih, List.map_cons]

theorem canonicalFields_eq_mapValues (fields : Fields Json) :
    canonicalFields fields = fields.mapValues canonical := by
  induction fields with
  | nil => rfl
  | cons field fields ih =>
      rw [canonicalFields, ih]
      rfl

theorem canonical_array (items : List Json) :
    (array items).canonical = .array (items.map canonical) := by
  rw [canonical, canonicalItems_eq_map]

theorem canonical_object (fields : Fields Json) :
    (object fields).canonical = .object (fields.sort.mapValues canonical) := by
  rw [canonical, canonicalFields_eq_mapValues, Fields.sort_mapValues]

/-- The values that stand in an array or an object. -/
def children : Json → List Json
  | .array items => items
  | .object fields => Fields.values fields
  | _ => []

theorem sizeOf_lt_of_mem_children (h : k ∈ j.children) : sizeOf k < sizeOf j := by
  cases j with
  | array items =>
      have hlt := List.sizeOf_lt_of_mem (show k ∈ items from h)
      simp only [array.sizeOf_spec]
      omega
  | object fields =>
      obtain ⟨field, hmem, rfl⟩ := List.mem_map.mp h
      have hlt := List.sizeOf_lt_of_mem hmem
      have hfield : sizeOf field = 1 + sizeOf field.1 + sizeOf field.2 := rfl
      simp only [object.sizeOf_spec]
      omega
  | _ => cases h

@[elab_as_elim]
theorem induction {motive : Json → Prop}
    (value : ∀ j, (∀ k ∈ j.children, motive k) → motive j) (j : Json) : motive j :=
  value j fun k hk =>
    have := sizeOf_lt_of_mem_children hk
    induction value k
termination_by sizeOf j

/-! ## Reading the canonical form -/

@[simp] theorem string?_canonical (j : Json) : j.canonical.string? = j.string? := by
  cases j <;> simp [canonical, string?]

@[simp] theorem boolean?_canonical (j : Json) : j.canonical.boolean? = j.boolean? := by
  cases j <;> simp [canonical, boolean?]

theorem array?_canonical (j : Json) :
    j.canonical.array? = j.array?.map (List.map canonical) := by
  cases j <;> simp [canonical, array?, canonicalItems_eq_map]

theorem object?_canonical (j : Json) :
    j.canonical.object? = j.object?.map fun fields => fields.sort.mapValues canonical := by
  cases j <;> simp [canonical, object?, canonicalFields_eq_mapValues, Fields.sort_mapValues]

theorem field?_canonical (h : j.Distinct) (name : String) :
    j.canonical.field? name = (j.field? name).map canonical := by
  cases j with
  | object fields =>
      rw [canonical_object, field?, field?, Fields.get?_mapValues, Fields.get?_sort,
        Fields.ofPairs_of_nodup (distinct_object_iff.mp h).1]
  | _ => rfl

/-! ## Depth -/

theorem depthItems_le_iff {items : List Json} {n : Nat} :
    depthItems items ≤ n ↔ ∀ j ∈ items, j.depth ≤ n := by
  induction items with
  | nil => simp [depthItems]
  | cons j js ih => simp [depthItems, ih]

theorem depthFields_le_iff {fields : Fields Json} {n : Nat} :
    depthFields fields ≤ n ↔ ∀ field ∈ fields, field.2.depth ≤ n := by
  induction fields with
  | nil => simp [depthFields]
  | cons field fields ih => simp [depthFields, ih]

/-- Reordering fields keeps the depth. -/
theorem depth_canonical (j : Json) (h : j.Distinct) : j.canonical.depth = j.depth := by
  induction j using Json.induction with
  | value j ih =>
      cases j with
      | array items =>
          have hitems := distinct_array_iff.mp h
          rw [canonical_array, depth, depth]
          refine congrArg (· + 1) (eq_of_forall_ge_iff fun n => ?_)
          rw [depthItems_le_iff, depthItems_le_iff, List.forall_mem_map]
          exact forall₂_congr fun j hj => by rw [ih j hj (hitems j hj)]
      | object fields =>
          obtain ⟨hkeys, hfields⟩ := distinct_object_iff.mp h
          rw [canonical_object, depth, depth]
          refine congrArg (· + 1) (eq_of_forall_ge_iff fun n => ?_)
          rw [depthFields_le_iff, depthFields_le_iff, Fields.mapValues, List.forall_mem_map]
          refine forall_congr' fun field => ?_
          rw [Fields.mem_sort hkeys]
          refine imp_congr_right fun hfield => ?_
          rw [ih field.2 (List.mem_map.mpr ⟨field, hfield, rfl⟩) (hfields field hfield)]
      | _ => rfl

theorem depth_lt_of_field? (h : j.field? name = some k) : k.depth < j.depth := by
  cases j with
  | object fields =>
      have hle := depthFields_le_iff.mp (le_refl (depthFields fields)) _ (Fields.mem_of_get? h)
      exact Nat.lt_succ_of_le hle
  | _ => cases h

theorem distinct_of_field? (hj : j.Distinct) (h : j.field? name = some k) : k.Distinct := by
  cases j with
  | object fields => exact (distinct_object_iff.mp hj).2 _ (Fields.mem_of_get? h)
  | _ => cases h

/-! ## Rearranged values -/

/-- The values differ at most in the order of fields, and in neither an object has a name
twice. -/
structure Rearranged (j k : Json) : Prop where
  left : j.Distinct
  right : k.Distinct
  canonical : j.canonical = k.canonical

namespace Rearranged

theorem depth (h : j.Rearranged k) : j.depth = k.depth := by
  rw [← depth_canonical j h.left, h.canonical, depth_canonical k h.right]

theorem field? (h : j.Rearranged k) (name : String) :
    Option.Rel Rearranged (j.field? name) (k.field? name) := by
  have hcanonical : (j.field? name).map Json.canonical = (k.field? name).map Json.canonical := by
    rw [← field?_canonical h.left, h.canonical, field?_canonical h.right]
  cases hj : j.field? name <;> cases hk : k.field? name <;> rw [hj, hk] at hcanonical
  · exact .none
  · cases hcanonical
  · cases hcanonical
  · exact .some ⟨distinct_of_field? h.left hj, distinct_of_field? h.right hk,
      Option.some.inj hcanonical⟩

theorem exists_field? {k' : Json} (h : j.Rearranged k) (hk : k.field? name = some k') :
    ∃ j', j.field? name = some j' ∧ j'.Rearranged k' := by
  have hrel := h.field? name
  rw [hk] at hrel
  cases hj : j.field? name with
  | none => rw [hj] at hrel; cases hrel
  | some j' =>
      rw [hj] at hrel
      cases hrel with
      | some hrel => exact ⟨j', rfl, hrel⟩

theorem string? (h : j.Rearranged k) : j.string? = k.string? := by
  rw [← string?_canonical, h.canonical, string?_canonical]

theorem boolean? (h : j.Rearranged k) : j.boolean? = k.boolean? := by
  rw [← boolean?_canonical, h.canonical, boolean?_canonical]

theorem number_eq {x : Float} (h : j.Rearranged (.number x)) : j = .number x := by
  have hcanonical := h.canonical
  cases j <;> cases hcanonical
  rfl

theorem text? (h : j.Rearranged k) {text : String} (hk : k.text? name = some text) :
    j.text? name = some text := by
  obtain ⟨k', hk', htext⟩ := Option.bind_eq_some_iff.mp hk
  obtain ⟨j', hj', h'⟩ := h.exists_field? hk'
  rw [Json.text?, hj', Option.bind_some, h'.string?, htext]

theorem array {ks : List Json} (h : j.Rearranged (.array ks)) :
    ∃ js, j = .array js ∧ List.Forall₂ Rearranged js ks := by
  have hcanonical := h.canonical
  rw [canonical_array] at hcanonical
  cases j with
  | array js =>
      rw [canonical_array, array.injEq] at hcanonical
      have hlength : js.length = ks.length := by simpa using congrArg List.length hcanonical
      refine ⟨js, rfl, List.forall₂_iff_get.mpr ⟨hlength, fun i hi hi' => ⟨?_, ?_, ?_⟩⟩⟩
      · exact distinct_array_iff.mp h.left _ (List.get_mem js ⟨i, hi⟩)
      · exact distinct_array_iff.mp h.right _ (List.get_mem ks ⟨i, hi'⟩)
      · have hget := congrArg (·[i]?) hcanonical
        simpa [hi, hi'] using hget
  | object fields => cases hcanonical
  | _ => cases hcanonical

theorem object {ks : Fields Json} (h : j.Rearranged (.object ks)) :
    ∃ js : Fields Json, j = .object js := by
  have hcanonical := h.canonical
  cases j with
  | object js => exact ⟨js, rfl⟩
  | array items => cases hcanonical
  | _ => cases hcanonical

end Rearranged

end TraceLoom.Json
