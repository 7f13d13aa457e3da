import TraceLoom.Proofs.Execution.World

/-!
Operations of the store keep a correspondence: those that both sides do, and those that only the
instrumented program does for its own use.
-/

namespace TraceLoom

open Script

variable {P : Expectation} {W W' : World} {s s' t t' : Store}

/-! ## Counterparts -/

namespace Counterparts

variable {places : List Nat} {size size' a b : Nat}

theorem grow (h : Counterparts places size size') {more : Nat} (hle : size' ≤ more) :
    Counterparts places size more :=
  ⟨h.length, h.nodup, fun place hplace => Nat.lt_of_lt_of_le (h.lt place hplace) hle⟩

theorem push (h : Counterparts places size size') :
    Counterparts (places ++ [size']) (size + 1) (size' + 1) := by
  refine ⟨by simp [h.length], ?_, fun place hplace => ?_⟩
  · rw [← List.concat_eq_append, List.nodup_concat]
    exact ⟨fun hmem => Nat.lt_irrefl _ (h.lt _ hmem), h.nodup⟩
  · rcases List.mem_append.mp hplace with hold | hnew
    · exact Nat.lt_succ_of_lt (h.lt place hold)
    · exact (List.mem_singleton.mp hnew) ▸ Nat.lt_succ_self _

theorem lt_left (h : Counterparts places size size') (hab : places[a]? = some b) : a < size :=
  h.length ▸ (List.getElem?_eq_some_iff.mp hab).1

theorem lt_right (h : Counterparts places size size') (hab : places[a]? = some b) : b < size' :=
  h.lt b (List.mem_of_getElem? hab)

theorem eq_iff (h : Counterparts places size size') {a' b' : Nat} (hab : places[a]? = some b)
    (hab' : places[a']? = some b') : a = a' ↔ b = b' := by
  have hlt := (List.getElem?_eq_some_iff.mp hab).1
  rw [← List.getElem?_inj hlt h.nodup, hab, hab', Option.some.injEq]

theorem getElem?_push (h : Counterparts places size size') :
    (places ++ [size'])[size]? = some size' := by
  rw [← h.length, List.getElem?_concat_length]

theorem cases_of_push (h : Counterparts places size size')
    (hab : (places ++ [size'])[a]? = some b) :
    places[a]? = some b ∨ a = size ∧ b = size' := by
  rw [List.getElem?_append, h.length] at hab
  split at hab
  · exact .inl hab
  · rename_i hlt
    obtain ⟨hzero, rfl⟩ : a - size = 0 ∧ size' = b := by
      simpa [List.getElem?_singleton] using hab
    exact .inr ⟨by omega, rfl⟩

end Counterparts

theorem rel_imp {α β : Type} {r r' : α → β → Prop} (h : ∀ x y, r x y → r' x y) {x : Option α}
    {y : Option β} (hxy : Option.Rel r x y) : Option.Rel r' x y := by
  cases hxy with
  | some hr => exact .some (h _ _ hr)
  | none => exact .none

/-! ## More places -/

namespace World

def addArray (W : World) (place : Nat) : World :=
  { W with arrays := W.arrays ++ [place] }

def addObject (W : World) (place : Nat) : World :=
  { W with objects := W.objects ++ [place] }

def addScope (W : World) (scope : ScopeId) : World :=
  { W with scopes := W.scopes ++ [scope] }

def addIdentity (W : World) (identity : Nat) : World :=
  { W with identities := W.identities ++ [identity] }

def addBlock (W : World) (scope : ScopeId) : World :=
  { W with blocks := scope :: W.blocks }

def addBound (W : World) (entries : List (ScopeId × String)) : World :=
  { W with bound := entries ++ W.bound }

theorem le_addArray (W : World) (place : Nat) : W ≤ W.addArray place :=
  { le_refl W with arrays := List.prefix_append _ _ }

theorem le_addObject (W : World) (place : Nat) : W ≤ W.addObject place :=
  { le_refl W with objects := List.prefix_append _ _ }

theorem le_addScope (W : World) (scope : ScopeId) : W ≤ W.addScope scope :=
  { le_refl W with scopes := List.prefix_append _ _ }

theorem le_addIdentity (W : World) (identity : Nat) : W ≤ W.addIdentity identity :=
  { le_refl W with identities := List.prefix_append _ _ }

theorem le_addBlock (W : World) (scope : ScopeId) : W ≤ W.addBlock scope :=
  { le_refl W with blocks := List.subset_cons_self _ _ }

theorem le_addBound (W : World) (entries : List (ScopeId × String)) : W ≤ W.addBound entries :=
  { le_refl W with bound := List.subset_append_right _ _ }

end World

/-! ## What the instrumentation relies on -/

theorem IsBuilderModule.keep {v : Value} (h : IsBuilderModule W t v)
    (hsize : t.objects.size ≤ t'.objects.size)
    (hproperties : ∀ place ∉ W.objects, place < t.objects.size →
      t'.properties place = t.properties place)
    (hfresh : ∀ place < t.objects.size, place ∈ W'.objects → place ∈ W.objects) :
    IsBuilderModule W' t' v := by
  obtain ⟨place, identity, rfl, hout, hlt, hfields⟩ := h
  exact ⟨place, identity, rfl, fun hmem => hout (hfresh place hlt hmem), Nat.lt_of_lt_of_le hlt hsize,
    (hproperties place hout hlt).trans hfields⟩

theorem IsCallbacksModule.keep {v : Value} (h : IsCallbacksModule W t v)
    (hsize : t.objects.size ≤ t'.objects.size)
    (hproperties : ∀ place ∉ W.objects, place < t.objects.size →
      t'.properties place = t.properties place)
    (hfresh : ∀ place < t.objects.size, place ∈ W'.objects → place ∈ W.objects) :
    IsCallbacksModule W' t' v := by
  obtain ⟨place, operations, rfl, hout, hlt, htrace, hout', hlt', hfields⟩ := h
  exact ⟨place, operations, rfl, fun hmem => hout (hfresh place hlt hmem), Nat.lt_of_lt_of_le hlt hsize,
    (congrArg _ (hproperties place hout hlt)).trans htrace,
    fun hmem => hout' (hfresh operations hlt' hmem), Nat.lt_of_lt_of_le hlt' hsize,
    (hproperties operations hout' hlt').trans hfields⟩

/-- What is relied on stays when no variable is written and only the program's objects change. -/
theorem Furnished.keep (h : Furnished W t) (hbindings : ∀ scope, t'.bindings scope = t.bindings scope)
    (hsize : t.objects.size ≤ t'.objects.size) (hscopes : t.scopes.size ≤ t'.scopes.size)
    (hproperties : ∀ place ∉ W.objects, place < t.objects.size →
      t'.properties place = t.properties place)
    (hfresh : ∀ place < t.objects.size, place ∈ W'.objects → place ∈ W.objects)
    (hbound : W'.bound ⊆ W.bound)
    (hblocks : ∀ scope ∈ W'.blocks,
      scope ∈ W.blocks ∨ scope < t.scopes.size ∧ t.bindings scope = []) :
    Furnished W' t' where
  builder hx := (h.builder (hbindings _ ▸ hx)).keep hsize hproperties hfresh
  callbacks hx := (h.callbacks (hbindings _ ▸ hx)).keep hsize hproperties hfresh
  closure hmem _ hx := h.closure (hbound hmem) (hbindings _ ▸ hx)
  bound hmem := hbindings _ ▸ h.bound (hbound hmem)
  blocks hmem := by
    rw [hbindings]
    rcases hblocks _ hmem with hold | ⟨hlt, hnil⟩
    · exact (h.blocks hold).imp_left fun hlt => Nat.lt_of_lt_of_le hlt hscopes
    · exact ⟨Nat.lt_of_lt_of_le hlt hscopes, by simp [hnil, Fields.keys]⟩

/-- What a variable of the instrumentation may be set to. -/
structure Furnishing (W : World) (t : Store) (scope : ScopeId) (n : String) (v : Value) : Prop where
  builder : n = standard.options.expBinding → IsBuilderModule W t v
  callbacks : n = standard.options.callbacksBinding → IsCallbacksModule W t v
  closure : n = closureParam → scope ∉ W.blocks ∧ ((scope, closureParam) ∈ W.bound →
    ∃ identity u, v = .trace identity u ∧ Trace.Plain u)

theorem bindings_write (t : Store) (scope other : ScopeId) (n : String) (y : Variable) :
    (t.write scope n y).bindings other =
      if other = scope ∧ scope < t.scopes.size then (t.bindings other).insert n y
      else t.bindings other := by
  by_cases hother : other = scope
  · subst hother
    by_cases hlt : other < t.scopes.size
    · rw [if_pos ⟨rfl, hlt⟩, Store.bindings_write_self hlt]
    · simp [Store.write, Store.bindings, hlt]
  · rw [if_neg (by simp [hother]), Store.bindings_write_of_ne hother]

theorem get?_bindings_write (t : Store) (scope other : ScopeId) (n m : String) (y : Variable) :
    ((t.write scope n y).bindings other).get? m =
      if other = scope ∧ scope < t.scopes.size ∧ m = n then some y
      else (t.bindings other).get? m := by
  rw [bindings_write]
  by_cases hother : other = scope ∧ scope < t.scopes.size
  · by_cases hm : m = n
    · subst hm
      simp [hother]
    · simp [hother, hm, Fields.get?_insert_of_ne hm]
  · simp [hother, ← and_assoc]

theorem Furnished.write (h : Furnished W t) {scope : ScopeId} {n : String} {y : Variable}
    (hy : Furnishing W t scope n y.value) : Furnished W (t.write scope n y) := by
  have hget {other : ScopeId} {m : String} {x : Variable}
      (hx : ((t.write scope n y).bindings other).get? m = some x) :
      (other = scope ∧ m = n ∧ x = y) ∨ (t.bindings other).get? m = some x := by
    rw [get?_bindings_write] at hx
    split at hx
    · rename_i hcond
      exact .inl ⟨hcond.1, hcond.2.2, (Option.some.inj hx).symm⟩
    · exact .inr hx
  have hkeys {other : ScopeId} {m : String} :
      m ∈ Fields.keys ((t.write scope n y).bindings other) ↔
        m ∈ Fields.keys (t.bindings other) ∨ other = scope ∧ scope < t.scopes.size ∧ m = n := by
    rw [← Fields.exists_get?_iff_mem_keys, ← Fields.exists_get?_iff_mem_keys, get?_bindings_write]
    split <;> simp_all
  have hsize : (t.write scope n y).scopes.size = t.scopes.size := by
    simp [Store.write]
  refine ⟨fun hx => ?_, fun hx => ?_, fun hmem x hx => ?_, fun hmem => ?_,
    fun hmem => ⟨hsize ▸ (h.blocks hmem).1, fun hkey => ?_⟩⟩
  · rcases hget hx with ⟨-, rfl, rfl⟩ | hold
    · exact (hy.builder rfl).keep (Nat.le_refl _) (fun _ _ _ => rfl) fun _ _ => id
    · exact (h.builder hold).keep (Nat.le_refl _) (fun _ _ _ => rfl) fun _ _ => id
  · rcases hget hx with ⟨-, rfl, rfl⟩ | hold
    · exact (hy.callbacks rfl).keep (Nat.le_refl _) (fun _ _ _ => rfl) fun _ _ => id
    · exact (h.callbacks hold).keep (Nat.le_refl _) (fun _ _ _ => rfl) fun _ _ => id
  · rcases hget hx with ⟨rfl, rfl, rfl⟩ | hold
    · exact (hy.closure rfl).2 hmem
    · exact h.closure hmem hold
  · exact hkeys.mpr (.inl (h.bound hmem))
  · rcases hkeys.mp hkey with hold | ⟨rfl, -, rfl⟩
    · exact (h.blocks hmem).2 hold
    · exact (hy.closure rfl).1 hmem

theorem not_hidden_ne {n m : String} (hn : ¬ Hidden n) (hm : Hidden m) : n ≠ m :=
  fun heq => hn (heq ▸ hm)

theorem hidden_expBinding : Hidden standard.options.expBinding :=
  .inl (by decide)

theorem hidden_callbacksBinding : Hidden standard.options.callbacksBinding :=
  .inl (by decide)

theorem hidden_closureParam : Hidden closureParam :=
  .inr (.inl rfl)

theorem Generated.head?_eq {n : String} (h : Generated n) : n.toList.head? = some '$' := by
  rcases h with rfl | ⟨i, rfl⟩ | ⟨i, rfl⟩
  · rfl
  · rw [String.toList_append]
    rfl
  · rw [String.toList_append]
    rfl

theorem Generated.ne {n m : String} (h : Generated n) (hm : m.toList.head? ≠ some '$') : n ≠ m :=
  fun heq => hm (heq ▸ h.head?_eq)

/-- Of the names that the instrumentation generates only that of the closure record matters. -/
theorem Furnishing.of_generated {scope : ScopeId} {n : String} {v : Value} (hn : Generated n)
    (hclosure : n = closureParam → scope ∉ W.blocks ∧ ((scope, closureParam) ∈ W.bound →
      ∃ identity u, v = .trace identity u ∧ Trace.Plain u)) : Furnishing W t scope n v :=
  ⟨fun heq => absurd heq (hn.ne (by decide)), fun heq => absurd heq (hn.ne (by decide)), hclosure⟩

theorem Furnishing.of_not_hidden {scope : ScopeId} {n : String} (hn : ¬ Hidden n) (v : Value) :
    Furnishing W t scope n v :=
  ⟨fun heq => absurd heq (not_hidden_ne hn hidden_expBinding),
    fun heq => absurd heq (not_hidden_ne hn hidden_callbacksBinding),
    fun heq => absurd heq (not_hidden_ne hn hidden_closureParam)⟩

/-! ## Making things -/

/-- Places and identities that only the second store has do not matter. -/
structure Store.Grows (t t' : Store) : Prop where
  arrays : t.arrays.size ≤ t'.arrays.size
  objects : t.objects.size ≤ t'.objects.size
  scopes : t.scopes.size ≤ t'.scopes.size
  identities : t.identities ≤ t'.identities
  items : ∀ place < t.arrays.size, t'.items place = t.items place
  properties : ∀ place < t.objects.size, t'.properties place = t.properties place
  bindings : ∀ scope, t'.bindings scope = t.bindings scope

namespace Store.Grows

@[refl] theorem refl (t : Store) : t.Grows t :=
  ⟨Nat.le_refl _, Nat.le_refl _, Nat.le_refl _, Nat.le_refl _, fun _ _ => rfl, fun _ _ => rfl,
    fun _ => rfl⟩

theorem trans {u : Store} (h : t.Grows t') (h' : t'.Grows u) : t.Grows u where
  arrays := Nat.le_trans h.arrays h'.arrays
  objects := Nat.le_trans h.objects h'.objects
  scopes := Nat.le_trans h.scopes h'.scopes
  identities := Nat.le_trans h.identities h'.identities
  items place hlt := (h'.items place (Nat.lt_of_lt_of_le hlt h.arrays)).trans (h.items place hlt)
  properties place hlt :=
    (h'.properties place (Nat.lt_of_lt_of_le hlt h.objects)).trans (h.properties place hlt)
  bindings scope := (h'.bindings scope).trans (h.bindings scope)

theorem newArray (items : Array Value) (t : Store) : t.Grows (t.newArray items).2 where
  arrays := by simp [Store.newArray]
  objects := Nat.le_refl _
  scopes := Nat.le_refl _
  identities := Nat.le_refl _
  items place hlt := by simp [Store.newArray, Store.items, Array.getElem?_push, Nat.ne_of_lt hlt]
  properties _ _ := rfl
  bindings _ := rfl

theorem newObject (fields : Fields Value) (t : Store) : t.Grows (t.newObject fields).2 where
  arrays := Nat.le_refl _
  objects := by simp [Store.newObject]
  scopes := Nat.le_refl _
  identities := Nat.le_refl _
  items _ _ := rfl
  properties place hlt := by
    simp [Store.newObject, Store.properties, Array.getElem?_push, Nat.ne_of_lt hlt]
  bindings _ := rfl

theorem newTrace (u : Trace) (t : Store) : t.Grows (t.newTrace u).2 where
  arrays := Nat.le_refl _
  objects := Nat.le_refl _
  scopes := Nat.le_refl _
  identities := Nat.le_succ _
  items _ _ := rfl
  properties _ _ := rfl
  bindings _ := rfl

theorem newFunction (c : Closure) (t : Store) : t.Grows (t.newFunction c).2 where
  arrays := Nat.le_refl _
  objects := Nat.le_refl _
  scopes := Nat.le_refl _
  identities := Nat.le_succ _
  items _ _ := rfl
  properties _ _ := rfl
  bindings _ := rfl

theorem child (env : Environment) (t : Store) : t.Grows (t.child env).2 where
  arrays := Nat.le_refl _
  objects := Nat.le_refl _
  scopes := by simp [Store.child]
  identities := Nat.le_refl _
  items _ _ := rfl
  properties _ _ := rfl
  bindings scope := by
    by_cases h : scope = t.scopes.size <;>
      simp [Store.child, Store.bindings, Array.getElem?_push, h]

end Store.Grows

namespace StoreRel

/-- Growing on both sides keeps the correspondence if what is new corresponds. -/
theorem grow (h : StoreRel P W s t) (hle : W ≤ W') (hs : s.Grows s') (ht : t.Grows t')
    (harrays : Counterparts W'.arrays s'.arrays.size t'.arrays.size)
    (hobjects : Counterparts W'.objects s'.objects.size t'.objects.size)
    (hscopes : Counterparts W'.scopes s'.scopes.size t'.scopes.size)
    (hidentities : Counterparts W'.identities s'.identities t'.identities)
    (hitems : ∀ {a b}, W'.arrays[a]? = some b → W.arrays[a]? = some b ∨
      List.Forall₂ (ValueRel P W') (s'.items a).toList (t'.items b).toList)
    (hproperties : ∀ {a b}, W'.objects[a]? = some b → W.objects[a]? = some b ∨
      b ≥ t.objects.size ∧ FieldsRel P W' (s'.properties a) (t'.properties b))
    (hbindings : ∀ {a b}, W'.scopes[a]? = some b → W.scopes[a]? = some b ∨
      s.bindings a = [] ∧ t.bindings b = [])
    (hbound : W'.bound = W.bound)
    (hblocks : ∀ scope ∈ W'.blocks,
      scope ∈ W.blocks ∨ scope < t.scopes.size ∧ t.bindings scope = []) :
    StoreRel P W' s' t' where
  arrays := harrays
  objects := hobjects
  scopes := hscopes
  identities := hidentities
  items {a b} hab := by
    rcases hitems hab with hold | hnew
    · rw [hs.items a (h.arrays.lt_left hold), ht.items b (h.arrays.lt_right hold)]
      exact (h.items hold).imp fun _ _ hv => hv.mono hle
    · exact hnew
  properties {a b} hab := by
    rcases hproperties hab with hold | ⟨-, hnew⟩
    · rw [hs.properties a (h.objects.lt_left hold), ht.properties b (h.objects.lt_right hold)]
      exact (h.properties hold).mono hle
    · exact hnew
  bindings {a b} hab n hn := by
    rw [hs.bindings, ht.bindings]
    rcases hbindings hab with hold | ⟨hnil, hnil'⟩
    · exact rel_imp (fun _ _ hx => hx.mono hle) (h.bindings hold hn)
    · rw [hnil, hnil']
      exact .none
  furnished := by
    refine h.furnished.keep ht.bindings ht.objects ht.scopes
      (fun place _ hlt => ht.properties place hlt)
      (fun place hlt hmem => ?_) (hbound ▸ List.Subset.refl _) hblocks
    obtain ⟨a, hab⟩ := List.mem_iff_getElem?.mp hmem
    rcases hproperties hab with hold | ⟨hge, -⟩
    · exact List.mem_of_getElem? hold
    · exact absurd hlt (Nat.not_lt.mpr hge)

theorem grow_right (h : StoreRel P W s t) (ht : t.Grows t') : StoreRel P W s t' :=
  h.grow (World.le_refl W) (.refl s) ht (h.arrays.grow ht.arrays) (h.objects.grow ht.objects)
    (h.scopes.grow ht.scopes) (h.identities.grow ht.identities) .inl .inl .inl rfl
    fun _ => .inl

theorem newArray (h : StoreRel P W s t) (xs ys : Array Value)
    (hxs : List.Forall₂ (ValueRel P W) xs.toList ys.toList) :
    StoreRel P (W.addArray t.arrays.size) (s.newArray xs).2 (t.newArray ys).2 ∧
      ValueRel P (W.addArray t.arrays.size) (s.newArray xs).1 (t.newArray ys).1 := by
  have hle := W.le_addArray t.arrays.size
  have hcounterparts : Counterparts (W.addArray t.arrays.size).arrays
      (s.newArray xs).2.arrays.size (t.newArray ys).2.arrays.size := by
    simpa [Store.newArray, World.addArray] using h.arrays.push
  refine ⟨h.grow hle (.newArray xs s) (.newArray ys t) hcounterparts h.objects h.scopes
    h.identities (fun hab => ?_) .inl .inl rfl fun _ => .inl, .array h.arrays.getElem?_push⟩
  rcases h.arrays.cases_of_push hab with hold | ⟨rfl, rfl⟩
  · exact .inl hold
  · rw [Store.items_newArray, Store.items_newArray]
    exact .inr (hxs.imp fun _ _ hv => hv.mono hle)

theorem newObject (h : StoreRel P W s t) {fs gs : Fields Value} (hfs : FieldsRel P W fs gs) :
    StoreRel P (W.addObject t.objects.size) (s.newObject fs).2 (t.newObject gs).2 ∧
      ValueRel P (W.addObject t.objects.size) (s.newObject fs).1 (t.newObject gs).1 := by
  have hle := W.le_addObject t.objects.size
  have hcounterparts : Counterparts (W.addObject t.objects.size).objects
      (s.newObject fs).2.objects.size (t.newObject gs).2.objects.size := by
    simpa [Store.newObject, World.addObject] using h.objects.push
  refine ⟨h.grow hle (.newObject fs s) (.newObject gs t) h.arrays hcounterparts h.scopes
    h.identities .inl (fun hab => ?_) .inl rfl fun _ => .inl, .object h.objects.getElem?_push⟩
  rcases h.objects.cases_of_push hab with hold | ⟨rfl, rfl⟩
  · exact .inl hold
  · rw [Store.properties_newObject, Store.properties_newObject]
    exact .inr ⟨Nat.le_refl _, hfs.mono hle⟩

theorem newFunction (h : StoreRel P W s t) {c c' : Closure} (hc : ClosureRel P W c c') :
    StoreRel P (W.addIdentity t.identities) (s.newFunction c).2 (t.newFunction c').2 ∧
      ValueRel P (W.addIdentity t.identities) (s.newFunction c).1 (t.newFunction c').1 :=
  ⟨h.grow (W.le_addIdentity _) (.newFunction c s) (.newFunction c' t) h.arrays h.objects h.scopes
      h.identities.push .inl .inl .inl rfl fun _ => .inl,
    .function h.identities.getElem?_push (hc.mono (W.le_addIdentity _))⟩

theorem newTrace (h : StoreRel P W s t) (u : Trace) :
    StoreRel P (W.addIdentity t.identities) (s.newTrace u).2 (t.newTrace u).2 ∧
      ValueRel P (W.addIdentity t.identities) (s.newTrace u).1 (t.newTrace u).1 :=
  ⟨h.grow (W.le_addIdentity _) (.newTrace u s) (.newTrace u t) h.arrays h.objects h.scopes
      h.identities.push .inl .inl .inl rfl fun _ => .inl,
    .trace h.identities.getElem?_push u⟩

theorem bindings_of_le {s : Store} {scope : ScopeId} (h : s.scopes.size ≤ scope) :
    s.bindings scope = [] := by
  simp [Store.bindings, Array.getElem?_eq_none h]

theorem child (h : StoreRel P W s t) (env env' : Environment) :
    StoreRel P (W.addScope t.scopes.size) (s.child env).2 (t.child env').2 := by
  have hcounterparts : Counterparts (W.addScope t.scopes.size).scopes
      (s.child env).2.scopes.size (t.child env').2.scopes.size := by
    simpa [Store.child, World.addScope] using h.scopes.push
  refine h.grow (W.le_addScope _) (.child env s) (.child env' t) h.arrays h.objects hcounterparts
    h.identities .inl .inl (fun hab => ?_) rfl fun _ => .inl
  rcases h.scopes.cases_of_push hab with hold | ⟨rfl, rfl⟩
  · exact .inl hold
  · exact .inr ⟨bindings_of_le (Nat.le_refl _), bindings_of_le (Nat.le_refl _)⟩

theorem env_child (h : StoreRel P W s t) {env env' : Environment} (henv : EnvRel W env env') :
    EnvRel (W.addScope t.scopes.size) (s.child env).1 (t.child env').1 := by
  have hold := henv.mono (W.le_addScope t.scopes.size)
  exact ⟨.cons h.scopes.getElem?_push hold.scopes, List.mem_cons_of_mem _ hold.home⟩

/-- A scope without variables may be known as that of a block. -/
theorem addBlock (h : StoreRel P W s t) {scope : ScopeId} (hlt : scope < t.scopes.size)
    (hscope : t.bindings scope = []) : StoreRel P (W.addBlock scope) s t := by
  refine h.grow (W.le_addBlock scope) (.refl s) (.refl t) h.arrays h.objects h.scopes h.identities
    .inl .inl .inl rfl fun other hother => ?_
  rcases List.mem_cons.mp hother with rfl | hold
  · exact .inr ⟨hlt, hscope⟩
  · exact .inl hold

/-- Variables of the instrumentation that are bound may be known as such. -/
theorem addBound (h : StoreRel P W s t) {entries : List (ScopeId × String)}
    (hentries : ∀ entry ∈ entries, entry.2 ∈ Fields.keys (t.bindings entry.1) ∧
      (entry.2 = closureParam → ∀ x, (t.bindings entry.1).get? closureParam = some x →
        ∃ identity u, x.value = .trace identity u ∧ Trace.Plain u)) :
    StoreRel P (W.addBound entries) s t := by
  have hle := W.le_addBound entries
  refine ⟨h.arrays, h.objects, h.scopes, h.identities,
    fun hab => (h.items hab).imp fun _ _ hv => hv.mono hle,
    fun hab => (h.properties hab).mono hle, fun hab n hn => ?_, ?_⟩
  · exact rel_imp (fun _ _ hx => hx.mono hle) (h.bindings hab hn)
  · refine ⟨h.furnished.builder, h.furnished.callbacks, fun hmem x hx => ?_, fun hmem => ?_,
      h.furnished.blocks⟩
    · rcases List.mem_append.mp hmem with hnew | hold
      · exact (hentries _ hnew).2 rfl x hx
      · exact h.furnished.closure hold hx
    · rcases List.mem_append.mp hmem with hnew | hold
      · exact (hentries _ hnew).1
      · exact h.furnished.bound hold

/-! ## Changing things -/

/-- A variable is set on both sides. -/
theorem write (h : StoreRel P W s t) {a b : ScopeId} (hab : W.scopes[a]? = some b) {n : String}
    (hn : ¬ Hidden n) {x y : Variable} (hx : VariableRel P W x y) :
    StoreRel P W (s.write a n x) (t.write b n y) := by
  refine ⟨h.arrays, h.objects, ?_, h.identities, h.items, h.properties,
    fun {c d} hcd m hm => ?_, h.furnished.write (.of_not_hidden hn _)⟩
  · simpa [Store.write] using h.scopes
  · have ha := h.scopes.lt_left hab
    have hb := h.scopes.lt_right hab
    have hcond : (c = a ∧ a < s.scopes.size ∧ m = n) ↔ d = b ∧ b < t.scopes.size ∧ m = n := by
      rw [h.scopes.eq_iff hcd hab]
      simp only [ha, hb]
    rw [get?_bindings_write, get?_bindings_write, if_congr hcond rfl rfl]
    split
    · exact .some hx
    · exact h.bindings hcd hm

/-- The instrumentation sets a variable of its own. -/
theorem write_right (h : StoreRel P W s t) {scope : ScopeId} {n : String} (hn : Hidden n)
    {y : Variable} (hy : Furnishing W t scope n y.value) : StoreRel P W s (t.write scope n y) := by
  refine ⟨h.arrays, h.objects, ?_, h.identities, h.items, h.properties,
    fun {c d} hcd m hm => ?_, h.furnished.write hy⟩
  · simpa [Store.write] using h.scopes
  · rw [get?_bindings_write, if_neg fun hcond => not_hidden_ne hm hn hcond.2.2]
    exact h.bindings hcd hm

/-- The program sets a variable that it has no use for. -/
theorem write_left (h : StoreRel P W s t) {scope : ScopeId} {n : String} (hn : Hidden n)
    (x : Variable) : StoreRel P W (s.write scope n x) t := by
  refine ⟨h.arrays, h.objects, ?_, h.identities, h.items, h.properties,
    fun {c d} hcd m hm => ?_, h.furnished⟩
  · simpa [Store.write] using h.scopes
  · rw [get?_bindings_write, if_neg fun hcond => not_hidden_ne hm hn hcond.2.2]
    exact h.bindings hcd hm

theorem modifyItems (h : StoreRel P W s t) {a b : Nat} (hab : W.arrays[a]? = some b)
    {f g : Array Value → Array Value}
    (hfg : List.Forall₂ (ValueRel P W) (f (s.items a)).toList (g (t.items b)).toList) :
    StoreRel P W (s.modifyItems a f) (t.modifyItems b g) := by
  refine ⟨by simpa [Store.modifyItems] using h.arrays, h.objects, h.scopes, h.identities,
    fun {c d} hcd => ?_, h.properties, h.bindings, ?_⟩
  · by_cases hd : d = b
    · obtain rfl := (h.arrays.eq_iff hcd hab).mpr hd
      subst hd
      rwa [Store.items_modifyItems_self f s (h.arrays.lt_left hab),
        Store.items_modifyItems_self g t (h.arrays.lt_right hab)]
    · have hc : c ≠ a := fun heq => hd ((h.arrays.eq_iff hcd hab).mp heq)
      rw [Store.items_modifyItems_of_ne f s hc, Store.items_modifyItems_of_ne g t hd]
      exact h.items hcd
  · exact h.furnished.keep (fun _ => rfl) (Nat.le_refl _) (Nat.le_refl _) (fun _ _ _ => rfl)
      (fun _ _ => id) (List.Subset.refl _) fun _ => .inl

theorem modifyProperties (h : StoreRel P W s t) {a b : Nat} (hab : W.objects[a]? = some b)
    {f g : Fields Value → Fields Value}
    (hfg : FieldsRel P W (f (s.properties a)) (g (t.properties b))) :
    StoreRel P W (s.modifyProperties a f) (t.modifyProperties b g) := by
  refine ⟨h.arrays, by simpa [Store.modifyProperties] using h.objects, h.scopes, h.identities,
    h.items, fun {c d} hcd => ?_, h.bindings, ?_⟩
  · by_cases hd : d = b
    · obtain rfl := (h.objects.eq_iff hcd hab).mpr hd
      subst hd
      rwa [Store.properties_modifyProperties_self f s (h.objects.lt_left hab),
        Store.properties_modifyProperties_self g t (h.objects.lt_right hab)]
    · have hc : c ≠ a := fun heq => hd ((h.objects.eq_iff hcd hab).mp heq)
      rw [Store.properties_modifyProperties_of_ne f s hc,
        Store.properties_modifyProperties_of_ne g t hd]
      exact h.properties hcd
  · refine h.furnished.keep (fun _ => rfl) ?_ (Nat.le_refl _) (fun place hout _ => ?_) (fun _ _ => id)
      (List.Subset.refl _) fun _ => .inl
    · simp [Store.modifyProperties]
    · exact Store.properties_modifyProperties_of_ne g t fun heq =>
        hout (heq ▸ List.mem_of_getElem? hab)

end StoreRel

end TraceLoom
