import TraceLoom.Proofs.Fields
import TraceLoom.Value.Property
import TraceLoom.Value.Text

/-!
What holds of the values in a store.  No operation on values makes a function or a native: what
comes out of a store was put into it, or cannot be called.  So a property that all other values
have is kept by whatever a program does with its values.
-/

namespace TraceLoom

open Script

/-- A property that every value has that cannot be called. -/
def Value.SparesData (K : Value → Prop) : Prop :=
  ∀ v : Value, v.isCallable = false → K v

/-- The values in the arrays, objects and variables of a store have a property. -/
structure Store.Holds (K : Value → Prop) (s : Store) : Prop where
  arrays : ∀ items ∈ s.arrays, ∀ v ∈ items, K v
  objects : ∀ fields ∈ s.objects, ∀ field ∈ fields, K field.2
  scopes : ∀ fields ∈ s.scopes, ∀ field ∈ fields, K field.2.value

variable {K : Value → Prop} {s : Store} {v w : Value}

theorem Value.SparesData.getD (hK : Value.SparesData K) {x : Option Value}
    (h : ∀ v, x = some v → K v) : K (x.getD .undefined) := by
  cases x with
  | none => exact hK _ rfl
  | some v => exact h v rfl

theorem Value.isCallable_unary (op : UnaryOp) (v : Value) : (v.unary op).isCallable = false := by
  cases op <;> rfl

namespace Store

theorem forall_mem_modify {α : Type} {p : α → Prop} {xs : Array α} {f : α → α} (i : Nat)
    (h : ∀ x ∈ xs, p x) (hf : ∀ x, p x → p (f x)) : ∀ x ∈ xs.modify i f, p x := by
  intro x hx
  obtain ⟨j, hj, rfl⟩ := Array.mem_iff_getElem.mp hx
  rw [Array.size_modify] at hj
  rw [Array.getElem_modify]
  split
  · exact hf _ (h _ (Array.getElem_mem _))
  · exact h _ (Array.getElem_mem _)

theorem isCallable_ofJson (j : Json) (s : Store) : (Store.ofJson j s).1.isCallable = false := by
  cases j <;> rfl

namespace Holds

/-! ## What is there -/

theorem items (h : s.Holds K) (place : Nat) : ∀ v ∈ s.items place, K v := by
  unfold Store.items
  cases hplace : s.arrays[place]? with
  | none => simp
  | some items => exact h.arrays items (Array.mem_of_getElem? hplace)

theorem properties (h : s.Holds K) (place : Nat) : ∀ field ∈ s.properties place, K field.2 := by
  unfold Store.properties
  cases hplace : s.objects[place]? with
  | none => simp
  | some fields => exact h.objects fields (Array.mem_of_getElem? hplace)

theorem bindings (h : s.Holds K) (scope : ScopeId) :
    ∀ field ∈ s.bindings scope, K field.2.value := by
  unfold Store.bindings
  cases hplace : s.scopes[scope]? with
  | none => simp
  | some fields => exact h.scopes fields (Array.mem_of_getElem? hplace)

theorem item (h : s.Holds K) (hK : Value.SparesData K) (place i : Nat) :
    K ((s.items place)[i]?.getD Value.undefined) :=
  hK.getD fun v hv => h.items place v (Array.mem_of_getElem? hv)

theorem lookup? (h : s.Holds K) {env : Environment} {name : String}
    (hlookup : s.lookup? env name = some v) : K v := by
  obtain ⟨⟨scope, x⟩, hfind, rfl⟩ := Option.map_eq_some_iff.mp hlookup
  clear hlookup
  generalize env.own :: env.outer = scopes at hfind
  induction scopes with
  | nil => cases hfind
  | cons inner outer ih =>
      unfold find? at hfind
      cases hx : (s.bindings inner).get? name with
      | none =>
          rw [hx] at hfind
          exact ih hfind
      | some found =>
          rw [hx] at hfind
          cases hfind
          exact h.bindings _ _ (Fields.mem_of_get? hx)

theorem property (h : s.Holds K) (hK : Value.SparesData K) {name : String}
    (hproperty : s.property v name = .ok w) : K w := by
  unfold Store.property at hproperty
  split at hproperty
  · cases hproperty
    split <;> exact hK _ rfl
  · cases hproperty
    split <;> exact hK _ rfl
  · rename_i place
    cases hproperty
    exact hK.getD fun u hu => h.properties place _ (Fields.mem_of_get? hu)
  · cases hproperty
  · cases hproperty
  · cases hproperty
    exact hK _ rfl

theorem element (h : s.Holds K) (hK : Value.SparesData K) {key : Value}
    (helement : s.element v key = .ok w) : K w := by
  unfold Store.element at helement
  split at helement
  · rename_i place x
    cases helement
    refine hK.getD fun u hu => ?_
    obtain ⟨i, -, hi⟩ := Option.bind_eq_some_iff.mp hu
    exact h.items place u (Array.mem_of_getElem? hi)
  · cases helement
    refine hK.getD fun u hu => ?_
    obtain ⟨i, -, hi⟩ := Option.bind_eq_some_iff.mp hu
    obtain ⟨c, -, rfl⟩ := Option.map_eq_some_iff.mp hi
    exact hK _ rfl
  · exact h.property hK helement

theorem destructure (h : s.Holds K) (hK : Value.SparesData K) {names : List String}
    {bound : List (String × Value)} (hbound : s.destructure names v = .ok bound) :
    ∀ entry ∈ bound, K entry.2 := by
  unfold Store.destructure at hbound
  split at hbound
  · rename_i place
    cases hbound
    intro entry hentry
    obtain ⟨name, -, rfl⟩ := List.mem_map.mp hentry
    exact h.item hK place name.2
  · cases hbound

/-! ## What is put there -/

theorem newArray (h : s.Holds K) {items : Array Value} (hitems : ∀ v ∈ items, K v) :
    (s.newArray items).2.Holds K :=
  { h with
    arrays := fun xs hxs => (Array.mem_push.mp hxs).elim (h.arrays xs) fun heq => heq ▸ hitems }

theorem newObject (h : s.Holds K) {fields : Fields Value} (hfields : ∀ field ∈ fields, K field.2) :
    (s.newObject fields).2.Holds K :=
  { h with
    objects := fun fs hfs => (Array.mem_push.mp hfs).elim (h.objects fs) fun heq => heq ▸ hfields }

theorem newFunction (h : s.Holds K) (closure : Closure) : (s.newFunction closure).2.Holds K :=
  ⟨h.arrays, h.objects, h.scopes⟩

theorem newScope (h : s.Holds K) : ({ s with scopes := s.scopes.push [] } : Store).Holds K :=
  { h with
    scopes := fun fs hfs => (Array.mem_push.mp hfs).elim (h.scopes fs) fun heq => by simp [heq] }

theorem child (h : s.Holds K) (env : Environment) : (s.child env).2.Holds K :=
  h.newScope

theorem write (h : s.Holds K) (scope : ScopeId) (name : String) {x : Variable}
    (hx : K x.value) : (s.write scope name x).Holds K :=
  { h with
    scopes := forall_mem_modify scope h.scopes fun _ hfields =>
      Fields.forall_insert (p := fun y : Variable => K y.value) hx hfields }

theorem declare (h : s.Holds K) (env : Environment) (name : String) (hv : K v) (constant : Bool) :
    (s.declare env name v constant).Holds K :=
  h.write env.own name hv

theorem declareAll (h : s.Holds K) (env : Environment) {entries : List (String × Value)}
    (hentries : ∀ entry ∈ entries, K entry.2) (constant : Bool) :
    (entries.foldl (fun s entry => s.declare env entry.1 entry.2 constant) s).Holds K := by
  induction entries generalizing s with
  | nil => exact h
  | cons entry entries ih =>
      obtain ⟨hentry, hentries⟩ := List.forall_mem_cons.mp hentries
      exact ih (h.declare env entry.1 hentry constant) hentries

theorem modifyItems (h : s.Holds K) (place : Nat) {f : Array Value → Array Value}
    (hf : ∀ items, (∀ v ∈ items, K v) → ∀ v ∈ f items, K v) : (s.modifyItems place f).Holds K :=
  { h with arrays := forall_mem_modify place h.arrays hf }

theorem put (h : s.Holds K) (hK : Value.SparesData K) (location : Location) (hv : K v) :
    (s.put location v).Holds K := by
  cases location with
  | «variable» scope name => exact h.write scope name hv
  | item place i =>
      refine h.modifyItems place fun items hitems u hu => ?_
      unfold setItem at hu
      split at hu
      · exact (Array.mem_or_eq_of_mem_setIfInBounds hu).elim (hitems u) fun heq => heq ▸ hv
      · rcases Array.mem_push.mp hu with hu | rfl
        · rcases Array.mem_append.mp hu with hu | hu
          · exact hitems u hu
          · obtain ⟨-, rfl⟩ := Array.mem_replicate.mp hu
            exact hK _ rfl
        · exact hv
  | property place name =>
      exact { h with
        objects := forall_mem_modify place h.objects fun _ hfields =>
          Fields.forall_insert hv hfields }

/-! ## Operators and methods -/

theorem invoke (h : s.Holds K) (hK : Value.SparesData K) (method : Method) {args : List Value}
    (hargs : ∀ v ∈ args, K v) :
    K (s.invoke method args).1 ∧ (s.invoke method args).2.Holds K := by
  cases method with
  | push place =>
      refine ⟨hK _ rfl, h.modifyItems place fun items hitems v hv => ?_⟩
      have hmem : v ∈ items ∨ v ∈ args := by
        simpa only [Array.mem_def, Array.toList_appendList, List.mem_append] using hv
      exact hmem.elim (hitems v) (hargs v)
  | pop place =>
      refine ⟨hK.getD fun v hv => h.items place v (Array.mem_of_back? hv),
        h.modifyItems place fun items hitems v hv => hitems v ?_⟩
      obtain ⟨i, hi, rfl⟩ := Array.mem_iff_getElem.mp hv
      rw [Array.getElem_pop]
      exact Array.getElem_mem _
  | shift place =>
      refine ⟨h.item hK place 0, h.modifyItems place fun items hitems v hv => hitems v ?_⟩
      obtain ⟨i, hi, rfl⟩ := Array.mem_iff_getElem.mp hv
      rw [Array.getElem_extract]
      exact Array.getElem_mem _
  | unshift place =>
      refine ⟨hK _ rfl, h.modifyItems place fun items hitems v hv => ?_⟩
      exact (Array.mem_append.mp hv).elim (fun hv => hargs v (List.mem_toArray.mp hv)) (hitems v)
  | contains place | startsWith t | endsWith t | includes t => exact ⟨hK _ rfl, h⟩

/-! ## What the host makes -/

theorem newTrace (h : s.Holds K) (t : Trace) : (s.newTrace t).2.Holds K :=
  ⟨h.arrays, h.objects, h.scopes⟩

theorem newTraces (h : s.Holds K) (hK : Value.SparesData K) (ts : List Trace) :
    (s.newTraces ts).2.Holds K := by
  suffices hfold : ∀ (values : Array Value) {s : Store}, (∀ v ∈ values, K v) → s.Holds K →
      (∀ v ∈ (ts.foldl (fun (made : Array Value × Store) t =>
        (made.1.push (made.2.newTrace t).1, (made.2.newTrace t).2)) (values, s)).1, K v) ∧
      (ts.foldl (fun (made : Array Value × Store) t =>
        (made.1.push (made.2.newTrace t).1, (made.2.newTrace t).2)) (values, s)).2.Holds K by
    obtain ⟨hvalues, hs⟩ := hfold #[] (by simp) h
    exact hs.newArray hvalues
  induction ts with
  | nil => exact fun _ _ hvalues hs => ⟨hvalues, hs⟩
  | cons t ts ih =>
      refine fun values _ hvalues hs => ih _ (fun v hv => ?_) (hs.newTrace t)
      exact (Array.mem_push.mp hv).elim (hvalues v) fun heq => heq ▸ hK _ rfl

mutual

/-- The value of a JSON form cannot be called, nor can what is in it. -/
theorem ofJson {s : Store} (hK : Value.SparesData K) (j : Json) (h : s.Holds K) :
    (Store.ofJson j s).1.isCallable = false ∧ (Store.ofJson j s).2.Holds K := by
  cases j with
  | null | boolean | integer | number | string => exact ⟨rfl, h⟩
  | array js =>
      obtain ⟨hitems, hs⟩ := ofJsonItems hK js h
      exact ⟨rfl, hs.newArray fun v hv => hK v (hitems v (List.mem_toArray.mp hv))⟩
  | object fs =>
      obtain ⟨hfields, hs⟩ := ofJsonFields hK fs h
      exact ⟨rfl, hs.newObject (Fields.forall_sort fun field hfield => hK _ (hfields field hfield))⟩
termination_by structural j

theorem ofJsonItems {s : Store} (hK : Value.SparesData K) (js : List Json) (h : s.Holds K) :
    (∀ v ∈ (Store.ofJsonItems js s).1, v.isCallable = false) ∧
      (Store.ofJsonItems js s).2.Holds K := by
  cases js with
  | nil => exact ⟨List.forall_mem_nil _, h⟩
  | cons j js =>
      obtain ⟨hv, hs⟩ := ofJson hK j h
      obtain ⟨hvs, hs'⟩ := ofJsonItems hK js hs
      exact ⟨List.forall_mem_cons.mpr ⟨hv, hvs⟩, hs'⟩
termination_by structural js

theorem ofJsonFields {s : Store} (hK : Value.SparesData K) (fs : List (String × Json))
    (h : s.Holds K) :
    (∀ field ∈ (Store.ofJsonFields fs s).1, field.2.isCallable = false) ∧
      (Store.ofJsonFields fs s).2.Holds K := by
  cases fs with
  | nil => exact ⟨List.forall_mem_nil _, h⟩
  | cons field fs =>
      obtain ⟨hv, hs⟩ := ofJson hK field.2 h
      obtain ⟨hvs, hs'⟩ := ofJsonFields hK fs hs
      exact ⟨List.forall_mem_cons.mpr ⟨hv, hvs⟩, hs'⟩
termination_by structural fs

end

end Holds

theorem holds_binary (s : Store) (hK : Value.SparesData K) (op : BinaryOp) (hv : K v) (hw : K w) :
    K (s.binary op v w) := by
  unfold binary
  cases op with
  | and | or =>
      dsimp only
      split
      · assumption
      · assumption
  | add =>
      dsimp only
      split <;> exact hK _ rfl
  | _ => exact hK _ rfl

end Store

end TraceLoom
