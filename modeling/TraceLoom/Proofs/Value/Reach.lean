import TraceLoom.Proofs.Script.Proper
import TraceLoom.Proofs.Value.Holds

/-!
What is within the reach of a program.  A realm says which natives a program may come by, which
objects it does not come by, and how its functions are written.  No operation on values leads out
of a realm: what comes out of a store was put into it, or was made within the realm.
-/

namespace TraceLoom

open Script

/-- A function that is written in the words of a vocabulary. -/
structure Closure.Proper (V : Vocabulary) (c : Closure) : Prop where
  self : c.bindsSelf = true → ∀ n ∈ c.name, V.self n
  params : ∀ n ∈ c.params, V.own n
  body : Stmt.ProperList V c.body

/-- What is within the reach of a program. -/
structure Realm where
  vocabulary : Vocabulary
  native : Native → Prop
  /-- Objects out of reach, with their properties, which never change. -/
  kept : Nat → Option (Fields Value)
  /-- What variables hold that the program does not name. -/
  hidden : String → Value → Prop
  hidden_function : ∀ {n : String} {closure : Closure}, vocabulary.self n →
    closure.Proper vocabulary → ∀ i, hidden n (.function i closure)

/-- The realm of any program. -/
def Realm.all : Realm :=
  ⟨.all, fun _ => True, fun _ => none, fun _ _ => True, fun _ _ _ => trivial⟩

/-- A value within a realm. -/
def Value.Reaches (R : Realm) : Value → Prop
  | .native n => R.native n
  | .object place => R.kept place = none
  | .function _ closure => closure.Proper R.vocabulary
  | _ => True

/-- What a variable of a realm may hold. -/
def Realm.Binds (R : Realm) (n : String) (v : Value) : Prop :=
  (R.vocabulary.own n → v.Reaches R) ∧ (¬ R.vocabulary.own n → R.hidden n v)

/-- A location that a program may write to. -/
def Location.Reaches (R : Realm) : Location → Prop
  | .variable _ name => R.vocabulary.own name
  | .item .. => True
  | .property place _ => R.kept place = none

/-- A store within a realm. -/
structure Store.Reaches (R : Realm) (s : Store) : Prop where
  arrays : ∀ items ∈ s.arrays, ∀ v ∈ items, v.Reaches R
  objects : ∀ place, R.kept place = none → ∀ field ∈ s.properties place, field.2.Reaches R
  kept : ∀ place fields, R.kept place = some fields → s.objects[place]? = some fields
  scopes : ∀ fields ∈ s.scopes, ∀ field ∈ fields, R.Binds field.1 field.2.value

variable {R : Realm} {s : Store} {v w : Value}

theorem Value.reaches_getD {x : Option Value} (h : ∀ v, x = some v → v.Reaches R) :
    (x.getD .undefined).Reaches R := by
  cases x with
  | none => trivial
  | some v => exact h v rfl

/-- Every value is within the realm of any program. -/
theorem Value.reaches_all : (v : Value) → v.Reaches .all
  | .native _ => trivial
  | .object _ => rfl
  | .function _ closure => ⟨fun _ _ _ => trivial, fun _ _ => trivial, Stmt.properList_all closure.body⟩
  | .undefined | .null | .boolean _ | .number _ | .string _ | .array _ | .trace .. => trivial

namespace Realm

theorem binds_own {n : String} (hn : R.vocabulary.own n) (hv : v.Reaches R) : R.Binds n v :=
  ⟨fun _ => hv, fun h => absurd hn h⟩

theorem binds_hidden {n : String} (hn : ¬ R.vocabulary.own n) (hv : R.hidden n v) : R.Binds n v :=
  ⟨fun h => absurd h hn, fun _ => hv⟩

theorem binds_self {n : String} (hn : R.vocabulary.self n) {i : Nat} {closure : Closure}
    (hv : (Value.function i closure).Reaches R) : R.Binds n (.function i closure) :=
  ⟨fun _ => hv, fun _ => R.hidden_function hn hv i⟩

end Realm

namespace Store

theorem reaches_all (s : Store) : s.Reaches .all :=
  ⟨fun _ _ v _ => v.reaches_all, fun _ _ field _ => field.2.reaches_all, nofun,
    fun _ _ field _ => Realm.binds_own trivial field.2.value.reaches_all⟩

namespace Reaches

/-! ## What is there -/

theorem items (h : s.Reaches R) (place : Nat) : ∀ v ∈ s.items place, v.Reaches R := by
  unfold Store.items
  cases hplace : s.arrays[place]? with
  | none => simp
  | some items => exact h.arrays items (Array.mem_of_getElem? hplace)

theorem bindings (h : s.Reaches R) (scope : ScopeId) :
    ∀ field ∈ s.bindings scope, R.Binds field.1 field.2.value := by
  unfold Store.bindings
  cases hplace : s.scopes[scope]? with
  | none => simp
  | some fields => exact h.scopes fields (Array.mem_of_getElem? hplace)

theorem item (h : s.Reaches R) (place i : Nat) :
    ((s.items place)[i]?.getD Value.undefined).Reaches R :=
  Value.reaches_getD fun v hv => h.items place v (Array.mem_of_getElem? hv)

/-- What a name stands for. -/
theorem binds (h : s.Reaches R) {env : Environment} {name : String}
    (hlookup : s.lookup? env name = some v) : R.Binds name v := by
  obtain ⟨⟨scope, x⟩, hfind, rfl⟩ := Option.map_eq_some_iff.mp hlookup
  clear hlookup
  generalize env.own :: env.outer = scopes at hfind
  induction scopes with
  | nil => cases hfind
  | cons inner outer ih =>
      unfold find? at hfind
      cases hx : (s.bindings inner).get? name with
      | none =>
          rw [hx] at hfind
          exact ih hfind
      | some found =>
          rw [hx] at hfind
          cases hfind
          exact h.bindings _ _ (Fields.mem_of_get? hx)

theorem lookup? (h : s.Reaches R) {env : Environment} {name : String}
    (hname : R.vocabulary.own name) (hlookup : s.lookup? env name = some v) : v.Reaches R :=
  (h.binds hlookup).1 hname

theorem property (h : s.Reaches R) (hv : v.Reaches R) {name : String}
    (hproperty : s.property v name = .ok w) : w.Reaches R := by
  unfold Store.property at hproperty
  split at hproperty
  · cases hproperty
    split <;> trivial
  · cases hproperty
    split <;> trivial
  · rename_i place
    cases hproperty
    exact Value.reaches_getD fun u hu => h.objects place hv _ (Fields.mem_of_get? hu)
  · cases hproperty
  · cases hproperty
  · cases hproperty
    trivial

theorem element (h : s.Reaches R) (hv : v.Reaches R) {key : Value}
    (helement : s.element v key = .ok w) : w.Reaches R := by
  unfold Store.element at helement
  split at helement
  · rename_i place x
    cases helement
    refine Value.reaches_getD fun u hu => ?_
    obtain ⟨i, -, hi⟩ := Option.bind_eq_some_iff.mp hu
    exact h.items place u (Array.mem_of_getElem? hi)
  · cases helement
    refine Value.reaches_getD fun u hu => ?_
    obtain ⟨i, -, hi⟩ := Option.bind_eq_some_iff.mp hu
    obtain ⟨c, -, rfl⟩ := Option.map_eq_some_iff.mp hi
    trivial
  · exact h.property hv helement

theorem destructure (h : s.Reaches R) {names : List String} {bound : List (String × Value)}
    (hbound : s.destructure names v = .ok bound) :
    ∀ entry ∈ bound, entry.1 ∈ names ∧ entry.2.Reaches R := by
  unfold Store.destructure at hbound
  split at hbound
  · rename_i place
    cases hbound
    intro entry hentry
    obtain ⟨⟨name, i⟩, hname, rfl⟩ := List.mem_map.mp hentry
    exact ⟨List.fst_mem_of_mem_zipIdx hname, h.item place i⟩
  · cases hbound

/-! ## Where something is put -/

end Reaches

theorem reaches_variableLocation {env : Environment} {name : String}
    (hname : R.vocabulary.own name) {location : Location}
    (h : s.variableLocation env name = .ok location) : location.Reaches R := by
  rw [variableLocation] at h
  cases hassignable : s.assignable env name with
  | error e =>
      rw [hassignable] at h
      cases h
  | ok scope =>
      rw [hassignable] at h
      cases h
      exact hname

theorem reaches_partLocation {limit : Nat} {key : Value} (hv : v.Reaches R) {location : Location}
    (h : s.partLocation limit v key = .ok location) : location.Reaches R := by
  unfold partLocation at h
  split at h
  · split at h
    · cases h
    · split at h
      · cases h
        trivial
      · cases h
  · cases h
    exact hv
  · cases h

namespace Reaches

/-! ## What is put there -/

theorem newArray (h : s.Reaches R) {items : Array Value} (hitems : ∀ v ∈ items, v.Reaches R) :
    (s.newArray items).2.Reaches R :=
  { h with
    arrays := fun xs hxs => (Array.mem_push.mp hxs).elim (h.arrays xs) fun heq => heq ▸ hitems }

/-- There is always a place that is not kept. -/
theorem kept_size (h : s.Reaches R) : R.kept s.objects.size = none := by
  cases hkept : R.kept s.objects.size with
  | none => rfl
  | some fields => simpa using h.kept _ fields hkept

theorem newObject (h : s.Reaches R) {fields : Fields Value}
    (hfields : ∀ field ∈ fields, field.2.Reaches R) :
    (s.newObject fields).1.Reaches R ∧ (s.newObject fields).2.Reaches R := by
  refine ⟨h.kept_size, { h with objects := fun place hplace field hfield => ?_, kept := fun place kept hkept => ?_ }⟩
  · by_cases heq : place = s.objects.size
    · rw [heq, properties_newObject] at hfield
      exact hfields field hfield
    · refine h.objects place hplace field ?_
      simpa [Store.newObject, Store.properties, Array.getElem?_push, heq] using hfield
  · have hplace := h.kept place kept hkept
    obtain ⟨hlt, -⟩ := Array.getElem?_eq_some_iff.mp hplace
    rw [Store.newObject, Array.getElem?_push_lt hlt]
    exact (Array.getElem?_eq_getElem hlt).symm.trans hplace

theorem newFunction (h : s.Reaches R) (closure : Closure) : (s.newFunction closure).2.Reaches R :=
  ⟨h.arrays, h.objects, h.kept, h.scopes⟩

theorem newTrace (h : s.Reaches R) (t : Trace) : (s.newTrace t).2.Reaches R :=
  ⟨h.arrays, h.objects, h.kept, h.scopes⟩

theorem child (h : s.Reaches R) (env : Environment) : (s.child env).2.Reaches R :=
  { h with
    scopes := fun fs hfs => (Array.mem_push.mp hfs).elim (h.scopes fs) fun heq => by simp [heq] }

theorem write (h : s.Reaches R) (scope : ScopeId) {name : String} {x : Variable}
    (hx : R.Binds name x.value) : (s.write scope name x).Reaches R :=
  { h with
    scopes := forall_mem_modify scope h.scopes fun _ hfields =>
      Fields.forall_insert_named (p := fun n (y : Variable) => R.Binds n y.value) hx hfields }

theorem declare (h : s.Reaches R) (env : Environment) {name : String} (hv : R.Binds name v)
    (constant : Bool) : (s.declare env name v constant).Reaches R :=
  h.write env.own hv

theorem declareAll (h : s.Reaches R) (env : Environment) {entries : List (String × Value)}
    (hentries : ∀ entry ∈ entries, R.Binds entry.1 entry.2) (constant : Bool) :
    (entries.foldl (fun s entry => s.declare env entry.1 entry.2 constant) s).Reaches R := by
  induction entries generalizing s with
  | nil => exact h
  | cons entry entries ih =>
      obtain ⟨hentry, hentries⟩ := List.forall_mem_cons.mp hentries
      exact ih (h.declare env hentry constant) hentries

theorem modifyItems (h : s.Reaches R) (place : Nat) {f : Array Value → Array Value}
    (hf : ∀ items, (∀ v ∈ items, v.Reaches R) → ∀ v ∈ f items, v.Reaches R) :
    (s.modifyItems place f).Reaches R :=
  { h with arrays := forall_mem_modify place h.arrays hf }

theorem modifyProperties (h : s.Reaches R) {place : Nat} (hplace : R.kept place = none)
    {f : Fields Value → Fields Value}
    (hf : ∀ fields, (∀ field ∈ fields, field.2.Reaches R) → ∀ field ∈ f fields, field.2.Reaches R) :
    (s.modifyProperties place f).Reaches R := by
  refine { h with objects := fun other hother field hfield => ?_, kept := fun other fields hkept => ?_ }
  · by_cases heq : other = place
    · subst heq
      rw [Store.properties, Store.modifyProperties, Array.getElem?_modify, if_pos rfl] at hfield
      cases hget : s.objects[other]? with
      | none => simp [hget] at hfield
      | some fields =>
          refine hf fields (fun field hfield => h.objects other hother field ?_) field ?_
          · rwa [Store.properties, hget, Option.getD_some]
          · simpa [hget] using hfield
    · rw [properties_modifyProperties_of_ne f s heq] at hfield
      exact h.objects other hother field hfield
  · have hne : place ≠ other := by
      rintro rfl
      rw [hplace] at hkept
      cases hkept
    rw [Store.modifyProperties, Array.getElem?_modify, if_neg hne]
    exact h.kept other fields hkept

theorem put (h : s.Reaches R) {location : Location} (hlocation : location.Reaches R)
    (hv : v.Reaches R) : (s.put location v).Reaches R := by
  cases location with
  | «variable» scope name => exact h.write scope (Realm.binds_own hlocation hv)
  | item place i =>
      refine h.modifyItems place fun items hitems u hu => ?_
      unfold setItem at hu
      split at hu
      · exact (Array.mem_or_eq_of_mem_setIfInBounds hu).elim (hitems u) fun heq => heq ▸ hv
      · rcases Array.mem_push.mp hu with hu | rfl
        · rcases Array.mem_append.mp hu with hu | hu
          · exact hitems u hu
          · obtain ⟨-, rfl⟩ := Array.mem_replicate.mp hu
            trivial
        · exact hv
  | property place name =>
      exact h.modifyProperties hlocation fun _ hfields => Fields.forall_insert hv hfields

/-! ## Operators and methods -/

theorem invoke (h : s.Reaches R) (method : Method) {args : List Value}
    (hargs : ∀ v ∈ args, v.Reaches R) :
    (s.invoke method args).1.Reaches R ∧ (s.invoke method args).2.Reaches R := by
  cases method with
  | push place =>
      refine ⟨trivial, h.modifyItems place fun items hitems v hv => ?_⟩
      have hmem : v ∈ items ∨ v ∈ args := by
        simpa only [Array.mem_def, Array.toList_appendList, List.mem_append] using hv
      exact hmem.elim (hitems v) (hargs v)
  | pop place =>
      refine ⟨Value.reaches_getD fun v hv => h.items place v (Array.mem_of_back? hv),
        h.modifyItems place fun items hitems v hv => hitems v ?_⟩
      obtain ⟨i, hi, rfl⟩ := Array.mem_iff_getElem.mp hv
      rw [Array.getElem_pop]
      exact Array.getElem_mem _
  | shift place =>
      refine ⟨h.item place 0, h.modifyItems place fun items hitems v hv => hitems v ?_⟩
      obtain ⟨i, hi, rfl⟩ := Array.mem_iff_getElem.mp hv
      rw [Array.getElem_extract]
      exact Array.getElem_mem _
  | unshift place =>
      refine ⟨trivial, h.modifyItems place fun items hitems v hv => ?_⟩
      exact (Array.mem_append.mp hv).elim (fun hv => hargs v (List.mem_toArray.mp hv)) (hitems v)
  | contains place | startsWith t | endsWith t | includes t => exact ⟨trivial, h⟩

end Reaches

theorem reaches_binary (s : Store) (op : BinaryOp) (hv : v.Reaches R) (hw : w.Reaches R) :
    (s.binary op v w).Reaches R := by
  unfold binary
  cases op with
  | and | or =>
      dsimp only
      split
      · assumption
      · assumption
  | add =>
      dsimp only
      split <;> trivial
  | _ => trivial

end Store

theorem Value.reaches_unary (op : UnaryOp) (v : Value) : (v.unary op).Reaches R := by
  cases op <;> trivial

end TraceLoom
