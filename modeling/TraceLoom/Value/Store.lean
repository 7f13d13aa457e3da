import TraceLoom.Execution.Error
import TraceLoom.Fields
import TraceLoom.Value.Basic

/-!
The store: arrays, objects and scopes by their place.  Places are given out in order and never
taken back.
-/

namespace TraceLoom

structure Variable where
  value : Value
  /-- Whether assignment is refused. -/
  constant : Bool
  deriving Inhabited

structure Store where
  arrays : Array (Array Value)
  objects : Array (Fields Value)
  scopes : Array (Fields Variable)
  /-- How many functions and traces there have been. -/
  identities : Nat

namespace Store

def empty : Store :=
  ⟨#[], #[], #[], 0⟩

/-! ## Arrays and objects -/

def items (s : Store) (place : Nat) : Array Value :=
  s.arrays[place]?.getD #[]

def properties (s : Store) (place : Nat) : Fields Value :=
  s.objects[place]?.getD []

def newArray (items : Array Value) (s : Store) : Value × Store :=
  (.array s.arrays.size, { s with arrays := s.arrays.push items })

def newObject (properties : Fields Value) (s : Store) : Value × Store :=
  (.object s.objects.size, { s with objects := s.objects.push properties })

def newFunction (closure : Closure) (s : Store) : Value × Store :=
  (.function s.identities closure, { s with identities := s.identities + 1 })

def newTrace (t : Trace) (s : Store) : Value × Store :=
  (.trace s.identities t, { s with identities := s.identities + 1 })

def newTraces (ts : List Trace) (s : Store) : Value × Store :=
  let (values, s) := ts.foldl (fun (values, s) t =>
    let (value, s) := newTrace t s
    (Array.push values value, s)) (#[], s)
  newArray values s

def modifyItems (place : Nat) (f : Array Value → Array Value) (s : Store) : Store :=
  { s with arrays := s.arrays.modify place f }

def modifyProperties (place : Nat) (f : Fields Value → Fields Value) (s : Store) : Store :=
  { s with objects := s.objects.modify place f }

theorem items_newArray (items : Array Value) (s : Store) :
    (newArray items s).2.items s.arrays.size = items := by
  simp [newArray, Store.items]

theorem items_modifyItems_self (f : Array Value → Array Value) (s : Store) {place : Nat}
    (h : place < s.arrays.size) : (s.modifyItems place f).items place = f (s.items place) := by
  simp [modifyItems, items, Array.getElem_modify, h]

theorem items_modifyItems_of_ne (f : Array Value → Array Value) (s : Store) {place other : Nat}
    (h : other ≠ place) : (s.modifyItems place f).items other = s.items other := by
  simp [modifyItems, items, Array.getElem?_modify, Ne.symm h]

theorem properties_newObject (fields : Fields Value) (s : Store) :
    (newObject fields s).2.properties s.objects.size = fields := by
  simp [newObject, properties]

theorem properties_modifyProperties_self (f : Fields Value → Fields Value) (s : Store)
    {place : Nat} (h : place < s.objects.size) :
    (s.modifyProperties place f).properties place = f (s.properties place) := by
  simp [modifyProperties, properties, Array.getElem_modify, h]

theorem properties_modifyProperties_of_ne (f : Fields Value → Fields Value) (s : Store)
    {place other : Nat} (h : other ≠ place) :
    (s.modifyProperties place f).properties other = s.properties other := by
  simp [modifyProperties, properties, Array.getElem?_modify, Ne.symm h]

/-! ## Scopes -/

/-- A new scope without variables and without scopes around it. -/
def newEnvironment (s : Store) : Environment × Store :=
  (⟨s.scopes.size, []⟩, { s with scopes := s.scopes.push [] })

def child (env : Environment) (s : Store) : Environment × Store :=
  (⟨s.scopes.size, env.own :: env.outer⟩, { s with scopes := s.scopes.push [] })

def bindings (s : Store) (scope : ScopeId) : Fields Variable :=
  s.scopes[scope]?.getD []

/-- The innermost of some scopes with a variable of the given name, and that variable. -/
def find? (s : Store) (name : String) : List ScopeId → Option (ScopeId × Variable)
  | [] => none
  | scope :: rest =>
    match (s.bindings scope).get? name with
    | some found => some (scope, found)
    | none => find? s name rest

def lookup? (s : Store) (env : Environment) (name : String) : Option Value :=
  (s.find? name (env.own :: env.outer)).map (·.2.value)

def write (scope : ScopeId) (name : String) (content : Variable) (s : Store) : Store :=
  { s with scopes := s.scopes.modify scope (Fields.insert name content) }

/-- Declares a variable in the innermost scope; one of the same name there is replaced. -/
def declare (env : Environment) (name : String) (value : Value) (constant : Bool)
    (s : Store) : Store :=
  s.write env.own name ⟨value, constant⟩

/-- The scope in which an assignment finds a variable. -/
def assignable (s : Store) (env : Environment) (name : String) : Except EvalError ScopeId :=
  match s.find? name (env.own :: env.outer) with
  | none => .error (.notDefined name)
  | some (scope, found) =>
    if found.constant then .error (.constAssignment name) else .ok scope

theorem bindings_write_self {s : Store} {scope : ScopeId} (h : scope < s.scopes.size)
    (name : String) (content : Variable) :
    (s.write scope name content).bindings scope = (s.bindings scope).insert name content := by
  simp [write, bindings, Array.getElem_modify, h]

theorem bindings_write_of_ne {scope other : ScopeId} (h : other ≠ scope) (s : Store)
    (name : String) (content : Variable) :
    (s.write scope name content).bindings other = s.bindings other := by
  simp [write, bindings, Array.getElem?_modify, Ne.symm h]

theorem lookup?_declare_self {s : Store} {env : Environment} (h : env.own < s.scopes.size)
    (name : String) (value : Value) (constant : Bool) :
    (s.declare env name value constant).lookup? env name = some value := by
  simp [declare, lookup?, find?, bindings_write_self h]

end Store

end TraceLoom
