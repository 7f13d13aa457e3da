import TraceLoom.Config
import TraceLoom.Host.Adapter
import TraceLoom.Queue
import TraceLoom.Value.Property

/-!
The state in which programs run: the store, the adapter to the host, what was written to the
console, and the callbacks that wait.
-/

namespace TraceLoom

/-- A callback that waits for its turn. -/
structure Task where
  registration : Registration
  callback : Value
  arg : Value

/-- The callback for inbound requests. -/
structure Listener where
  registration : Registration
  callback : Value

/-- Decides about a call before it is made: from the expression that was called, which callbacks
of the host do not have, from its value, the arguments and the store these are in. -/
abbrev Gate := Option Script.Expr → Value → List Value → Store → Except EvalError Unit

structure Machine where
  config : Config
  /-- Lets every call through, unless one wants to know who calls what. -/
  gate : Gate
  adapter : Adapter
  store : Store
  /-- The scope of the program's own variables. -/
  globals : Environment
  /-- Lines written to the console, the latest first. -/
  output : List String
  /-- Waiting callbacks. -/
  tasks : Queue Task
  listener : Option Listener

/-- A step of an execution.  What it changed before an error stays changed. -/
abbrev Running := ExceptT EvalError (StateM Machine)

inductive Flow where
  /-- The next statement follows. -/
  | next
  | breakTo (label : Option String)
  | returnWith (value : Value)

namespace Machine

variable {α : Type}

def run (m : Machine) (step : Running α) : Except EvalError α × Machine :=
  StateT.run (ExceptT.run step) m

@[simp] theorem run_pure (m : Machine) (x : α) : m.run (pure x) = (.ok x, m) := rfl

@[simp] theorem run_throw (m : Machine) (e : EvalError) :
    m.run (throw e : Running α) = (.error e, m) := rfl

/-- A step goes on in the state in which the one before it ended, unless that failed. -/
theorem run_bind {β : Type} (m : Machine) (x : Running α) (f : α → Running β) :
    m.run (x >>= f) =
      match m.run x with
      | (.ok a, m) => m.run (f a)
      | (.error e, m) => (.error e, m) := by
  simp only [run, ExceptT.run_bind, StateT.run_bind]
  change (match StateT.run (ExceptT.run x) m with | (r, m) => _) = _
  rcases StateT.run (ExceptT.run x) m with ⟨r, m⟩
  cases r <;> rfl

def lines (m : Machine) : List String :=
  m.output.reverse

def isListening (m : Machine) : Bool :=
  m.listener.isSome

/-- The lines written to the console, which are then forgotten. -/
def takeLines (m : Machine) : List String × Machine :=
  (m.lines, { m with output := [] })

end Machine

namespace Running

variable {α : Type}

/-- Makes something in the store.  The machine lets go of the store meanwhile, so that it can be
changed in place. -/
def make (f : Store → α × Store) : Running α :=
  modifyGet fun m =>
    let store := m.store
    let m := { m with store := .empty }
    let (made, store) := f store
    (made, { m with store })

def change (f : Store → Store) : Running Unit :=
  make fun s => ((), f s)

def read (f : Store → Except EvalError α) : Running α := do
  MonadExcept.ofExcept (f (← get).store)

def permit (callee : Option Script.Expr) (function : Value) (args : List Value) :
    Running Unit := do
  let m ← get
  MonadExcept.ofExcept (m.gate callee function args m.store)

def adapting (step : Adapting α) : Running α := do
  let m ← get
  let (result, adapter) := m.adapter.run step
  set { m with adapter }
  MonadExcept.ofExcept (result.mapError .trace)

/-- The result of a step that may fail. -/
def observe (step : Running α) : Running (Except EvalError α) := fun m =>
  let (result, m) := StateT.run (ExceptT.run step) m
  (.ok result, m)

/-- Runs a body while a test holds, at most `limit` times in all; the last argument says how
often it may still run. -/
def loop (limit : Nat) (test : Running Bool) (body : Running Flow) : Nat → Running Flow
  | 0 => do
    if ← test then throw (.loopLimit limit)
    return .next
  | remaining + 1 => do
    if ← test then
      match ← body with
      | .next => loop limit test body remaining
      | .breakTo none => return .next
      | flow => return flow
    else return .next

/-- Runs a callback in its context and conversation, which are left again even if it fails.  An
error of the callback counts before one of leaving. -/
def fire (registration : Registration) (conversation : Option ConversationId)
    (callback : Running α) : Running Unit := do
  let firing ← adapting (Adapter.enter registration conversation)
  let result ← observe callback
  let left ← observe (adapting (Adapter.leave firing result.toBool))
  let _ ← MonadExcept.ofExcept result
  MonadExcept.ofExcept left

end Running

namespace Store

def newConsole (s : Store) : Value × Store :=
  s.newObject [("log", .native (.console "log")), ("error", .native (.console "error"))]

/-- A scope with the names that every program has. -/
def newGlobals (s : Store) : Environment × Store :=
  let (env, s) := s.newEnvironment
  let s := s.declare env "undefined" .undefined true
  let s := s.declare env "require" (.native .require) true
  let (console, s) := s.newConsole
  (env, s.declare env "console" console true)

end Store

namespace Machine

def new (config : Config) (adapter : Adapter) : Machine :=
  let (globals, store) := Store.empty.newGlobals
  { config, adapter, store, globals, gate := fun _ _ _ _ => .ok (), output := [], tasks := .empty,
    listener := none }

/-- Forgets the program's variables with all that was in them, its waiting callbacks and its
listener.  The adapter with its trace and what is in the console stay. -/
def reset : Running Unit := do
  let globals ← Running.make fun _ => Store.empty.newGlobals
  let m ← get
  set { m with globals, tasks := .empty, listener := none }
  m.tasks.toList.forM fun task => Running.adapting (Adapter.discard task.registration)
  m.listener.forM fun listener => Running.adapting (Adapter.discard listener.registration)

end Machine

end TraceLoom
