import TraceLoom.Execution.Builder
import TraceLoom.Execution.Machine

/-!
What native functions do.  None of them runs a callback by itself: callbacks are queued, and a
request that is answered at once gives the answer together with the callback that waits for it.
-/

namespace TraceLoom

/-- What a native function gives. -/
inductive Native.Result where
  | value (value : Value)
  /-- The callback has to run with the answer before the call is over. -/
  | answered (registration : Registration) (callback answer : Value)

namespace Store

/-- A new object with the constructors of traces. -/
def newBuilderModule (s : Store) : Value × Store :=
  let (missing, s) := s.newTrace .undefined
  s.newObject ((Builder.names.map fun name => (name, Value.native (.builder name))) ++
    [("undefined_", missing)])

/-- A new object with the host operations and the operations of the recorder. -/
def newCallbacksModule (s : Store) : Value × Store :=
  let (operations, s) :=
    s.newObject (Operation.names.map fun name => (name, Value.native (.trace name)))
  s.newObject ((Event.all.map fun event => (event.name, Value.native (.host event))) ++
    [("respond", .native .respond), ("trace", operations)])

/-- The URL and the body of a request. -/
def request (s : Store) (event : Event) : Value → Except EvalError (String × Option Json)
  | .string url => .ok (url, none)
  | .object place =>
    let fields := s.properties place
    match fields.get? "url" with
    | some (.string url) => .ok (url, (fields.get? "body").map s.toJson)
    | _ => .error (.typeError event.name "a `url` property" "none")
  | other => .error (.typeError event.name "a URL or request object" other.describe)

end Store

namespace Native

open Running

def arguments (operation : String) (values : List Value) : Running Arguments := do
  return ⟨operation, values, (← get).store⟩

def importModule (name : String) : Running Value := do
  let options := (← get).config.instrument
  if name = options.expModule then make Store.newBuilderModule
  else if name = options.callbacksModule then make Store.newCallbacksModule
  else throw (.unknownModule name)

def log (values : List Value) : Running Unit :=
  modify fun m =>
    { m with output := " ".intercalate (values.map m.store.inspect) :: m.output }

def build (name : String) (values : List Value) : Running Value := do
  let a ← arguments name values
  if name = "froms" then make (Store.newTraces (← MonadExcept.ofExcept (Builder.captures a)))
  else make (Store.newTrace (← MonadExcept.ofExcept (Builder.build a)))

def record (name : String) (values : List Value) : Running Value := do
  let a ← arguments name values
  match (← get).adapter.recorder with
  | none => throw (.trace .noOpenBlock)
  | some recorder =>
    if name = "getTrace" then make (Store.newTrace recorder.trace)
    else
      let operation ← MonadExcept.ofExcept (Operation.ofArguments a)
      match ← adapting (Adapter.record operation.perform) with
      | .args ts => make (Store.newTraces ts)
      | _ => return .undefined

def answer (value : Value) : Running Unit := do
  adapting (Adapter.respond ((← get).store.toJson value))

def fetch (event : Event) (url : String) (body : Option Json) :
    Running (Except HostError Json) := do
  let m ← get
  let (result, adapter) := m.adapter.fetch event url body
  set { m with adapter }
  return result

def enqueue (task : Task) : Running Unit :=
  modify fun m => { m with tasks := m.tasks.push task }

/-- Registers a callback with the host.  A `data:` URL answers at once.  Any other request is sent
and its callback queued, for undefined if the request failed. -/
def subscribe (event : Event) (values : List Value) : Running Result := do
  let a ← arguments event.name values
  let callback ← MonadExcept.ofExcept a.callback
  let registration ← adapting (Adapter.register event)
  match event with
  | .listen =>
    if (← get).isListening then
      adapting (Adapter.discard registration)
      throw .alreadyListening
    modify fun m => { m with listener := some ⟨registration, callback⟩ }
    return .value .undefined
  | .immediate =>
    enqueue ⟨registration, callback, a.value 0⟩
    return .value .undefined
  | event =>
    let (url, body) ← read fun s => s.request event (a.value 0)
    match ← fetch event url body with
    | .ok response =>
      let value ← make (Store.ofJson response)
      if url.startsWith "data:" then return .answered registration callback value
      enqueue ⟨registration, callback, value⟩
    | .error error =>
      if url.startsWith "data:" then throw (.host error)
      enqueue ⟨registration, callback, .undefined⟩
    return .value .undefined

def perform : Native → List Value → Running Result
  | require, values => do
    let a ← arguments "require" values
    return .value (← importModule (← MonadExcept.ofExcept (a.string 0)))
  | console _, values => do
    log values
    return .value .undefined
  | builder name, values => return .value (← build name values)
  | trace name, values => return .value (← record name values)
  | host event, values => subscribe event values
  | respond, values => do
    answer (values.head?.getD .undefined)
    return .value .undefined

end Native

end TraceLoom
