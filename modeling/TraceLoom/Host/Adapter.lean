import TraceLoom.Host.Network
import TraceLoom.Trace.Recorder

/-!
The adapter connects host operations with the recorder.  Registering a callback records it and
opens a context for its body; when the callback runs, that context is made active, and afterwards
the previous one again, whether or not the callback succeeded.

An inbound request opens a conversation.  Callbacks registered in a conversation run in it, so a
response always answers the request that led to it.
-/

namespace TraceLoom

/-- Conversations are numbered in the order in which they are opened. -/
abbrev ConversationId := Nat

structure Registration where
  event : Event
  /-- The context of the callback's body, when recording. -/
  context : Option ContextId
  /-- The conversation in which the callback was registered. -/
  conversation : Option ConversationId
  deriving DecidableEq, Repr

/-- What has to be restored when a callback has run. -/
structure Firing where
  event : Event
  previousContext : Option ContextId
  previousConversation : Option ConversationId
  deriving DecidableEq, Repr

structure Adapter where
  recorder : Option Recorder
  /-- The conversation that is active. -/
  conversation : Option ConversationId
  /-- The number of conversations opened so far. -/
  opened : Nat
  /-- Conversations that have not been answered. -/
  pending : List ConversationId
  /-- Answers that have not been taken. -/
  responses : List (ConversationId × Json)
  network : Network

/-- A step of the adapter.  What it changed before an error stays changed. -/
abbrev Adapting := ExceptT TraceError (StateM Adapter)

namespace Adapter

variable {α : Type}

def new (recorder : Option Recorder) (network : Network) : Adapter where
  recorder := recorder
  conversation := none
  opened := 0
  pending := []
  responses := []
  network := network

def isTracing (a : Adapter) : Bool :=
  a.recorder.isSome

def run (a : Adapter) (m : Adapting α) : Except TraceError α × Adapter :=
  StateT.run (ExceptT.run m) a

/-- An operation of the recorder, if there is one. -/
def record (m : Recording α) : Adapting α := do
  match (← get).recorder with
  | none => throw .noOpenBlock
  | some r =>
    let (result, r) := m.run r
    modify fun a => { a with recorder := some r }
    MonadExcept.ofExcept result

def openConversation (a : Adapter) : ConversationId × Adapter :=
  (a.opened, { a with opened := a.opened + 1, pending := a.opened :: a.pending })

def takeResponse (a : Adapter) (id : ConversationId) : Option Json × Adapter :=
  (a.responses.lookup id,
    { a with responses := a.responses.filter fun entry => entry.1 ≠ id })

/-- Registers a callback.  When recording, the arguments of the call are pending: the callee, then
the arguments, of which the last is the callback's closure. -/
def register (event : Event) : Adapting Registration := do
  let a ← get
  if a.isTracing then
    let args ← record Recorder.popArgs
    let closure := args.getLast?.getD .undefined
    let arg := match event with
      | .listen => .number 0.0
      | _ => args[1]?.getD .undefined
    let context ← record (Recorder.callback event.name arg ["clos", event.param] closure)
    return ⟨event, some context, a.conversation⟩
  else
    return ⟨event, none, a.conversation⟩

/-- Forgets a callback that will not run again.  It stays in the trace. -/
def discard (registration : Registration) : Adapting Unit := do
  match (← get).recorder, registration.context with
  | some _, some context => record (Recorder.release context)
  | _, _ => return ()

/-- Enters the context and the conversation of a callback.  A given conversation counts instead
of that of the registration. -/
def enter (registration : Registration) (conversation : Option ConversationId) :
    Adapting Firing := do
  let a ← get
  let previous ← match a.recorder, registration.context with
    | some _, some context => do
      let previous ← record (Recorder.switchTo context)
      tryCatch
        (do
          record Recorder.restart
          record (Recorder.pushArgs [.name "clos", .name registration.event.param]))
        fun error => do
          let _ ← record (Recorder.switchTo previous)
          throw error
      pure (some previous)
    | _, _ => pure none
  modify fun a => { a with conversation := conversation.or registration.conversation }
  return ⟨registration.event, previous, a.conversation⟩

/-- Undoes `enter`.  When the callback completed, its body is closed and the context rewound for
the next time. -/
def leave (firing : Firing) (completed : Bool) : Adapting Unit := do
  modify fun a => { a with conversation := firing.previousConversation }
  match (← get).recorder, firing.previousContext with
  | some r, some previous => do
    let closed : Except TraceError Unit ←
      if completed then
        tryCatch
          (do
            record Recorder.exit
            record Recorder.restart
            pure (.ok ()))
          fun error => pure (.error error)
      else pure (.ok ())
    let context := r.active
    let _ ← record (Recorder.switchTo previous)
    if !firing.event.isRepeating then record (Recorder.release context)
    MonadExcept.ofExcept closed
  | _, _ => return ()

/-- Answers the request of the active conversation, which can be done once. -/
def respond (value : Json) : Adapting Unit := do
  if (← get).isTracing then
    let args ← record Recorder.popArgs
    record (Recorder.primitive "send" [args[1]?.getD .undefined])
  let a ← get
  match a.conversation with
  | none => throw .noConversation
  | some id =>
    if id ∈ a.pending then
      set { a with
        pending := a.pending.filter (· ≠ id)
        responses := (id, value) :: a.responses.filter fun entry => entry.1 ≠ id }
    else throw (.unknownConversation id)

def fetch (a : Adapter) (method : Event) (url : String) (body : Option Json) :
    Except HostError Json × Adapter :=
  if method.isRequest then
    match Network.dataUrl? url with
    | some answer => (answer, a)
    | none =>
      let (answer, network) := a.network.send ⟨method, url, body⟩
      (answer, { a with network })
  else (.error (.notARequest method), a)

end Adapter

end TraceLoom
