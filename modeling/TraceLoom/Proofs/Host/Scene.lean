import TraceLoom.Proofs.Execution.Registering
import TraceLoom.Trace.Operation

/-!
What a program asks of an adapter, as data.  Callbacks and conversations go by number, in the order
in which they were registered and opened, so that the same moves make sense with any adapter.  A
scene is an adapter with what these numbers stand for and the callbacks that are running.
-/

namespace TraceLoom

inductive Move where
  | operation (op : Operation)
  /-- Asks whether anything is recorded. -/
  | tracing
  /-- Asks for the trace. -/
  | trace
  | register (event : Event)
  | discard (callback : Nat)
  | enter (callback : Nat) (conversation : Option Nat)
  /-- Leaves the callback that was entered last. -/
  | leave (completed : Bool)
  | respond (value : Json)
  | fetch (method : Event) (url : String) (body : Option Json)
  | openConversation
  | takeResponse (conversation : Nat)

/-- What a move gives.  The number of a context is not among it. -/
inductive Answer where
  | done
  | args (args : List Trace)
  | flag (isTracing : Bool)
  | trace (trace : Option Trace)
  | number (n : Nat)
  | fetched (answer : Except HostError Json)
  | response (response : Option Json)

abbrev Reply := Except TraceError Answer

def Operation.Outcome.answer : Operation.Outcome → Answer
  | args ts => .args ts
  | _ => .done

/-- The active context and the active conversation. -/
abbrev Whereabouts := Option ContextId × Option ConversationId

def Adapter.whereabouts (a : Adapter) : Whereabouts :=
  (a.recorder.map Recorder.active, a.conversation)

/-- A callback that is running. -/
structure Visit where
  callback : Nat
  firing : Firing
  /-- What was active when it was entered. -/
  before : Whereabouts

structure Scene where
  adapter : Adapter
  /-- The callbacks registered so far. -/
  callbacks : List Registration
  /-- The conversations opened so far. -/
  conversations : List ConversationId
  /-- The running callbacks, the innermost first. -/
  visits : List Visit
  /-- The callbacks that were entered, the latest first. -/
  entered : List Nat

namespace Scene

variable {α : Type}

def new (a : Adapter) : Scene :=
  ⟨a, [], [], [], []⟩

def conversation? (s : Scene) (conversation : Option Nat) : Option ConversationId :=
  conversation.bind (s.conversations[·]?)

/-- A step of the adapter that only answers. -/
def ask (s : Scene) (step : Adapting α) (answer : α → Answer) : Reply × Scene :=
  let (result, adapter) := s.adapter.run step
  (result.map answer, { s with adapter })

/-- Performs a move.  A number that stands for nothing is refused. -/
def perform (s : Scene) : Move → Reply × Scene
  | .operation op => s.ask (Adapter.record op.perform) Operation.Outcome.answer
  | .tracing => (.ok (.flag s.adapter.isTracing), s)
  | .trace => (.ok (.trace (s.adapter.recorder.map Recorder.trace)), s)
  | .register event =>
      match s.adapter.run (Adapter.register event) with
      | (.ok registration, adapter) =>
          (.ok (.number s.callbacks.length),
            { s with adapter, callbacks := s.callbacks ++ [registration] })
      | (.error e, adapter) => (.error e, { s with adapter })
  | .discard i =>
      match s.callbacks[i]? with
      | some registration => s.ask (Adapter.discard registration) fun _ => .done
      | none => (.error (.unknownContext i), s)
  | .enter i conversation =>
      match s.callbacks[i]? with
      | some registration =>
          match s.adapter.run (Adapter.enter registration (s.conversation? conversation)) with
          | (.ok firing, adapter) =>
              (.ok .done, { s with
                adapter
                visits := ⟨i, firing, s.adapter.whereabouts⟩ :: s.visits
                entered := i :: s.entered })
          | (.error e, adapter) => (.error e, { s with adapter })
      | none => (.error (.unknownContext i), s)
  | .leave completed =>
      match s.visits with
      | visit :: visits => { s with visits }.ask (Adapter.leave visit.firing completed) fun _ => .done
      | [] => (.error .exitPastTop, s)
  | .respond value => s.ask (Adapter.respond value) fun _ => .done
  | .fetch method url body =>
      let (answer, adapter) := s.adapter.fetch method url body
      (.ok (.fetched answer), { s with adapter })
  | .openConversation =>
      let (id, adapter) := s.adapter.openConversation
      (.ok (.number s.conversations.length),
        { s with adapter, conversations := s.conversations ++ [id] })
  | .takeResponse c =>
      match s.conversations[c]? with
      | some id =>
          let (response, adapter) := s.adapter.takeResponse id
          (.ok (.response response), { s with adapter })
      | none => (.error (.unknownConversation c), s)

def after (s : Scene) (moves : List Move) : Scene :=
  moves.foldl (fun s move => (s.perform move).2) s

theorem after_cons (s : Scene) (move : Move) (moves : List Move) :
    s.after (move :: moves) = (s.perform move).2.after moves := rfl

theorem after_append (s : Scene) (moves more : List Move) :
    s.after (moves ++ more) = (s.after moves).after more :=
  List.foldl_append

end Scene

end TraceLoom
