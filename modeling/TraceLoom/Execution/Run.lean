import TraceLoom.Execution.Interpreter

/-!
Running programs and delivering requests.  Callbacks that were queued run afterwards, in the order
in which they were queued.  Nothing keeps a callback from queueing another one, so the number of
callbacks has a bound, the budget.
-/

namespace TraceLoom

open Script Running

namespace Running

/-- Runs the waiting callbacks, and those which they queue.  The last argument says how many may
still run, of `limit` at the outset. -/
def drain (limit : Nat) : Nat → Running Unit
  | 0 => do
    if (← get).tasks.pop?.isSome then throw (.queueLimit limit)
  | remaining + 1 => do
    let m ← get
    match m.tasks.pop? with
    | none => return ()
    | some (task, tasks) =>
      set { m with tasks }
      fire task.registration none (call task.callback [task.arg])
      drain limit remaining

end Running

namespace Machine

def drain (budget : Nat) : Running Unit :=
  Running.drain budget budget

def evaluate (env : Environment) (e : Expr) : Running Value :=
  e.eval (fun callee => callFrom callee) env

/-- Runs a program among the program's own variables, then the callbacks it queued.  The value is
that of a return at the top, and undefined without one. -/
def runProgram (budget : Nat) (program : Program) : Running Value := do
  let value ← match ← Stmt.execBlock (fun callee => callFrom callee) (← get).globals program with
    | .next => pure .undefined
    | .returnWith v => pure v
    | .breakTo label => throw (.labelNotOpen (labelText label))
  drain budget
  return value

def openConversation : Running ConversationId :=
  modifyGet fun m =>
    let (id, adapter) := m.adapter.openConversation
    (id, { m with adapter })

/-- Takes the answer of a conversation, if it has been answered. -/
def takeResponse (id : ConversationId) : Running (Option Json) :=
  modifyGet fun m =>
    let (response, adapter) := m.adapter.takeResponse id
    (response, { m with adapter })

/-- Delivers a request to the listener, in a conversation of its own, then runs the callbacks that
were queued.  The result is the answer, if there was one. -/
def request (budget : Nat) (body : Json) : Running (Option Json) := do
  match (← get).listener with
  | none => throw .notListening
  | some listener =>
    let id ← openConversation
    let arg ← make (Store.ofJson body)
    fire listener.registration (some id) (call listener.callback [arg])
    drain budget
    takeResponse id

end Machine

end TraceLoom
