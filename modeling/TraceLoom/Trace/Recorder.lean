import TraceLoom.Trace.Error
import TraceLoom.Trace.Path

/-!
The recorder builds one trace from any number of executions.  The first execution to reach a
place fills the hole there; later ones are merged with what was recorded and extend the trace
only where a hole is left.

A context records one line of execution: the program, or the body of one callback.  It holds the
statement lists that are open, the innermost first, each with a cursor.  All contexts write into
the same trace.  An operation that fails makes the recorder unusable, except for changing
contexts.
-/

namespace TraceLoom

open Trace (Path Step)

/-- Names a context; the program has number zero. -/
abbrev ContextId := Nat

/-- What opened a statement list. -/
inductive Scope where
  | block
  /-- A loop body; `iterating` once an iteration has begun. -/
  | loop (iterating : Bool)
  | label (name : String)
  | call
  deriving DecidableEq, Repr

def Scope.describe : Scope → String
  | block => "block"
  | loop _ => "loop"
  | label _ => "label"
  | call => "call"

/-- An open statement list and the place of the next statement in it. -/
structure Frame where
  path : Path
  cursor : Nat
  scope : Scope
  deriving DecidableEq, Repr

/-- One line of execution. -/
structure Context where
  /-- The statement list in which the context starts. -/
  base : Path
  /-- Open statement lists, the innermost first. -/
  frames : List Frame
  /-- Arguments of calls whose body has not begun, the latest first. -/
  pending : List (List Trace)

namespace Context

/-- A context with nothing open yet. -/
def idle (base : Path) : Context :=
  ⟨base, [], []⟩

/-- The context at the start of its base list. -/
def restart (c : Context) : Context :=
  ⟨c.base, [⟨c.base, 0, .block⟩], []⟩

end Context

structure Recorder where
  root : List Trace
  contexts : List (ContextId × Context)
  active : ContextId
  nextContext : ContextId
  /-- The error that made the recorder unusable. -/
  failure : Option TraceError

namespace Recorder

def rootContext : ContextId := 0

/-- The largest number of parameters a recorded function body may have. -/
def maxArity : Nat := 65535

/-- A recorder that has seen nothing, at the start of the program. -/
def new : Recorder where
  root := [.hole]
  contexts := [(rootContext, (Context.idle []).restart)]
  active := rootContext
  nextContext := 1
  failure := none

def trace (r : Recorder) : Trace :=
  .block r.root

def context? (r : Recorder) (id : ContextId) : Option Context :=
  r.contexts.lookup id

def replaceContext (r : Recorder) (id : ContextId) (c : Context) : Recorder :=
  { r with contexts := r.contexts.map fun entry => if entry.1 = id then (id, c) else entry }

def isPoisoned (r : Recorder) : Bool :=
  r.failure.isSome

end Recorder

/-- An operation of the recorder.  What it changed before an error stays changed. -/
abbrev Recording := ExceptT TraceError (StateM Recorder)

namespace Recording

variable {α : Type}

def run (m : Recording α) (r : Recorder) : Except TraceError α × Recorder :=
  StateT.run (ExceptT.run m) r

/-- An operation that is refused once the recorder is unusable, and makes it so by failing. -/
def guarded (m : Recording α) : Recording α := do
  match (← get).failure with
  | some cause => throw (.poisoned cause)
  | none =>
    tryCatch m fun error => do
      modify fun r => { r with failure := some error }
      throw error

def context : Recording Context := do
  let r ← get
  match r.context? r.active with
  | some c => return c
  | none => throw (.unknownContext r.active)

def setContext (c : Context) : Recording Unit :=
  modify fun r => r.replaceContext r.active c

def topFrame : Recording Frame := do
  match (← context).frames with
  | frame :: _ => return frame
  | [] => throw .noOpenBlock

def push (frame : Frame) : Recording Unit := do
  let c ← context
  setContext { c with frames := frame :: c.frames }

def setTop (frame : Frame) : Recording Unit := do
  let c ← context
  setContext { c with frames := frame :: c.frames.tail }

def blockAt (path : Path) : Recording (List Trace) := do
  match Trace.blockAt? path (← get).root with
  | some block => return block
  | none => throw .danglingPath

def setBlock (path : Path) (block : List Trace) : Recording Unit :=
  modify fun r => { r with root := Trace.replaceAt path block r.root }

/-- Records a statement at the cursor, which moves on: a hole is filled and a new one put behind
it, anything else is merged with the statement.  Gives the place of the statement. -/
def step (incoming : Trace) : Recording (Path × Nat) := do
  let frame ← topFrame
  let block ← blockAt frame.path
  match block[frame.cursor]? with
  | none => throw (.overrun block.length)
  | some old =>
    if old.isHole then
      setBlock frame.path (block.set frame.cursor incoming ++ [.hole])
    else
      let merged := Trace.mergeIn old incoming
      setBlock frame.path (block.set frame.cursor merged.result)
      match merged.mismatch with
      | some m => throw (.mismatch m)
      | none => pure ()
    setTop { frame with cursor := frame.cursor + 1 }
    return (frame.path, frame.cursor)

/-- Records a statement and opens a part of it. -/
def enter (incoming : Trace) (part : Part) (scope : Scope) : Recording Unit := do
  let (path, index) ← step incoming
  push ⟨path ++ [⟨index, part⟩], 0, scope⟩

/-- Ends a list: the cursor stands at its end, or before a hole, which is then dropped. -/
def close (frame : Frame) : Recording Unit := do
  let block ← blockAt frame.path
  if frame.cursor = block.length then return ()
  else
    match block[frame.cursor]? with
    | some .hole =>
      if frame.cursor + 1 = block.length then setBlock frame.path (block.take frame.cursor)
      else throw (.prematureExit frame.cursor block.length (Trace.kind .hole))
    | next => throw (.prematureExit frame.cursor block.length ((next.map Trace.kind).getD ""))

/-- The open lists outside the innermost one with a given label. -/
def unwind (name : String) : List Frame → Option (List Frame)
  | [] => none
  | frame :: rest => if frame.scope = .label name then some rest else unwind name rest

def openLabel (name : String) : Recording Unit :=
  enter (.label name [.hole]) .body (.label name)

def popPending : Recording (List Trace) := do
  let c ← context
  match c.pending with
  | args :: rest =>
    setContext { c with pending := rest }
    return args
  | [] => throw .noPendingArgs

end Recording

namespace Recorder

open Recording

/-! ## Operations -/

/-- Starts the active context again from its base. -/
def restart : Recording Unit := guarded do
  setContext (← context).restart

def bind (name : String) (value : Trace) : Recording Unit := guarded do
  let _ ← step (.bind name value)

def assign (target : Target) (value : Trace) : Recording Unit := guarded do
  let _ ← step (.assign target value)

def primitive (event : String) (args : List Trace) : Recording Unit := guarded do
  let _ ← step (.primitive event args)

/-- Records a test and enters the branch it chose. -/
def branch (taken : Bool) (test : Trace) : Recording Unit := guarded do
  enter (.ifElse test [.hole] [.hole]) (if taken then .whenTrue else .whenFalse) .block

/-- Records a loop.  Its body is entered by `iterate`. -/
def loop (test : Trace) : Recording Unit := guarded do
  enter (.whileDo test [.hole]) .body (.loop false)

/-- Ends the iteration of the innermost loop, if one has begun, and begins the next. -/
def iterate : Recording Unit := guarded do
  let frame ← topFrame
  match frame.scope with
  | .loop iterating =>
    if iterating then close frame
    setTop { frame with cursor := 0, scope := .loop true }
  | other => throw (.scopeMismatch "loop" other.describe)

def label (name : String) : Recording Unit := guarded do
  openLabel name

/-- Records a break and leaves every open list up to the one with the label.  Nothing can follow
the break in its own list. -/
def breakTo (name : String) (value : Trace) : Recording Unit := guarded do
  let (path, index) ← step (.breakTo name value)
  let block ← blockAt path
  match block[index + 1]? with
  | some .hole => if block.length = index + 2 then setBlock path (block.take (index + 1))
  | _ => pure ()
  let c ← context
  match unwind name c.frames with
  | some frames => setContext { c with frames }
  | none => do
    setContext { c with frames := [] }
    throw (.labelNotOpen name)

/-- Records a call whose result gets a name, and enters the list for the statements of the called
function.  The callee comes first among the arguments. -/
def call (name : String) (args : List Trace) : Recording Unit := guarded do
  enter (.bind name (.block [.hole])) .bound .call
  let c ← context
  setContext { c with pending := args :: c.pending }

/-- Takes the arguments of the latest call and opens the label of the function body.  Gives the
closure and exactly as many arguments as there are parameters. -/
def enterBody (label : String) (arity : Nat) : Recording (List Trace) := guarded do
  if arity > maxArity then throw (.arity arity maxArity)
  let args ← popPending
  openLabel label
  return args.take (arity + 1) ++ List.replicate (arity + 1 - args.length) .undefined

/-- Pushes arguments for a function body that is not entered through a recorded call. -/
def pushArgs (args : List Trace) : Recording Unit := guarded do
  let c ← context
  setContext { c with pending := args :: c.pending }

def popArgs : Recording (List Trace) := guarded popPending

/-- Records the registration of a callback and gives a context for its body. -/
def callback (event : String) (arg : Trace) (params : List String) (closure : Trace) :
    Recording ContextId := guarded do
  let (path, index) ← step (.callback event arg params closure [.hole])
  let r ← get
  let id := r.nextContext
  set { r with
    nextContext := id + 1
    contexts := r.contexts ++ [(id, Context.idle (path ++ [(⟨index, .body⟩ : Step)]))] }
  return id

/-- Leaves the innermost open list.  A loop whose body was not entered leaves no trace. -/
def exit : Recording Unit := guarded do
  let c ← context
  match c.frames with
  | [] => throw .exitPastTop
  | frame :: rest => do
    setContext { c with frames := rest }
    match frame.scope with
    | .loop false => pure ()
    | _ => close frame

/-- Makes another context the active one and gives the one that was. -/
def switchTo (id : ContextId) : Recording ContextId := do
  let r ← get
  match r.context? id with
  | none => throw (.unknownContext id)
  | some _ =>
    set { r with active := id }
    return r.active

/-- Drops the context of a callback that will not run again. -/
def release (id : ContextId) : Recording Unit :=
  modify fun r =>
    if id = rootContext ∨ id = r.active then r
    else { r with contexts := r.contexts.filter fun entry => entry.1 ≠ id }

end Recorder

end TraceLoom
