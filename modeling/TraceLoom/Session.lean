import TraceLoom.Execution.Run
import TraceLoom.Instrument.Source

/-!
A session runs one program any number of times and delivers requests to it.  With recording, the
program is instrumented once, and all runs and requests go into one trace.
-/

namespace TraceLoom

open Script

structure Session where
  program : Program
  /-- The text of the instrumented program, when recording. -/
  instrumented : Option String
  machine : Machine
  /-- How many runs were completed. -/
  runs : Nat

structure Session.Outcome (α : Type) where
  result : α
  /-- The lines written to the console since the last outcome. -/
  output : List String

namespace Session

variable {α : Type}

/-- A session that records.  What runs is the text of the instrumented program, read again. -/
def recording (text : String) (config : Config) (network : Network) :
    Except SourceError Session := do
  let instrumented ← instrumentSource config.instrument text
  let program ← (parse instrumented).mapError .parse
  return {
    program, instrumented := some instrumented, runs := 0
    machine := .new config (.new (some .new) network) }

/-- A session that runs a program as it is written. -/
def plain (text : String) (config : Config) (network : Network) : Except SourceError Session := do
  let program ← (parse text).mapError .parse
  return { program, instrumented := none, runs := 0, machine := .new config (.new none network) }

def recorder (s : Session) : Option Recorder :=
  s.machine.adapter.recorder

def trace (s : Session) : Option Trace :=
  s.recorder.map Recorder.trace

/-- The result of a step together with the console output.  When the step fails, the output stays
for the next outcome. -/
def perform (s : Session) (step : Running α) : Except EvalError (Outcome α) × Session :=
  match s.machine.run step with
  | (.ok result, machine) =>
    let (output, machine) := machine.takeLines
    (.ok ⟨result, output⟩, { s with machine })
  | (.error error, machine) => (.error error, { s with machine })

/-- Runs the program from the start, with new variables. -/
def run (s : Session) (budget : Nat) : Except EvalError (Outcome Value) × Session :=
  match s.perform (do Machine.reset; Machine.runProgram budget s.program) with
  | (.ok outcome, s) => (.ok outcome, { s with runs := s.runs + 1 })
  | failed => failed

/-- Delivers a request to the listener of the last run. -/
def request (s : Session) (budget : Nat) (body : Json) :
    Except EvalError (Outcome (Option Json)) × Session :=
  s.perform (Machine.request budget body)

end Session

end TraceLoom
