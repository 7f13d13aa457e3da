import TraceLoom.Instrument.Options
import TraceLoom.Json.Basic

/-!
Settings of a session: the names of instrumented programs, and the limits of execution.
-/

namespace TraceLoom

structure Config where
  instrument : InstrumentOptions
  /-- How deep calls may nest. -/
  maxCallDepth : Nat
  /-- How often the body of one loop may run. -/
  maxLoopIterations : Nat
  /-- How long an array may become by writing to an index. -/
  maxArrayLength : Nat
  deriving DecidableEq, Repr

namespace Config

def default : Config where
  instrument := .default
  maxCallDepth := 512
  maxLoopIterations := 1000000
  maxArrayLength := Nat.pow 2 24

private def limit (j : Json) (name : String) (fallback : Nat) : Option Nat :=
  match j.field? name with
  | none => some fallback
  | some (.integer n) => if n < 0 then none else some n.toNat
  | some _ => none

private def setting (j : Json) (name fallback : String) : Option String :=
  match j.field? name with
  | none => some fallback
  | some value => value.string?

/-- Reads options; those that are missing have their default. -/
def optionsOfJson? (j : Json) : Option InstrumentOptions := do
  let standard := InstrumentOptions.default
  return {
    expModule := ← setting j "exp_module" standard.expModule
    callbacksModule := ← setting j "callbacks_module" standard.callbacksModule
    returnLabel := ← setting j "return_label" standard.returnLabel
    expBinding := ← setting j "exp_binding" standard.expBinding
    callbacksBinding := ← setting j "callbacks_binding" standard.callbacksBinding }

/-- Reads settings; those that are missing have their default. -/
def ofJson? (j : Json) : Option Config := do
  let options ← optionsOfJson? ((j.field? "instrument").getD (.object []))
  return {
    instrument := options
    maxCallDepth := ← limit j "max_call_depth" default.maxCallDepth
    maxLoopIterations := ← limit j "max_loop_iterations" default.maxLoopIterations
    maxArrayLength := ← limit j "max_array_length" default.maxArrayLength }

def optionsJson (options : InstrumentOptions) : Json :=
  .object [("exp_module", .string options.expModule),
    ("callbacks_module", .string options.callbacksModule),
    ("return_label", .string options.returnLabel),
    ("exp_binding", .string options.expBinding),
    ("callbacks_binding", .string options.callbacksBinding)]

def toJson (c : Config) : Json :=
  .object [("instrument", optionsJson c.instrument),
    ("max_call_depth", .integer c.maxCallDepth),
    ("max_loop_iterations", .integer c.maxLoopIterations),
    ("max_array_length", .integer c.maxArrayLength)]

theorem ofJson?_toJson (c : Config) : ofJson? c.toJson = some c := by
  rfl

end Config

end TraceLoom
