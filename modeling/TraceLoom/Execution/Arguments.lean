import TraceLoom.Value.Store

/-!
Arguments of native functions, by position and expected kind.  A missing argument is undefined.
-/

namespace TraceLoom

structure Arguments where
  /-- The function, as messages name it. -/
  operation : String
  values : List Value
  store : Store

namespace Arguments

variable {α : Type}

def value (a : Arguments) (i : Nat) : Value :=
  a.values[i]?.getD .undefined

/-- The error of an argument that is not of the expected kind. -/
def mismatch (a : Arguments) (expected : String) (actual : Value) : EvalError :=
  .typeError a.operation expected actual.describe

def string (a : Arguments) (i : Nat) : Except EvalError String :=
  match a.value i with
  | .string s => .ok s
  | other => .error (a.mismatch "a string" other)

def number (a : Arguments) (i : Nat) : Except EvalError Float :=
  match a.value i with
  | .number x => .ok x
  | other => .error (a.mismatch "a number" other)

def boolean (a : Arguments) (i : Nat) : Except EvalError Bool :=
  match a.value i with
  | .boolean b => .ok b
  | other => .error (a.mismatch "a boolean" other)

def asTrace (a : Arguments) : Value → Except EvalError Trace
  | .trace _ t => .ok t
  | other => .error (a.mismatch "a trace expression" other)

def asString (a : Arguments) : Value → Except EvalError String
  | .string s => .ok s
  | other => .error (a.mismatch "a string" other)

def trace (a : Arguments) (i : Nat) : Except EvalError Trace :=
  a.asTrace (a.value i)

def traces (a : Arguments) (i : Nat) : Except EvalError (List Trace) :=
  match a.value i with
  | .array place => (a.store.items place).toList.mapM a.asTrace
  | other => .error (a.mismatch "an array of trace expressions" other)

def strings (a : Arguments) (i : Nat) : Except EvalError (List String) :=
  match a.value i with
  | .array place => (a.store.items place).toList.mapM a.asString
  | other => .error (a.mismatch "an array of strings" other)

def fields (a : Arguments) (i : Nat) : Except EvalError (Fields Trace) :=
  match a.value i with
  | .object place =>
    (a.store.properties place).mapM fun field => return (field.1, ← a.asTrace field.2)
  | other => .error (a.mismatch "an object of trace expressions" other)

def target (a : Arguments) (i : Nat) : Except EvalError Target := do
  let t ← a.trace i
  match t.toTarget? with
  | some x => return x
  | none => throw (.typeError a.operation "an assignable expression" t.kind)

/-- The callback, which is the last argument. -/
def callback (a : Arguments) : Except EvalError Value :=
  match a.values.getLast? with
  | some v =>
    if v.isCallable then .ok v else .error (a.mismatch "a callback function" v)
  | none => .error (.typeError a.operation "a callback function" "nothing")

end Arguments

end TraceLoom
