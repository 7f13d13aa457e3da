import TraceLoom.Execution.Arguments
import TraceLoom.Trace.Operation

/-!
The two modules with which a program records itself: constructors of traces, and the operations
of the recorder.
-/

namespace TraceLoom

open Script

namespace Builder

/-- The constructors, in the order in which the module has them. -/
def names : List String :=
  ["unknown", "number", "boolean", "string", "identifier", "from", "froms", "get", "binop", "op1",
    "let_", "set", "block", "if_", "while_", "callback", "label", "break_", "clos", "obj", "array",
    "index", "methodCall", "primApp"]

def build (a : Arguments) : Except EvalError Trace :=
  match a.operation with
  | "unknown" => return .hole
  | "number" => return .number (← a.number 0)
  | "boolean" => return .boolean (← a.boolean 0)
  | "string" => return .string (← a.string 0)
  | "identifier" => return .name (← a.string 0)
  | "from" => return .captured (← a.trace 0) (← a.string 1)
  | "get" => return .property (← a.trace 0) (← a.string 1)
  | "binop" => do
    let symbol ← a.string 0
    match BinaryOp.ofSymbol? symbol with
    | some op => return .binary op (← a.trace 1) (← a.trace 2)
    | none => throw (.typeError "binop" "a binary operator" symbol)
  | "op1" => do
    let symbol ← a.string 0
    match UnaryOp.ofSymbol? symbol with
    | some op => return .unary op (← a.trace 1)
    | none => throw (.typeError "op1" "a unary operator" symbol)
  | "let_" => return .bind (← a.string 0) (← a.trace 1)
  | "set" => return .assign (← a.target 0) (← a.trace 1)
  | "block" => return .block (← a.traces 0)
  | "if_" => return .ifElse (← a.trace 0) (← a.traces 1) (← a.traces 2)
  | "while_" => return .whileDo (← a.trace 0) (← a.traces 1)
  | "callback" =>
    return .callback (← a.string 0) (← a.trace 1) (← a.strings 2) (← a.trace 3) (← a.traces 4)
  | "label" => return .label (← a.string 0) (← a.traces 1)
  | "break_" => return .breakTo (← a.string 0) (← a.trace 1)
  | "clos" => return .closure (← a.fields 0)
  | "obj" => return .object (← a.fields 0)
  | "array" => return .array (← a.traces 0)
  | "index" => return .index (← a.trace 0) (← a.trace 1)
  | "methodCall" => return .methodCall (← a.trace 0) (← a.string 1) (← a.traces 2)
  | "primApp" => return .primitive (← a.string 0) (← a.traces 1)
  | other => throw (.notAFunction ("exp." ++ other))

/-- Several fields of one closure record. -/
def captures (a : Arguments) : Except EvalError (List Trace) := do
  let record ← a.trace 0
  return (← a.strings 1).map (.captured record)

end Builder

namespace Operation

/-- The operations, in the order in which the module has them. -/
def names : List String :=
  ["newTrace", "exitBlock", "traceLet", "traceSet", "tracePrimApp", "traceIfTrue", "traceIfFalse",
    "traceWhile", "traceLoop", "traceLabel", "traceBreak", "traceFunctionCall",
    "traceFunctionBody", "pushArgs", "popArgs", "getTrace"]

def arity (a : Arguments) (i : Nat) : Except EvalError Nat := do
  let x ← a.number i
  match (Value.slot? x).filter (· ≤ Recorder.maxArity) with
  | some n => return n
  | none =>
    throw (.typeError "trace.traceFunctionBody" "a parameter count" (Numeric.Notation.value x))

/-- The operation of the recorder that a call asks for. -/
def ofArguments (a : Arguments) : Except EvalError Operation :=
  match a.operation with
  | "newTrace" => return .restart
  | "exitBlock" => return .exit
  | "traceLet" => return .bind (← a.string 0) (← a.trace 1)
  | "traceSet" => return .assign (← a.target 0) (← a.trace 1)
  | "tracePrimApp" => return .primitive (← a.string 0) (← a.traces 1)
  | "traceIfTrue" => return .branch true (← a.trace 0)
  | "traceIfFalse" => return .branch false (← a.trace 0)
  | "traceWhile" => return .loop (← a.trace 0)
  | "traceLoop" => return .iterate
  | "traceLabel" => return .label (← a.string 0)
  | "traceBreak" => return .breakTo (← a.string 0) (← a.trace 1)
  | "traceFunctionCall" => return .call (← a.string 0) (← a.traces 1)
  | "traceFunctionBody" => return .enterBody (← a.string 0) (← arity a 1)
  | "pushArgs" => return .pushArgs (← a.traces 0)
  | "popArgs" => return .popArgs
  | other => throw (.notAFunction ("trace." ++ other))

end Operation

end TraceLoom
