import TraceLoom.Host.Network
import TraceLoom.Trace.Error

/-!
Why an execution stops.
-/

namespace TraceLoom

inductive EvalError where
  | notDefined (name : String)
  | constAssignment (name : String)
  /-- An operation was given something of the wrong kind. -/
  | typeError (operation expected actual : String)
  | notAFunction (text : String)
  | unknownModule (name : String)
  /-- A break without its label or loop. -/
  | labelNotOpen (name : String)
  | callDepth (limit : Nat)
  | loopLimit (limit : Nat)
  | arrayLength (index limit : Nat)
  | alreadyListening
  | notListening
  /-- The execution cannot be recorded. -/
  | trace (cause : TraceError)
  | host (cause : HostError)
  /-- Callbacks queue callbacks without an end in sight. -/
  | queueLimit (limit : Nat)
  deriving DecidableEq, Repr

def EvalError.message : EvalError → String
  | notDefined name => name ++ " is not defined"
  | constAssignment name => "assignment to constant variable `" ++ name ++ "`"
  | typeError operation expected actual =>
    "type error: " ++ operation ++ " requires " ++ expected ++ ", got " ++ actual
  | notAFunction text => text ++ " is not a function"
  | unknownModule name => "cannot find module `" ++ name ++ "`"
  | labelNotOpen name => "break to label `" ++ name ++ "`, which is not open"
  | callDepth limit => "maximum call depth of " ++ toString limit ++ " exceeded"
  | loopLimit limit => "loop ran for more than " ++ toString limit ++ " iterations"
  | arrayLength index limit =>
    "array index " ++ toString index ++ " is past the maximum array length of " ++ toString limit
  | alreadyListening => "a request listener is already registered"
  | notListening => "no request listener is registered"
  | trace cause => cause.message
  | host cause => "host request failed: " ++ cause.message
  | queueLimit limit => "queue ran for more than " ++ toString limit ++ " callbacks"

end TraceLoom
