import TraceLoom.Script.Syntax

/-!
Calls that are traced as operations of the host or as methods, not as calls of functions.
-/

namespace TraceLoom

open Script

inductive CallKind where
  /-- `require` of a path that is a literal. -/
  | require (path : String)
  | console (method : String)
  /-- A method that is known not to run code of the program. -/
  | method (object : Expr) (method : String)
  | function

structure Primitives where
  methods : List String
  /-- Names that the host provides; they are never captured. -/
  globals : List String

namespace Primitives

def default : Primitives where
  methods := ["push", "pop", "shift", "unshift", "startsWith", "endsWith", "includes"]
  globals := ["console", "require"]

/-- Traces calls of a method as method calls. -/
def addMethod (p : Primitives) (method : String) : Primitives :=
  { p with methods := p.methods ++ [method] }

def addGlobal (p : Primitives) (name : String) : Primitives :=
  { p with globals := p.globals ++ [name] }

def isGlobal (p : Primitives) (name : String) : Bool :=
  p.globals.contains name

def consoleMethods : List String :=
  ["log", "error"]

/-- The event recorded for a method of the console. -/
def consoleEvent (method : String) : String :=
  "console." ++ method

def classify (p : Primitives) (callee : Expr) (args : List Expr) : CallKind :=
  match callee with
  | .name _ "require" =>
    match args with
    | [.string _ path] => .require path
    | _ => .function
  | .member _ object property =>
    if object.name? = some "console" ∧ property ∈ consoleMethods then .console property
    else if property ∈ p.methods then .method object property
    else .function
  | _ => .function

end Primitives

end TraceLoom
