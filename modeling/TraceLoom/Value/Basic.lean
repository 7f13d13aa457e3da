import TraceLoom.Host.Event
import TraceLoom.Numeric.Notation
import TraceLoom.Script.Syntax
import TraceLoom.Text.Blank
import TraceLoom.Trace.Basic

/-!
Script values.  Arrays, objects and the variables of a scope lie in a store and are referred to
by their place in it, so that everyone who holds a reference sees the same contents.  Functions
and traces never change; they carry a number by which one is told from another.
-/

namespace TraceLoom

open Numeric Script

/-- The place of a scope in the store. -/
abbrev ScopeId := Nat

/-- The scopes that are visible: the innermost one, then the others from the inside out. -/
structure Environment where
  own : ScopeId
  outer : List ScopeId
  deriving DecidableEq, Repr, Inhabited

/-- Functions that are not written in the script language. -/
inductive Native where
  | require
  | console (method : String)
  /-- A constructor of traces. -/
  | builder (name : String)
  /-- An operation of the recorder. -/
  | trace (operation : String)
  /-- A host operation that takes a callback. -/
  | host (event : Event)
  | respond
  deriving DecidableEq, Repr

/-- A function written in the script language, with the scopes of the place where it was made. -/
structure Closure where
  name : Option String
  params : List String
  body : List Stmt
  env : Environment
  /-- Whether the body sees the function under its own name. -/
  bindsSelf : Bool
  deriving Inhabited

inductive Value where
  | undefined
  | null
  | boolean (value : Bool)
  | number (value : Float)
  | string (value : String)
  | array (place : Nat)
  | object (place : Nat)
  | function (identity : Nat) (closure : Closure)
  | native (native : Native)
  /-- A trace as a value, for programs that record themselves. -/
  | trace (identity : Nat) (trace : Trace)
  deriving Inhabited

namespace Value

def typeName : Value → String
  | undefined => "undefined"
  | null | array _ | object _ | trace .. => "object"
  | boolean _ => "boolean"
  | number _ => "number"
  | string _ => "string"
  | function .. | native _ => "function"

/-- The kind of value, in the words of messages. -/
def describe : Value → String
  | null => "null"
  | array _ => "array"
  | trace .. => "trace expression"
  | other => other.typeName

def isCallable : Value → Bool
  | function .. | native _ => true
  | _ => false

def isNullish : Value → Bool
  | undefined | null => true
  | _ => false

/-- How a value counts as a condition. -/
def isTruthy : Value → Bool
  | undefined | null => false
  | boolean b => b
  | number x => x != 0.0 && !x.isNaN
  | string s => s != ""
  | _ => true

/-- The numeric reading of a text: blanks at the ends do not count, and nothing reads as zero. -/
def readNumber (text : List Char) : Float :=
  match Text.trimBlanks text with
  | [] => 0.0
  | rest => (Notation.read? rest).getD Binary64.nan

def toNumber : Value → Float
  | null => 0.0
  | boolean b => if b then 1.0 else 0.0
  | number x => x
  | string s => readNumber s.toList
  | _ => Binary64.nan

/-- The place in a sequence that a number stands for.  Places have at most 64 bits. -/
def slot? (x : Float) : Option Nat :=
  match Binary64.whole? x with
  | some (.ofNat n) => if n < Nat.pow 2 64 then some n else none
  | _ => none

end Value

end TraceLoom
