import TraceLoom.Script.Syntax

/-!
Why a program cannot be instrumented.
-/

namespace TraceLoom

open Script (Position AssignOp)

/-- Forms of statements and expressions that cannot be traced. -/
inductive Untraceable where
  | severalDeclarators
  | patternDeclaration
  | plainBreak
  | chainedCall
  /-- A call of something that is neither a name nor a property. -/
  | callOf (expression : String)
  | updateOfProperty
  | compoundAssign (op : AssignOp)
  | bareCall
  | assignTo (name : String)
  | chainedAssign
  | capturedIndexWrite
  | assignToExpr (expression : String)
  /-- An expression that has to be a statement of its own. -/
  | nested (expression : String)
  deriving DecidableEq, Repr

def Untraceable.describe : Untraceable → String
  | severalDeclarators => "declaration with several declarators"
  | patternDeclaration => "destructuring declaration"
  | plainBreak => "break without a label"
  | chainedCall => "chained member call"
  | callOf expression => "call of a " ++ expression
  | updateOfProperty => "update of a non-identifier"
  | compoundAssign op => "compound assignment `" ++ op.symbol ++ "`"
  | bareCall => "call outside of a declaration"
  | assignTo name => "assignment to `" ++ name ++ "`"
  | chainedAssign => "chained member assignment"
  | capturedIndexWrite => "computed member write to a captured variable"
  | assignToExpr expression => "assignment to a " ++ expression
  | nested expression => expression ++ " in traced expression"

inductive InstrumentError where
  | unsupported (form : Untraceable) (pos : Position)
  | unbound (name : String) (pos : Position)
  /-- The branches of a conditional disagree on whose name it is. -/
  | captureConflict (name : String) (pos : Position)
  | reservedBinding (name : String) (pos : Position)
  | labelNotOpen (label : String) (pos : Position)
  | returnOutsideFunction (pos : Position)
  deriving DecidableEq, Repr

def InstrumentError.message : InstrumentError → String
  | unsupported form pos => "unsupported syntax at " ++ toString pos ++ ": " ++ form.describe
  | unbound name pos =>
    "`" ++ name ++ "` at " ++ toString pos ++ " is not bound anywhere in the program"
  | captureConflict name pos =>
    "`" ++ name ++ "` at " ++ toString pos ++
      " is both captured and bound locally in the same function"
  | reservedBinding name pos =>
    "`" ++ name ++ "` at " ++ toString pos ++ " is reserved for the instrumented program"
  | labelNotOpen label pos =>
    "break at " ++ toString pos ++ " targets label `" ++ label ++ "`, which is not open"
  | returnOutsideFunction pos => "return at " ++ toString pos ++ " is outside of any function"

end TraceLoom
