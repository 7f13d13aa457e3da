import TraceLoom.Script.Syntax

/-!
Why a text is no script, or no script that can be traced.
-/

namespace TraceLoom.Script

/-- Constructs that are recognised only to be refused, and places from which nothing
can be lifted. -/
inductive Construct where
  | forLoop | doLoop | switchCase | tryCatch | throwing | continuing
  | objectPattern | patternParameter | conditional | thisValue | newObject
  | callInLoopTest | callInAssignTarget | callInUpdateTarget | callInShortCircuit
  | nestedAssign | nestedUpdate
  deriving DecidableEq, Repr

def Construct.describe : Construct → String
  | forLoop => "for statement"
  | doLoop => "do-while statement"
  | switchCase => "switch statement"
  | tryCatch => "try statement"
  | throwing => "throw statement"
  | continuing => "continue statement"
  | objectPattern => "object destructuring"
  | patternParameter => "destructuring parameter"
  | conditional => "conditional expression"
  | thisValue => "this expression"
  | newObject => "new expression"
  | callInLoopTest => "call in loop condition"
  | callInAssignTarget => "call in assignment target"
  | callInUpdateTarget => "call in update target"
  | callInShortCircuit => "call in short-circuit operand"
  | nestedAssign => "assignment inside expression"
  | nestedUpdate => "update inside expression"

inductive ParseError where
  /-- The text does not follow the grammar. -/
  | malformed
  | unsupported (construct : Construct) (pos : Position)
  /-- A name with a leading dollar sign; these are kept for generated names. -/
  | reservedName (name : String) (pos : Position)
  | invalidTarget (pos : Position)
  deriving DecidableEq, Repr

def ParseError.message : ParseError → String
  | malformed => "syntax error"
  | unsupported construct pos =>
    "unsupported syntax at " ++ toString pos ++ ": " ++ construct.describe
  | reservedName name pos =>
    "identifier `" ++ name ++ "` at " ++ toString pos ++ " uses the reserved `$` prefix"
  | invalidTarget pos => "invalid assignment target at " ++ toString pos

/-- The meaning of a phrase that follows the grammar, which may still be refused. -/
abbrev Reading := Except ParseError

end TraceLoom.Script
