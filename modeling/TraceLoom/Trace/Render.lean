import TraceLoom.Numeric.Notation
import TraceLoom.Script.Printer
import TraceLoom.Text.Quoted
import TraceLoom.Trace.Basic

/-!
Traces as text for readers.  A hole is a question mark; statement lists stand in braces, one
statement a line, indented by two spaces a level.
-/

namespace TraceLoom.Trace

open TraceLoom.Numeric TraceLoom.Text

namespace Render

def indent (depth : Nat) : String :=
  Script.Printer.indent depth

def operand (t : Trace) (text : String) : String :=
  match t with
  | .binary .. => "(" ++ text ++ ")"
  | _ => text

/-- What ends a node that stands as a statement. -/
def terminator : Trace → String
  | .hole | .bind .. | .assign .. | .block _ | .ifElse .. | .whileDo .. | .callback ..
  | .label .. | .breakTo .. => ""
  | _ => ";"

def braces (depth : Nat) (lines : List String) : String :=
  " \x7b\n" ++ String.join (lines.map (· ++ "\n")) ++ indent depth ++ "\x7d"

mutual

/-- The text of a node; statement lists in it are `depth + 1` levels deep. -/
def node (depth : Nat) : Trace → String
  | .hole => "?"
  | .number x => Notation.literal x
  | .boolean b => if b then "true" else "false"
  | .string s => Quoted.quote s
  | .undefined => "undefined"
  | .name n => n
  | .captured record field => operand record (node 0 record) ++ "->" ++ field
  | .property t field => operand t (node 0 t) ++ "." ++ field
  | .binary op left right =>
    operand left (node 0 left) ++ " " ++ op.symbol ++ " " ++ operand right (node 0 right)
  | .unary op e =>
    let gap := if op.symbol.length > 1 then " " else ""
    op.symbol ++ gap ++ operand e (node 0 e)
  | .bind n (.block body) => "let " ++ n ++ " =" ++ braces depth (lines (depth + 1) body) ++ ";"
  | .bind n value => "let " ++ n ++ " = " ++ node 0 value ++ ";"
  | .assign t value => target t ++ " = " ++ node 0 value ++ ";"
  | .block body => braces depth (lines (depth + 1) body)
  | .ifElse test whenTrue whenFalse =>
    "if (" ++ node 0 test ++ ")" ++ braces depth (lines (depth + 1) whenTrue) ++
      " else" ++ braces depth (lines (depth + 1) whenFalse)
  | .whileDo test body => "while (" ++ node 0 test ++ ")" ++ braces depth (lines (depth + 1) body)
  | .callback event arg params record body =>
    "callback " ++ event ++ "(" ++ node 0 arg ++ ", " ++ node 0 record ++ ") (" ++
      ", ".intercalate params ++ ")" ++ braces depth (lines (depth + 1) body)
  | .label n body => n ++ ":" ++ braces depth (lines (depth + 1) body)
  | .breakTo n value => "break " ++ n ++ " " ++ node 0 value ++ ";"
  | .closure fs => "clos \x7b " ++ ", ".intercalate (fields fs) ++ " \x7d"
  | .object fs => "\x7b " ++ ", ".intercalate (fields fs) ++ " \x7d"
  | .array items => "[" ++ ", ".intercalate (nodes items) ++ "]"
  | .index t i => operand t (node 0 t) ++ "[" ++ node 0 i ++ "]"
  | .methodCall t method args =>
    operand t (node 0 t) ++ "." ++ method ++ "(" ++ ", ".intercalate (nodes args) ++ ")"
  | .primitive event args => event ++ "(" ++ ", ".intercalate (nodes args) ++ ")"
termination_by structural t => t

def target : Target → String
  | .name n => n
  | .captured record field => operand record (node 0 record) ++ "->" ++ field
  | .index t i => operand t (node 0 t) ++ "[" ++ node 0 i ++ "]"
termination_by structural t => t

def nodes : List Trace → List String
  | [] => []
  | t :: ts => node 0 t :: nodes ts
termination_by structural ts => ts

def fields : List (String × Trace) → List String
  | [] => []
  | (key, t) :: ts => (key ++ ": " ++ node 0 t) :: fields ts
termination_by structural ts => ts

def lines (depth : Nat) : List Trace → List String
  | [] => []
  | t :: ts => (indent depth ++ node depth t ++ terminator t) :: lines depth ts
termination_by structural ts => ts

end

end Render

/-- The text of a trace; the statements of a block at the root stand without braces. -/
def render : Trace → String
  | .block body => "\n".intercalate (Render.lines 0 body)
  | t => Render.node 0 t ++ Render.terminator t

def renderTarget (t : Target) : String :=
  Render.target t

end TraceLoom.Trace
