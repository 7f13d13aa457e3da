import TraceLoom.Fields
import TraceLoom.Script.Operator

/-!
Trace trees.  A trace says what the executions of a program did so far: its statements, the
branches taken, the callbacks registered, and in place of everything no execution has reached a
hole.  In a list of statements a hole stands last and means that more may follow.
-/

namespace TraceLoom

open Script (BinaryOp UnaryOp)

mutual

inductive Trace where
  /-- Not observed yet. -/
  | hole
  | number (value : Float)
  | boolean (value : Bool)
  | string (value : String)
  | undefined
  | name (name : String)
  /-- A field of a closure record. -/
  | captured (closure : Trace) (field : String)
  /-- A property of an object, named in the program text. -/
  | property (object : Trace) (field : String)
  | binary (op : BinaryOp) (left : Trace) (right : Trace)
  | unary (op : UnaryOp) (operand : Trace)
  /-- A variable with its value; a block as value holds the statements of a call. -/
  | bind (name : String) (value : Trace)
  | assign (target : Target) (value : Trace)
  | block (body : List Trace)
  | ifElse (test : Trace) (whenTrue : List Trace) (whenFalse : List Trace)
  | whileDo (test : Trace) (body : List Trace)
  /-- A callback registered for an event, with its parameters and closure record. -/
  | callback (event : String) (arg : Trace) (params : List String) (closure : Trace)
      (body : List Trace)
  | label (name : String) (body : List Trace)
  | breakTo (name : String) (value : Trace)
  /-- A closure record: captured names with what they stand for. -/
  | closure (fields : List (String × Trace))
  | object (fields : List (String × Trace))
  | array (items : List Trace)
  | index (object : Trace) (index : Trace)
  | methodCall (object : Trace) (method : String) (args : List Trace)
  /-- An operation of the host. -/
  | primitive (event : String) (args : List Trace)
  deriving Inhabited

/-- What can stand on the left of an assignment. -/
inductive Target where
  | name (name : String)
  | captured (closure : Trace) (field : String)
  | index (object : Trace) (index : Trace)
  deriving Inhabited

end

inductive Part where
  | whenTrue
  | whenFalse
  /-- The body of a loop, a label or a callback. -/
  | body
  /-- The statements of a call, bound to its result. -/
  | bound
  deriving DecidableEq, Repr

namespace Target

/-- The tree that reads what the target writes. -/
def toTrace : Target → Trace
  | .name n => .name n
  | .captured record field => .captured record field
  | .index t i => .index t i

end Target

namespace Trace

/-- The kind of a node, in the words of messages and of the JSON form. -/
def kind : Trace → String
  | hole => "unknown"
  | number _ => "number"
  | boolean _ => "boolean"
  | string _ => "string"
  | undefined => "undefined"
  | name _ => "identifier"
  | captured .. => "from"
  | property .. => "get"
  | binary .. => "binop"
  | unary .. => "op1"
  | bind .. => "let"
  | assign .. => "set"
  | block _ => "block"
  | ifElse .. => "if"
  | whileDo .. => "while"
  | callback .. => "callback"
  | label .. => "label"
  | breakTo .. => "break"
  | closure _ => "clos"
  | object _ => "object"
  | array _ => "array"
  | index .. => "index"
  | methodCall .. => "methodCall"
  | primitive .. => "primApp"

def isHole : Trace → Bool
  | hole => true
  | _ => false

/-- The target that a tree reads; a named property is written like an index with a constant
key. -/
def toTarget? : Trace → Option Target
  | .name n => some (.name n)
  | .captured record field => some (.captured record field)
  | .index t i => some (.index t i)
  | .property t field => some (.index t (.string field))
  | _ => none

theorem toTarget?_toTrace (target : Target) : target.toTrace.toTarget? = some target := by
  cases target <;> rfl

/-- The statement list of a node, if it has that part. -/
def part? : Part → Trace → Option (List Trace)
  | .whenTrue, ifElse _ body _ => some body
  | .whenFalse, ifElse _ _ body => some body
  | .body, whileDo _ body => some body
  | .body, label _ body => some body
  | .body, callback _ _ _ _ body => some body
  | .bound, bind _ (block body) => some body
  | _, _ => none

/-- Replaces the statement list of a node; nothing changes if it lacks that part. -/
def setPart (part : Part) (body : List Trace) : Trace → Trace
  | .ifElse test yes no =>
    match part with
    | .whenTrue => .ifElse test body no
    | .whenFalse => .ifElse test yes body
    | _ => .ifElse test yes no
  | .whileDo test old => if part = .body then .whileDo test body else .whileDo test old
  | .label n old => if part = .body then .label n body else .label n old
  | .callback event arg params record old =>
    if part = .body then .callback event arg params record body
    else .callback event arg params record old
  | .bind n (.block old) => if part = .bound then .bind n (.block body) else .bind n (.block old)
  | other => other

theorem part?_setPart {part : Part} {old : List Trace} {t : Trace} (h : t.part? part = some old)
    (body : List Trace) : (t.setPart part body).part? part = some body := by
  unfold part? at h
  split at h <;> simp_all [setPart, part?]

end Trace

end TraceLoom
