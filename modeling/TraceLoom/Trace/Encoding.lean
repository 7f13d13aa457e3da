import TraceLoom.Json.Basic
import TraceLoom.Numeric.Binary64
import TraceLoom.Trace.Basic

/-!
Traces as JSON.  Every node is an object with its kind first; reading gives back the tree that
was written.
-/

namespace TraceLoom.Trace

open TraceLoom.Numeric
open Script (BinaryOp UnaryOp)

namespace Encoding

/-! ## Writing -/

/-- An object whose first field says its kind. -/
def tagged (kind : String) (fields : List (String × Json)) : Json :=
  .object (("kind", .string kind) :: fields)

/-- A number; null stands for infinities and not-a-number. -/
def double (x : Float) : Json :=
  if (Binary64.magnitude? x).isSome then .number x else .null

mutual

def node : Trace → Json
  | .hole => tagged "unknown" []
  | .number x => tagged "number" [("value", double x)]
  | .boolean b => tagged "boolean" [("value", .boolean b)]
  | .string s => tagged "string" [("value", .string s)]
  | .undefined => tagged "undefined" []
  | .name n => tagged "identifier" [("name", .string n)]
  | .captured t field => tagged "from" [("exp", node t), ("field", .string field)]
  | .property t field => tagged "get" [("exp", node t), ("field", .string field)]
  | .binary op l r => tagged "binop" [("op", .string op.symbol), ("e1", node l), ("e2", node r)]
  | .unary op t => tagged "op1" [("op", .string op.symbol), ("e", node t)]
  | .bind n t => tagged "let" [("name", .string n), ("named", node t)]
  | .assign x t => tagged "set" [("name", target x), ("named", node t)]
  | .block b => tagged "block" [("body", .array (nodes b))]
  | .ifElse c t e =>
    tagged "if" [("cond", node c), ("truePart", .array (nodes t)), ("falsePart", .array (nodes e))]
  | .whileDo c b => tagged "while" [("cond", node c), ("body", .array (nodes b))]
  | .callback event arg params record b =>
    tagged "callback" [("event", .string event), ("eventArg", node arg),
      ("callbackArgs", .array (params.map .string)), ("clos", node record),
      ("body", .array (nodes b))]
  | .label n b => tagged "label" [("name", .string n), ("body", .array (nodes b))]
  | .breakTo n t => tagged "break" [("name", .string n), ("value", node t)]
  | .closure fs => tagged "clos" [("tenv", .object (fields fs))]
  | .object fs => tagged "object" [("properties", .object (fields fs))]
  | .array ts => tagged "array" [("exps", .array (nodes ts))]
  | .index t i => tagged "index" [("exp", node t), ("index", node i)]
  | .methodCall t m ts =>
    tagged "methodCall" [("e", node t), ("method", .string m),
      ("methodCallArgs", .array (nodes ts))]
  | .primitive event ts =>
    tagged "primApp" [("event", .string event), ("eventArgs", .array (nodes ts))]
termination_by structural t => t

def target : Target → Json
  | .name n => tagged "identifier" [("name", .string n)]
  | .captured t field => tagged "from" [("exp", node t), ("field", .string field)]
  | .index t i => tagged "index" [("exp", node t), ("index", node i)]
termination_by structural t => t

def nodes : List Trace → List Json
  | [] => []
  | t :: ts => node t :: nodes ts
termination_by structural ts => ts

def fields : List (String × Trace) → List (String × Json)
  | [] => []
  | (key, t) :: fs => (key, node t) :: fields fs
termination_by structural fs => fs

end

/-! ## Reading -/

def double? : Json → Option Float
  | .integer n => some (Binary64.ofInt n)
  | .number x => some x
  | _ => none

mutual

/-- Reads a tree that is at most `fuel` deep. -/
def node? (fuel : Nat) (j : Json) : Option Trace :=
  match fuel with
  | 0 => none
  | fuel + 1 => do
    let part (name : String) : Option Trace := (j.field? name).bind (node? fuel)
    let body (name : String) : Option (List Trace) := (j.items? name).bind (nodes? fuel)
    let record (name : String) : Option (List (String × Trace)) := do
      let fields ← (j.field? name).bind Json.object?
      return Fields.ofPairs (← fields? fuel fields)
    match ← j.text? "kind" with
    | "unknown" => return .hole
    | "number" => return .number (← (j.field? "value").bind double?)
    | "boolean" => return .boolean (← (j.field? "value").bind Json.boolean?)
    | "string" => return .string (← j.text? "value")
    | "undefined" => return .undefined
    | "identifier" => return .name (← j.text? "name")
    | "from" => return .captured (← part "exp") (← j.text? "field")
    | "get" => return .property (← part "exp") (← j.text? "field")
    | "binop" =>
      return .binary (← (j.text? "op").bind BinaryOp.ofSymbol?) (← part "e1") (← part "e2")
    | "op1" => return .unary (← (j.text? "op").bind UnaryOp.ofSymbol?) (← part "e")
    | "let" => return .bind (← j.text? "name") (← part "named")
    | "set" => return .assign (← (j.field? "name").bind (target? fuel)) (← part "named")
    | "block" => return .block (← body "body")
    | "if" => return .ifElse (← part "cond") (← body "truePart") (← body "falsePart")
    | "while" => return .whileDo (← part "cond") (← body "body")
    | "callback" =>
      let params ← j.items? "callbackArgs"
      return .callback (← j.text? "event") (← part "eventArg") (← params.mapM Json.string?)
        (← part "clos") (← body "body")
    | "label" => return .label (← j.text? "name") (← body "body")
    | "break" => return .breakTo (← j.text? "name") (← part "value")
    | "clos" => return .closure (← record "tenv")
    | "object" => return .object (← record "properties")
    | "array" => return .array (← body "exps")
    | "index" => return .index (← part "exp") (← part "index")
    | "methodCall" =>
      return .methodCall (← part "e") (← j.text? "method") (← body "methodCallArgs")
    | "primApp" => return .primitive (← j.text? "event") (← body "eventArgs")
    | _ => none
termination_by structural fuel

def target? (fuel : Nat) (j : Json) : Option Target :=
  match fuel with
  | 0 => none
  | fuel + 1 => do
    let part (name : String) : Option Trace := (j.field? name).bind (node? fuel)
    match ← j.text? "kind" with
    | "identifier" => return .name (← j.text? "name")
    | "from" => return .captured (← part "exp") (← j.text? "field")
    | "index" => return .index (← part "exp") (← part "index")
    | _ => none
termination_by structural fuel

def nodes? (fuel : Nat) (items : List Json) : Option (List Trace) :=
  match fuel with
  | 0 => none
  | fuel + 1 => items.mapM (node? fuel)
termination_by structural fuel

def fields? (fuel : Nat) (fields : List (String × Json)) : Option (List (String × Trace)) :=
  match fuel with
  | 0 => none
  | fuel + 1 => fields.mapM fun field => (node? fuel field.2).map (field.1, ·)
termination_by structural fuel

end

end Encoding

def toJson (t : Trace) : Json :=
  Encoding.node t

def targetJson (t : Target) : Json :=
  Encoding.target t

def ofJson? (j : Json) : Option Trace :=
  Encoding.node? (2 * j.depth + 1) j

/-- The assignable location with a given JSON form. -/
def targetOfJson? (j : Json) : Option Target :=
  Encoding.target? (2 * j.depth + 1) j

end TraceLoom.Trace
