import TraceLoom.Json.Basic
import TraceLoom.Numeric.Binary64
import TraceLoom.Script.Syntax

/-!
Syntax trees as JSON.  A node is an object with a kind and a position; a kind is an object with
the name of the construct as its only field, or that name alone when the construct has no parts.
Reading gives back what was written.
-/

namespace TraceLoom.Script

open TraceLoom.Numeric

namespace BinaryOp

def tag : BinaryOp → String
  | add => "Add"
  | sub => "Sub"
  | mul => "Mul"
  | div => "Div"
  | mod => "Mod"
  | strictEq => "StrictEq"
  | strictNe => "StrictNe"
  | looseEq => "LooseEq"
  | looseNe => "LooseNe"
  | lt => "Lt"
  | gt => "Gt"
  | le => "Le"
  | ge => "Ge"
  | and => "And"
  | or => "Or"

def ofTag? (tag : String) : Option BinaryOp :=
  all.find? fun op => op.tag == tag

theorem ofTag?_tag (op : BinaryOp) : ofTag? op.tag = some op := by
  cases op <;> decide

end BinaryOp

namespace UnaryOp

def tag : UnaryOp → String
  | not => "Not"
  | neg => "Neg"
  | plus => "Plus"
  | typeof => "Typeof"
  | void => "Void"

def ofTag? (tag : String) : Option UnaryOp :=
  all.find? fun op => op.tag == tag

theorem ofTag?_tag (op : UnaryOp) : ofTag? op.tag = some op := by
  cases op <;> decide

end UnaryOp

namespace UpdateOp

def tag : UpdateOp → String
  | increment => "Increment"
  | decrement => "Decrement"

def ofTag? : String → Option UpdateOp
  | "Increment" => some increment
  | "Decrement" => some decrement
  | _ => none

end UpdateOp

namespace AssignOp

def tag : AssignOp → String
  | assign => "Assign"
  | addAssign => "AddAssign"
  | subAssign => "SubAssign"
  | mulAssign => "MulAssign"
  | divAssign => "DivAssign"

def ofTag? (tag : String) : Option AssignOp :=
  [assign, addAssign, subAssign, mulAssign, divAssign].find? fun op => op.tag == tag

end AssignOp

namespace DeclKind

def tag : DeclKind → String
  | ofLet => "Let"
  | ofConst => "Const"
  | ofVar => "Var"

def ofTag? (tag : String) : Option DeclKind :=
  [ofLet, ofConst, ofVar].find? fun kind => kind.tag == tag

end DeclKind

namespace Encoding

/-! ## Writing -/

def position (pos : Position) : Json :=
  .object [("line", .integer pos.line), ("column", .integer pos.column)]

def node (kind : Json) (pos : Position) : Json :=
  .object [("kind", kind), ("span", position pos)]

def tagged (tag : String) (content : Json) : Json :=
  .object [(tag, content)]

def texts (items : List String) : Json :=
  .array (items.map .string)

def optional (text : Option String) : Json :=
  match text with
  | some text => .string text
  | none => .null

def pattern : Pattern → Json
  | .name n => tagged "Identifier" (.string n)
  | .array ns => tagged "Array" (texts ns)

mutual

def expr : Expr → Json
  | .number pos x => node (tagged "Number" (.number x)) pos
  | .string pos s => node (tagged "String" (.string s)) pos
  | .boolean pos b => node (tagged "Boolean" (.boolean b)) pos
  | .null pos => node (.string "Null") pos
  | .name pos n => node (tagged "Identifier" (.string n)) pos
  | .array pos items => node (tagged "Array" (.array (exprs items))) pos
  | .object pos entries => node (tagged "Object" (.array (entryList entries))) pos
  | .function pos name params body =>
    node (tagged "Function" (.object
      [("name", optional name), ("params", texts params), ("body", .array (stmts body))])) pos
  | .member pos object property =>
    node (tagged "Member" (.object [("object", expr object), ("property", .string property)])) pos
  | .index pos object index =>
    node (tagged "Index" (.object [("object", expr object), ("index", expr index)])) pos
  | .call pos callee args =>
    node (tagged "Call" (.object [("callee", expr callee), ("args", .array (exprs args))])) pos
  | .unary pos op operand =>
    node (tagged "Unary" (.object [("op", .string op.tag), ("operand", expr operand)])) pos
  | .binary pos op left right =>
    node (tagged "Binary" (.object
      [("op", .string op.tag), ("left", expr left), ("right", expr right)])) pos
  | .assign pos op target value =>
    node (tagged "Assign" (.object
      [("op", .string op.tag), ("target", expr target), ("value", expr value)])) pos
  | .update pos op isPrefix target =>
    node (tagged "Update" (.object
      [("op", .string op.tag), ("prefix", .boolean isPrefix), ("target", expr target)])) pos
termination_by structural e => e

def exprs : List Expr → List Json
  | [] => []
  | e :: es => expr e :: exprs es
termination_by structural es => es

def entryList : List (String × Expr) → List Json
  | [] => []
  | (key, e) :: es => .array [.string key, expr e] :: entryList es
termination_by structural es => es

def stmt : Stmt → Json
  | .declare pos kind ds =>
    node (tagged "Declare" (.object
      [("kind", .string kind.tag), ("declarations", .array (declarators ds))])) pos
  | .function pos name params body =>
    node (tagged "Function" (.object
      [("name", .string name), ("params", texts params), ("body", .array (stmts body))])) pos
  | .ifElse pos test consequent none =>
    node (tagged "If" (.object
      [("test", expr test), ("consequent", .array (stmts consequent)), ("alternate", .null)])) pos
  | .ifElse pos test consequent (some alternate) =>
    node (tagged "If" (.object
      [("test", expr test), ("consequent", .array (stmts consequent)),
        ("alternate", .array (stmts alternate))])) pos
  | .whileDo pos test body =>
    node (tagged "While" (.object [("test", expr test), ("body", .array (stmts body))])) pos
  | .labeled pos label body =>
    node (tagged "Labeled" (.object
      [("label", .string label), ("body", .array (stmts body))])) pos
  | .breakTo pos label => node (tagged "Break" (.object [("label", optional label)])) pos
  | .returnWith pos none => node (tagged "Return" (.object [("value", .null)])) pos
  | .returnWith pos (some e) => node (tagged "Return" (.object [("value", expr e)])) pos
  | .block pos body => node (tagged "Block" (.array (stmts body))) pos
  | .expr pos e => node (tagged "Expr" (expr e)) pos
termination_by structural s => s

def declarators : List (Pattern × Option Expr) → List Json
  | [] => []
  | (target, none) :: ds =>
    .object [("target", pattern target), ("init", .null)] :: declarators ds
  | (target, some e) :: ds =>
    .object [("target", pattern target), ("init", expr e)] :: declarators ds
termination_by structural ds => ds

def stmts : List Stmt → List Json
  | [] => []
  | s :: ss => stmt s :: stmts ss
termination_by structural ss => ss

end

/-! ## Reading -/

def natural? : Json → Option Nat
  | .integer n => if n ≥ 0 then some n.toNat else none
  | _ => none

def double? : Json → Option Float
  | .integer n => some (Binary64.ofInt n)
  | .number x => some x
  | _ => none

def position? (j : Json) : Option Position := do
  let line ← (j.field? "line").bind natural?
  let column ← (j.field? "column").bind natural?
  return ⟨line, column⟩

def texts? (j : Json) : Option (List String) :=
  j.array?.bind fun items => items.mapM Json.string?

def optional? : Json → Option (Option String)
  | .null => some none
  | .string s => some (some s)
  | _ => none

def pattern? : Json → Option Pattern
  | .object [("Identifier", .string n)] => some (.name n)
  | .object [("Array", names)] => (texts? names).map .array
  | _ => none

/-- A text under a name; the tags of operators and patterns are read through it. -/
def tagField? {α : Type} (ofTag? : String → Option α) (j : Json) (name : String) : Option α :=
  (j.text? name).bind ofTag?

mutual

/-- Reads an expression whose tree is at most `fuel` deep. -/
def expr? (fuel : Nat) (j : Json) : Option Expr := do
  match fuel with
  | 0 => none
  | fuel + 1 =>
    let pos ← (j.field? "span").bind position?
    match ← j.field? "kind" with
    | .string "Null" => return .null pos
    | .object [(tag, content)] =>
      let part (name : String) : Option Expr := (content.field? name).bind (expr? fuel)
      match tag with
      | "Number" => return .number pos (← double? content)
      | "String" => return .string pos (← content.string?)
      | "Boolean" => return .boolean pos (← content.boolean?)
      | "Identifier" => return .name pos (← content.string?)
      | "Array" => return .array pos (← exprs? fuel (← content.array?))
      | "Object" => return .object pos (← entries? fuel (← content.array?))
      | "Function" =>
        return .function pos (← ((content.field? "name").getD .null |> optional?))
          (← (content.field? "params").bind texts?) (← stmts? fuel (← content.items? "body"))
      | "Member" => return .member pos (← part "object") (← content.text? "property")
      | "Index" => return .index pos (← part "object") (← part "index")
      | "Call" => return .call pos (← part "callee") (← exprs? fuel (← content.items? "args"))
      | "Unary" => return .unary pos (← tagField? UnaryOp.ofTag? content "op") (← part "operand")
      | "Binary" =>
        return .binary pos (← tagField? BinaryOp.ofTag? content "op") (← part "left")
          (← part "right")
      | "Assign" =>
        return .assign pos (← tagField? AssignOp.ofTag? content "op") (← part "target")
          (← part "value")
      | "Update" =>
        return .update pos (← tagField? UpdateOp.ofTag? content "op")
          (← (content.field? "prefix").bind Json.boolean?) (← part "target")
      | _ => none
    | _ => none

def exprs? (fuel : Nat) (items : List Json) : Option (List Expr) :=
  match fuel with
  | 0 => none
  | fuel + 1 => items.mapM (expr? fuel)

def entries? (fuel : Nat) (items : List Json) : Option (List (String × Expr)) :=
  match fuel with
  | 0 => none
  | fuel + 1 => items.mapM fun
    | .array [.string key, value] => (expr? fuel value).map (key, ·)
    | _ => none

/-- Reads a statement whose tree is at most `fuel` deep. -/
def stmt? (fuel : Nat) (j : Json) : Option Stmt := do
  match fuel with
  | 0 => none
  | fuel + 1 =>
    let pos ← (j.field? "span").bind position?
    match ← j.field? "kind" with
    | .object [(tag, content)] =>
      let body? (name : String) : Option (List Stmt) := (content.items? name).bind (stmts? fuel)
      match tag with
      | "Declare" =>
        return .declare pos (← tagField? DeclKind.ofTag? content "kind")
          (← declarators? fuel (← content.items? "declarations"))
      | "Function" =>
        return .function pos (← content.text? "name") (← (content.field? "params").bind texts?)
          (← body? "body")
      | "If" =>
        let test ← (content.field? "test").bind (expr? fuel)
        let consequent ← body? "consequent"
        match content.field? "alternate" with
        | none | some .null => return .ifElse pos test consequent none
        | some _ => return .ifElse pos test consequent (some (← body? "alternate"))
      | "While" =>
        return .whileDo pos (← (content.field? "test").bind (expr? fuel)) (← body? "body")
      | "Labeled" => return .labeled pos (← content.text? "label") (← body? "body")
      | "Break" => return .breakTo pos (← ((content.field? "label").getD .null |> optional?))
      | "Return" =>
        match content.field? "value" with
        | none | some .null => return .returnWith pos none
        | some value => return .returnWith pos (some (← expr? fuel value))
      | "Block" => return .block pos (← stmts? fuel (← content.array?))
      | "Expr" => return .expr pos (← expr? fuel content)
      | _ => none
    | _ => none

def declarators? (fuel : Nat) (items : List Json) : Option (List (Pattern × Option Expr)) :=
  match fuel with
  | 0 => none
  | fuel + 1 => items.mapM fun j => do
    let target ← (j.field? "target").bind pattern?
    match j.field? "init" with
    | none | some .null => return (target, none)
    | some value => return (target, some (← expr? fuel value))

def stmts? (fuel : Nat) (items : List Json) : Option (List Stmt) :=
  match fuel with
  | 0 => none
  | fuel + 1 => items.mapM (stmt? fuel)

end

end Encoding

def Program.toJson (program : Program) : Json :=
  .array (Encoding.stmts program)

def Program.ofJson? (items : List Json) : Option Program :=
  Encoding.stmts? (2 * Json.depthItems items + 2) items

end TraceLoom.Script
