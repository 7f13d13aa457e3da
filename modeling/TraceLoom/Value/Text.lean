import TraceLoom.Text.Diagnostic
import TraceLoom.Trace.Encoding
import TraceLoom.Trace.Render
import TraceLoom.Value.Store

/-!
Values as text, as JSON, and from JSON.  An array or object that does not contain itself nests less
deep than there can be places, which bounds every descent whatever else is in the store.
-/

namespace TraceLoom

open Numeric Text

namespace Native

def describe : Native → String
  | require => "Require"
  | console method => "Console(" ++ Diagnostic.quote method ++ ")"
  | builder name => "Builder(" ++ Diagnostic.quote name ++ ")"
  | trace operation => "Trace(" ++ Diagnostic.quote operation ++ ")"
  | host event => "Host(" ++ event.name.capitalize ++ ")"
  | respond => "Respond"

end Native

namespace Store

/-- No arrays and objects nest this deep: places have at most 64 bits. -/
def maxDepth : Nat :=
  Nat.pow 2 64

/-! ## Text -/

/-- The text of a value whose arrays nest at most `depth` deep. -/
def textWithin (s : Store) : Nat → Value → String
  | 0, _ => ""
  | depth + 1, v =>
    match v with
    | .undefined => "undefined"
    | .null => "null"
    | .boolean b => if b then "true" else "false"
    | .number x => Notation.value x
    | .string t => t
    | .array place => ",".intercalate ((s.items place).toList.map fun item =>
        if item.isNullish then "" else textWithin s depth item)
    | .object _ => "[object Object]"
    | .function _ closure => "function " ++ closure.name.getD "" ++ "() \x7b ... \x7d"
    | .native _ => "function () \x7b [native code] \x7d"
    | .trace _ t => t.render

def text (s : Store) (v : Value) : String :=
  s.textWithin maxDepth v

@[simp] theorem text_string (s : Store) (t : String) : s.text (.string t) = t := rfl

/-- The look of a value whose arrays and objects nest at most `depth` deep. -/
def lookWithin (s : Store) : Nat → Value → String
  | 0, _ => ""
  | depth + 1, v =>
    match v with
    | .string t => "'" ++ t ++ "'"
    | .array place =>
      match (s.items place).toList with
      | [] => "[]"
      | items => "[ " ++ ", ".intercalate (items.map (lookWithin s depth)) ++ " ]"
    | .object place =>
      match s.properties place with
      | [] => "\x7b\x7d"
      | fields =>
        "\x7b " ++ ", ".intercalate (fields.map fun field =>
          field.1 ++ ": " ++ lookWithin s depth field.2) ++ " \x7d"
    | .function _ closure =>
      match closure.name with
      | some name => "[Function: " ++ name ++ "]"
      | none => "[Function (anonymous)]"
    | other => s.text other

/-- A value as part of another one is shown. -/
def look (s : Store) (v : Value) : String :=
  s.lookWithin maxDepth v

/-- A value as the console shows it: like a part, but a text stands by itself. -/
def inspect (s : Store) : Value → String
  | .string t => t
  | v => s.look v

def diagnose (s : Store) : Value → String
  | .trace _ t => "Exp(" ++ t.render ++ ")"
  | .native n => "Native(" ++ n.describe ++ ")"
  | v => s.look v

/-- A scope as a diagnosis shows it: its own names in order. -/
def diagnoseScope (s : Store) (env : Environment) : String :=
  let names := (Fields.sort (s.bindings env.own)).keys
  "Environment \x7b names: " ++ Diagnostic.quoteAll names ++ " \x7d"

/-! ## JSON -/

/-- The JSON form of a value whose arrays and objects nest at most `depth` deep. -/
def jsonWithin (s : Store) : Nat → Value → Json
  | 0, _ => .null
  | depth + 1, v =>
    match v with
    | .boolean b => .boolean b
    | .number x => if (Binary64.magnitude? x).isSome then .number x else .null
    | .string t => .string t
    | .array place => .array ((s.items place).toList.map (jsonWithin s depth))
    | .object place => .object (Fields.sort ((s.properties place).mapValues (jsonWithin s depth)))
    | .trace _ t => t.toJson.canonical
    | .undefined | .null | .function .. | .native _ => .null

/-- The JSON form of a value.  What has none becomes null. -/
def toJson (s : Store) (v : Value) : Json :=
  s.jsonWithin maxDepth v

mutual

/-- The value of a JSON form, in new arrays and objects. -/
def ofJson : Json → Store → Value × Store
  | .null, s => (.null, s)
  | .boolean b, s => (.boolean b, s)
  | .integer n, s => (.number (Binary64.ofInt n), s)
  | .number x, s => (.number x, s)
  | .string t, s => (.string t, s)
  | .array js, s =>
    let (items, s) := ofJsonItems js s
    newArray items.toArray s
  | .object fs, s =>
    let (fields, s) := ofJsonFields fs s
    newObject (Fields.sort fields) s
termination_by structural j => j

def ofJsonItems : List Json → Store → List Value × Store
  | [], s => ([], s)
  | j :: js, s =>
    let (v, s) := ofJson j s
    let (vs, s) := ofJsonItems js s
    (v :: vs, s)
termination_by structural js => js

def ofJsonFields : List (String × Json) → Store → List (String × Value) × Store
  | [], s => ([], s)
  | (key, j) :: fs, s =>
    let (v, s) := ofJson j s
    let (vs, s) := ofJsonFields fs s
    ((key, v) :: vs, s)
termination_by structural fs => fs

end

end Store

end TraceLoom
