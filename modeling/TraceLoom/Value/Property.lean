import TraceLoom.Text.Units
import TraceLoom.Value.Operator

/-!
Reading and writing the parts of values, and the methods that arrays and texts have by
themselves.
-/

namespace TraceLoom

open Numeric Text

inductive Location where
  | variable (scope : ScopeId) (name : String)
  | item (array : Nat) (index : Nat)
  | property (object : Nat) (name : String)
  deriving DecidableEq, Repr

/-- A method that arrays and texts have by themselves. -/
inductive Method where
  | push (array : Nat)
  | pop (array : Nat)
  | shift (array : Nat)
  | unshift (array : Nat)
  | contains (array : Nat)
  | startsWith (text : String)
  | endsWith (text : String)
  | includes (text : String)
  deriving DecidableEq, Repr

namespace Store

def count (n : Nat) : Value :=
  .number (Binary64.ofNat n)

/-! ## Reading -/

/-- A property by name.  What is missing reads as undefined, but undefined and null themselves
have no properties. -/
def property (s : Store) (v : Value) (name : String) : Except EvalError Value :=
  match v with
  | .array place =>
    .ok (if name = "length" then count (s.items place).size else .undefined)
  | .string t =>
    .ok (if name = "length" then count (units t.toList).length else .undefined)
  | .object place => .ok (((s.properties place).get? name).getD .undefined)
  | .undefined | .null =>
    .error (.typeError ("reading `" ++ name ++ "`") "an object" v.describe)
  | _ => .ok .undefined

/-- A part by a computed key: a number counts the elements of an array or the units of a text,
anything else names a property. -/
def element (s : Store) (v key : Value) : Except EvalError Value :=
  match v, key with
  | .array place, .number x =>
    .ok (((Value.slot? x).bind fun i => (s.items place)[i]?).getD Value.undefined)
  | .string t, .number x =>
    .ok (((Value.slot? x).bind fun i =>
      (units t.toList)[i]?.map fun c => Value.string (String.singleton c)).getD .undefined)
  | v, key => s.property v (s.text key)

/-! ## Writing -/

/-- What an assignment to a variable writes to. -/
def variableLocation (s : Store) (env : Environment) (name : String) : Except EvalError Location :=
  (s.assignable env name).map (Location.variable · name)

/-- What an assignment to a part of a value writes to.  No array grows beyond `limit`
elements. -/
def partLocation (s : Store) (limit : Nat) (v key : Value) : Except EvalError Location :=
  match v, key with
  | .array place, .number x =>
    match Value.slot? x with
    | none => .error (.typeError "array write" "an index" (s.text key))
    | some i => if i < limit then .ok (.item place i) else .error (.arrayLength i limit)
  | .object place, key => .ok (.property place (s.text key))
  | v, key => .error (.typeError ("writing `" ++ s.text key ++ "`") "an object" v.describe)

/-- Writes an element; an array that is too short is filled up with undefined. -/
def setItem (i : Nat) (value : Value) (items : Array Value) : Array Value :=
  if i < items.size then items.setIfInBounds i value
  else (items ++ Array.replicate (i - items.size) Value.undefined).push value

def put (location : Location) (value : Value) (s : Store) : Store :=
  match location with
  | .variable scope name => s.write scope name ⟨value, false⟩
  | .item place i => s.modifyItems place (setItem i value)
  | .property place name => s.modifyProperties place (Fields.insert name value)

/-- The first elements of an array, as many as there are names. -/
def destructure (s : Store) (names : List String) :
    Value → Except EvalError (List (String × Value))
  | .array place =>
    .ok (names.zipIdx.map fun entry => (entry.1, (s.items place)[entry.2]?.getD Value.undefined))
  | v => .error (.typeError "array destructuring" "an array" v.describe)

/-! ## Methods -/

def invoke (method : Method) (args : List Value) (s : Store) : Value × Store :=
  let first := args.head?.getD .undefined
  match method with
  | .push place =>
    let s := s.modifyItems place (· ++ args)
    (count (s.items place).size, s)
  | .pop place =>
    ((s.items place).back?.getD .undefined, s.modifyItems place Array.pop)
  | .shift place =>
    ((s.items place)[0]?.getD .undefined, s.modifyItems place fun items => items.extract 1)
  | .unshift place =>
    let s := s.modifyItems place (args.toArray ++ ·)
    (count (s.items place).size, s)
  | .contains place => (.boolean ((s.items place).any fun item => item.sameValue first), s)
  | .startsWith t => (.boolean ((s.text first).toList.isPrefixOf t.toList), s)
  | .endsWith t => (.boolean ((s.text first).toList.isSuffixOf t.toList), s)
  | .includes t => (.boolean (occursIn (s.text first).toList t.toList), s)

end Store

/-- The method of a value with a given name. -/
def Method.find? (v : Value) (name : String) : Option Method :=
  match v, name with
  | .array place, "push" => some (.push place)
  | .array place, "pop" => some (.pop place)
  | .array place, "shift" => some (.shift place)
  | .array place, "unshift" => some (.unshift place)
  | .array place, "includes" => some (.contains place)
  | .string t, "startsWith" => some (.startsWith t)
  | .string t, "endsWith" => some (.endsWith t)
  | .string t, "includes" => some (.includes t)
  | _, _ => none

end TraceLoom
