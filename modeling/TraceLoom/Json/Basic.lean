import TraceLoom.Fields

/-!
JSON values.  Whole numbers are kept apart from numbers with a fraction or exponent, and the
fields of an object keep their order; `canonical` sorts them.
-/

namespace TraceLoom

inductive Json where
  | null
  | boolean (value : Bool)
  /-- A whole number written without fraction and exponent. -/
  | integer (value : Int)
  | number (value : Float)
  | string (value : String)
  | array (items : List Json)
  | object (fields : List (String × Json))
  deriving Inhabited

namespace Json

mutual

/-- The value with the fields of every object sorted by name; of equal names the last counts. -/
def canonical : Json → Json
  | .array items => .array (canonicalItems items)
  | .object fields => .object (Fields.sort (canonicalFields fields))
  | other => other
termination_by structural j => j

def canonicalItems : List Json → List Json
  | [] => []
  | item :: rest => canonical item :: canonicalItems rest
termination_by structural items => items

def canonicalFields : List (String × Json) → List (String × Json)
  | [] => []
  | (name, value) :: rest => (name, canonical value) :: canonicalFields rest
termination_by structural fields => fields

end

mutual

/-- How deep the arrays and objects of a value nest. -/
def depth : Json → Nat
  | .array items => depthItems items + 1
  | .object fields => depthFields fields + 1
  | _ => 0
termination_by structural j => j

def depthItems : List Json → Nat
  | [] => 0
  | j :: js => max (depth j) (depthItems js)
termination_by structural js => js

def depthFields : List (String × Json) → Nat
  | [] => 0
  | (_, j) :: fs => max (depth j) (depthFields fs)
termination_by structural fs => fs

end

/-- The value under a name, if this is an object that has it. -/
def field? (name : String) : Json → Option Json
  | .object fields => Fields.get? name fields
  | _ => none

def string? : Json → Option String
  | .string s => some s
  | _ => none

def array? : Json → Option (List Json)
  | .array items => some items
  | _ => none

def object? : Json → Option (Fields Json)
  | .object fields => some fields
  | _ => none

def boolean? : Json → Option Bool
  | .boolean b => some b
  | _ => none

/-- The value under a name as a text. -/
def text? (j : Json) (name : String) : Option String :=
  (j.field? name).bind string?

def items? (j : Json) (name : String) : Option (List Json) :=
  (j.field? name).bind array?

end Json

end TraceLoom
