import TraceLoom.Json.Basic
import TraceLoom.Numeric.Notation
import TraceLoom.Text.Hex

/-!
JSON text without blanks.  Control characters are escaped; numbers that are not finite are
written as null.
-/

namespace TraceLoom.Json

open TraceLoom.Numeric TraceLoom.Text

namespace Printer

def escape (c : Char) : List Char :=
  match c with
  | '"' => ['\\', '"']
  | '\\' => ['\\', '\\']
  | '\x08' => ['\\', 'b']
  | '\x0c' => ['\\', 'f']
  | '\n' => ['\\', 'n']
  | '\r' => ['\\', 'r']
  | '\t' => ['\\', 't']
  | _ =>
    if c.toNat < 0x20 then
      '\\' :: 'u' :: '0' :: '0' :: Nat.digitChar (c.toNat / 16) :: [Nat.digitChar (c.toNat % 16)]
    else [c]

def quote (text : String) : String :=
  String.ofList ('"' :: text.toList.flatMap escape ++ ['"'])

mutual

def value : Json → String
  | .null => "null"
  | .boolean b => if b then "true" else "false"
  | .integer n => toString n
  | .number x => (Notation.json? x).getD "null"
  | .string s => quote s
  | .array js => "[" ++ ",".intercalate (items js) ++ "]"
  | .object fs => "\x7b" ++ ",".intercalate (fields fs) ++ "\x7d"
termination_by structural j => j

def items : List Json → List String
  | [] => []
  | j :: js => value j :: items js
termination_by structural js => js

def fields : List (String × Json) → List String
  | [] => []
  | (name, j) :: fs => (quote name ++ ":" ++ value j) :: fields fs
termination_by structural fs => fs

end

end Printer

/-- The text of a value, the fields of objects in their own order. -/
def print (j : Json) : String :=
  Printer.value j

end TraceLoom.Json
