import TraceLoom.Json.Number
import TraceLoom.Text.Hex

/-!
Reading JSON text.  The reader is strict: numbers have no leading zeros, strings no bare control
characters and no lone surrogates, nothing but blanks follows the value, and arrays and objects
nest at most 127 deep.
-/

namespace TraceLoom.Json.Reader

open TraceLoom.Text

def isSpace (c : Char) : Bool :=
  c == ' ' || c == '\n' || c == '\t' || c == '\r'

def skip (text : List Char) : List Char :=
  text.dropWhile isSpace

/-- The number at the start of a text, and the rest. -/
def number (text : List Char) : Option (Json × List Char) := do
  let (negative, text) := match text with
    | '-' :: rest => (true, rest)
    | _ => (false, text)
  let whole := text.takeWhile Char.isDigit
  let text := text.dropWhile Char.isDigit
  if whole.isEmpty || (whole.length > 1 && whole.head? == some '0') then none
  else
    let (fraction, text) := match text with
      | '.' :: rest => (some (rest.takeWhile Char.isDigit), rest.dropWhile Char.isDigit)
      | _ => (none, text)
    let (exponent, text) := power text
    if fraction == some [] then none
    else if (exponent.map (·.2)) == some [] then none
    else
      let value ← ofNumberParts negative whole fraction exponent
      return (value, text)
where
  power : List Char → Option (Bool × List Char) × List Char
    | 'e' :: rest | 'E' :: rest =>
      let (below, rest) := match rest with
        | '-' :: rest => (true, rest)
        | '+' :: rest => (false, rest)
        | _ => (false, rest)
      (some (below, rest.takeWhile Char.isDigit), rest.dropWhile Char.isDigit)
    | text => (none, text)

/-- Four hexadecimal digits at the start of a text. -/
def fourHex : List Char → Option (Nat × List Char)
  | a :: b :: c :: d :: rest => (hexValue? [a, b, c, d]).map (·, rest)
  | _ => none

/-- The character after `\u`, where two escapes may form one character beyond 16 bits. -/
def unicodeEscape (text : List Char) : Option (Char × List Char) := do
  let (unit, rest) ← fourHex text
  if 0xD800 ≤ unit ∧ unit < 0xDC00 then
    match rest with
    | '\\' :: 'u' :: rest =>
      let (low, rest) ← fourHex rest
      if 0xDC00 ≤ low ∧ low < 0xE000 then
        let c ← charOfCode? (0x10000 + (unit - 0xD800) * 0x400 + (low - 0xDC00))
        return (c, rest)
      else none
    | _ => none
  else
    let c ← charOfCode? unit
    return (c, rest)

/-- The inside of a string up to its closing quote; `fuel` bounds the characters read. -/
def stringBody : Nat → List Char → List Char → Option (String × List Char)
  | 0, _, _ => none
  | fuel + 1, done, text =>
    match text with
    | [] => none
    | '"' :: rest => some (String.ofList done.reverse, rest)
    | '\\' :: 'u' :: rest =>
      match unicodeEscape rest with
      | some (c, rest) => stringBody fuel (c :: done) rest
      | none => none
    | '\\' :: c :: rest =>
      match escaped? c with
      | some c => stringBody fuel (c :: done) rest
      | none => none
    | c :: rest => if c.toNat < 0x20 then none else stringBody fuel (c :: done) rest
where
  escaped? : Char → Option Char
    | '"' => some '"'
    | '\\' => some '\\'
    | '/' => some '/'
    | 'b' => some '\x08'
    | 'f' => some '\x0c'
    | 'n' => some '\n'
    | 'r' => some '\r'
    | 't' => some '\t'
    | _ => none

/-- The text after a word it starts with. -/
def afterWord (word : String) (text : List Char) : Option (List Char) :=
  if word.toList.isPrefixOf text then some (text.drop word.length) else none

mutual

/-- The value at the start of a text whose arrays and objects nest at most `depth` deep. -/
def value (depth : Nat) (text : List Char) : Option (Json × List Char) :=
  match skip text with
  | [] => none
  | '"' :: rest => (stringBody (rest.length + 1) [] rest).map fun (s, rest) => (.string s, rest)
  | '[' :: rest =>
    match depth with
    | 0 => none
    | depth + 1 =>
      match skip rest with
      | ']' :: rest => some (.array [], rest)
      | rest => (items depth (rest.length + 1) rest).map fun (js, rest) => (.array js, rest)
  | '\x7b' :: rest =>
    match depth with
    | 0 => none
    | depth + 1 =>
      match skip rest with
      | '\x7d' :: rest => some (.object [], rest)
      | rest => (members depth (rest.length + 1) rest).map fun (fs, rest) => (.object fs, rest)
  | c :: rest =>
    if c == '-' || c.isDigit then number (c :: rest)
    else if c == 't' then (afterWord "rue" rest).map (.boolean true, ·)
    else if c == 'f' then (afterWord "alse" rest).map (.boolean false, ·)
    else if c == 'n' then (afterWord "ull" rest).map (.null, ·)
    else none
termination_by (depth, 0)

/-- Values separated by commas, up to the closing bracket. -/
def items (depth : Nat) (fuel : Nat) (text : List Char) : Option (List Json × List Char) :=
  match fuel with
  | 0 => none
  | fuel + 1 =>
    match value depth text with
    | none => none
    | some (first, rest) =>
      match skip rest with
      | ']' :: rest => some ([first], rest)
      | ',' :: rest => (items depth fuel rest).map fun (js, rest) => (first :: js, rest)
      | _ => none
termination_by (depth, fuel + 1)

/-- Fields separated by commas, up to the closing brace. -/
def members (depth : Nat) (fuel : Nat) (text : List Char) :
    Option (List (String × Json) × List Char) :=
  match fuel with
  | 0 => none
  | fuel + 1 =>
    match skip text with
    | '"' :: rest =>
      match stringBody (rest.length + 1) [] rest with
      | none => none
      | some (name, rest) =>
        match skip rest with
        | ':' :: rest =>
          match value depth rest with
          | none => none
          | some (first, rest) =>
            match skip rest with
            | '\x7d' :: rest => some ([(name, first)], rest)
            | ',' :: rest =>
              (members depth fuel rest).map fun (fs, rest) => ((name, first) :: fs, rest)
            | _ => none
        | _ => none
    | _ => none
termination_by (depth, fuel + 1)

end

end Reader

/-- The value of a JSON text, the fields of objects in the order of the text. -/
def read? (text : String) : Option Json :=
  match Reader.value 127 text.toList with
  | some (value, rest) => if (Reader.skip rest).isEmpty then some value else none
  | none => none

end TraceLoom.Json
