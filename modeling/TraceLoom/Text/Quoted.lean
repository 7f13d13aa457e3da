import TraceLoom.Text.Hex

/-!
String literals of the script language: how a text is written between double quotes, and how the
inside of a literal is read.  Reading undoes writing.
-/

namespace TraceLoom.Text.Quoted

/-- The inside of the literal of a text. -/
def encode : List Char → List Char
  | [] => []
  | c :: rest =>
    match c with
    | '"' => '\\' :: '"' :: encode rest
    | '\\' => '\\' :: '\\' :: encode rest
    | '\n' => '\\' :: 'n' :: encode rest
    | '\r' => '\\' :: 'r' :: encode rest
    | '\t' => '\\' :: 't' :: encode rest
    | _ => c :: encode rest

/-- The code point written by the digits after `\u`; one leading plus sign is read over. -/
def escapedCode? (digits : List Char) : Option Nat :=
  let digits := match digits with
    | '+' :: rest => rest
    | _ => digits
  if digits.isEmpty then none else hexValue? digits

/-- What the characters after `\u` stand for.  Those that name no character stand for
themselves, the escape included. -/
def escapedChar (digits : List Char) : List Char :=
  match (escapedCode? digits).bind charOfCode? with
  | some c => [c]
  | none => '\\' :: 'u' :: digits

/-- The text of a literal from its inside.  An escape that is not special stands for the
character after the backslash; `\u` takes the next four characters, or as many as there are. -/
def decode : List Char → List Char
  | [] => []
  | '\\' :: [] => ['\\']
  | '\\' :: 'n' :: rest => '\n' :: decode rest
  | '\\' :: 't' :: rest => '\t' :: decode rest
  | '\\' :: 'r' :: rest => '\r' :: decode rest
  | '\\' :: '0' :: rest => '\x00' :: decode rest
  | '\\' :: 'u' :: a :: b :: c :: d :: rest => escapedChar [a, b, c, d] ++ decode rest
  | '\\' :: 'u' :: rest => escapedChar rest
  | '\\' :: c :: rest => c :: decode rest
  | c :: rest => c :: decode rest

def quote (text : String) : String :=
  String.ofList ('"' :: encode text.toList ++ ['"'])

theorem decode_encode (text : List Char) : decode (encode text) = text := by
  induction text with
  | nil => rfl
  | cons c rest ih =>
    unfold encode
    split <;> simp_all [decode]

end TraceLoom.Text.Quoted
