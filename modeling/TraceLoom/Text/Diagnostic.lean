import TraceLoom.Text.Hex
import TraceLoom.Text.Hidden

/-!
Texts inside messages: between double quotes, with line ends, quotes and backslashes escaped and
every hidden character shown by its code point.
-/

namespace TraceLoom.Text.Diagnostic

def escape (c : Char) : List Char :=
  match c with
  | '\x00' => ['\\', '0']
  | '\t' => ['\\', 't']
  | '\r' => ['\\', 'r']
  | '\n' => ['\\', 'n']
  | '"' => ['\\', '"']
  | '\\' => ['\\', '\\']
  | _ => if isHidden c then ['\\', 'u', '\x7b'] ++ hexDigits c.toNat ++ ['\x7d'] else [c]

def quote (text : String) : String :=
  String.ofList ('"' :: text.toList.flatMap escape ++ ['"'])

def quoteAll (texts : List String) : String :=
  "[" ++ ", ".intercalate (texts.map quote) ++ "]"

end TraceLoom.Text.Diagnostic
