import TraceLoom.Numeric.Decimal
import TraceLoom.Script.Cursor
import TraceLoom.Script.Operator
import TraceLoom.Script.Printer
import TraceLoom.Text.Quoted

/-!
Tokens of a script.  A token is the longest one that starts at a place; a keyword is a word like
any other until a name is asked for.
-/

namespace TraceLoom.Script

open TraceLoom.Numeric TraceLoom.Text

inductive Token where
  | word (text : String)
  | number (value : Float)
  | string (value : String)
  | symbol (text : String)

namespace Token

def keywords : List String :=
  ["let", "const", "var", "function", "if", "else", "while", "for", "do", "switch", "try",
    "catch", "finally", "throw", "continue", "break", "return", "true", "false", "null", "this",
    "new", "typeof", "void"]

/-- Marks and operators; of two that start alike the longer comes first. -/
def symbols : List String :=
  ["===", "!==", "==", "!=", "<=", ">=", "&&", "||", "++", "--", "+=", "-=", "*=", "/=",
    "\x7b", "\x7d", "(", ")", "[", "]", ",", ";", ":", ".", "?", "<", ">", "+", "-", "*", "/",
    "%", "!", "="]

def isWordStart (c : Char) : Bool :=
  isNameText.starts c

def isWordChar (c : Char) : Bool :=
  isNameText.starts c || c.isDigit

/-- An exponent at the start of a text: its characters, its value, and the rest. -/
def exponent? (text : List Char) : Option (List Char × Int × List Char) :=
  match text with
  | e :: rest =>
    if e == 'e' || e == 'E' then
      let (sign, rest) := match rest with
        | '+' :: more => (['+'], more)
        | '-' :: more => (['-'], more)
        | _ => ([], rest)
      let digits := rest.takeWhile Char.isDigit
      if digits.isEmpty then none
      else
        let power : Int := Decimal.ofDigits digits
        some (e :: sign ++ digits, if sign == ['-'] then -power else power,
          rest.dropWhile Char.isDigit)
    else none
  | [] => none

/-- A number at the start of a text that begins with a digit.  The point counts only if a digit
follows it, and the exponent only if it is complete. -/
def numeral (text : List Char) : Float × List Char × List Char :=
  let whole := text.takeWhile Char.isDigit
  let afterWhole := text.dropWhile Char.isDigit
  let (fraction, afterFraction) := match afterWhole with
    | '.' :: more =>
      if (more.takeWhile Char.isDigit).isEmpty then ([], afterWhole)
      else (more.takeWhile Char.isDigit, more.dropWhile Char.isDigit)
    | _ => ([], afterWhole)
  let mantissa := if fraction.isEmpty then whole else whole ++ '.' :: fraction
  match exponent? afterFraction with
  | some (lexeme, power, rest) =>
    ((Decimal.ofParts whole fraction power).toFloat, mantissa ++ lexeme, rest)
  | none => ((Decimal.ofParts whole fraction 0).toFloat, mantissa, afterFraction)

/-- The inside of a string literal up to its closing quote, and the rest.  A line feed ends the
literal unless a backslash stands before it. -/
def literal? (quote : Char) : List Char → Option (List Char × List Char)
  | [] => none
  | '\\' :: c :: rest => (literal? quote rest).map fun (inner, rest) => ('\\' :: c :: inner, rest)
  | c :: rest =>
    if c = quote then some ([], rest)
    else if c = '\n' ∨ c = '\\' then none
    else (literal? quote rest).map fun (inner, rest) => (c :: inner, rest)

/-- The token at a place, which is not blank, and the place behind it. -/
def scan? (c : Cursor) : Option (Token × Cursor) :=
  match c.text with
  | [] => none
  | first :: rest =>
    if isWordStart first then
      let lexeme := c.text.takeWhile isWordChar
      some (.word (String.ofList lexeme), c.past lexeme (c.text.dropWhile isWordChar))
    else if first.isDigit then
      let (value, lexeme, rest) := numeral c.text
      some (.number value, c.past lexeme rest)
    else if first = '"' ∨ first = '\'' then
      (literal? first rest).map fun (inner, rest) =>
        (.string (String.ofList (Quoted.decode inner)),
          c.past (first :: inner ++ [first]) rest)
    else
      (symbols.find? fun s => s.toList.isPrefixOf c.text).map fun s =>
        (.symbol s, c.past s.toList (c.text.drop s.length))

end Token

/-- A token with the place where it starts and the place behind it. -/
structure Lexeme where
  token : Token
  pos : Position
  rest : Cursor

namespace Cursor

def next? (c : Cursor) : Option Lexeme :=
  let here := c.skip
  (Token.scan? here).map fun (token, rest) => ⟨token, here.pos, rest⟩

def symbol? (text : String) (c : Cursor) : Option Cursor :=
  match c.next? with
  | some ⟨.symbol s, _, rest⟩ => if s = text then some rest else none
  | _ => none

def keyword? (text : String) (c : Cursor) : Option Cursor :=
  match c.next? with
  | some ⟨.word w, _, rest⟩ => if w = text then some rest else none
  | _ => none

/-- Reads a name, which is a word but no keyword. -/
def name? (c : Cursor) : Option (String × Cursor) :=
  match c.next? with
  | some ⟨.word w, _, rest⟩ => if w ∈ Token.keywords then none else some (w, rest)
  | _ => none

/-- Reads over a mark if it comes next. -/
def optionalSymbol (text : String) (c : Cursor) : Cursor :=
  (c.symbol? text).getD c

/-- Whether nothing but blanks and comments is left. -/
def atEnd (c : Cursor) : Bool :=
  c.skip.text.isEmpty

/-! ### Raw groups

Groups of refused constructs are read character by character: only blanks and comments are
skipped, and quotes mean nothing. -/

/-- Reads up to the mark that closes a group `depth` groups deep. -/
def closing (opens closes : Char) : Nat → Nat → Cursor → Option Cursor
  | 0, _, _ => none
  | fuel + 1, depth, c =>
    let here := c.skip
    match here.text with
    | [] => none
    | first :: rest =>
      let behind := here.past [first] rest
      if first = closes then
        match depth with
        | 0 => some behind
        | depth + 1 => closing opens closes fuel depth behind
      else if first = opens then closing opens closes fuel (depth + 1) behind
      else closing opens closes fuel depth behind

def parenGroup? (c : Cursor) : Option Cursor := do
  let inner ← c.symbol? "("
  closing '(' ')' (inner.text.length + 1) 0 inner

def braceGroup? (c : Cursor) : Option Cursor := do
  let inner ← c.symbol? "\x7b"
  closing '\x7b' '\x7d' (inner.text.length + 1) 0 inner

/-- Reads an object pattern, which ends at the first closing brace. -/
def objectPattern? (c : Cursor) : Option Cursor := do
  let inner ← c.symbol? "\x7b"
  closing '\x7d' '\x7d' (inner.text.length + 1) 0 inner

end Cursor

end TraceLoom.Script
