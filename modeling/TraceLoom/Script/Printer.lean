import TraceLoom.Numeric.Notation
import TraceLoom.Script.Syntax
import TraceLoom.Text.Quoted

/-!
Scripts as text.  Operands are put in parentheses where their operator binds less tightly than
the place they stand in, so the text reads back as the same tree.  Statements are indented by
two spaces a level; an expression nested in another starts at the margin again.
-/

namespace TraceLoom.Script

open TraceLoom.Numeric TraceLoom.Text

/-- Whether a text is a name: letters, digits, underscores and dollar signs, not starting with a
digit.  Only ASCII letters count. -/
def isNameText (text : String) : Bool :=
  match text.toList with
  | [] => false
  | c :: rest => starts c && rest.all fun c => starts c || c.isDigit
where
  starts (c : Char) : Bool := c.isAlpha || c == '_' || c == '$'

namespace Printer

/-- Binding strengths of the expressions that are not binary. -/
def assignLevel : Nat := 0
def unaryLevel : Nat := 7
def postfixLevel : Nat := 8
def memberLevel : Nat := 9
def primaryLevel : Nat := 10

/-- How tightly the outermost operator of an expression binds.  A function expression counts as
loose, so that it is never taken for the start of a statement. -/
def level : Expr → Nat
  | .assign .. => assignLevel
  | .binary _ op _ _ => op.precedence
  | .unary .. => unaryLevel
  | .update _ _ isPrefix _ => if isPrefix then unaryLevel else postfixLevel
  | .member .. | .index .. | .call .. => memberLevel
  | .function .. => assignLevel
  | _ => primaryLevel

/-- Parentheses around the text of an expression in a place that binds at least as tightly as
`least`. -/
def enclose (e : Expr) (least : Nat) (text : String) : String :=
  if level e < least then "(" ++ text ++ ")" else text

def indent (depth : Nat) : String :=
  String.ofList (List.replicate (2 * depth) ' ')

/-- A key of an object literal, quoted unless it is a name. -/
def key (text : String) : String :=
  if isNameText text then text else Quoted.quote text

/-- The text of a block from the texts of its statements. -/
def braces (depth : Nat) (statements : List String) : String :=
  if statements.isEmpty then "\x7b\x7d"
  else "\x7b\n" ++ String.join (statements.map (· ++ "\n")) ++ indent depth ++ "\x7d"

def functionHead (name : Option String) (params : List String) : String :=
  "function" ++ (match name with | some n => " " ++ n | none => "") ++
    "(" ++ ", ".intercalate params ++ ") "

/-- A sign before an operand; the parentheses keep two equal signs from becoming an update. -/
def sign (symbol operand : String) : String :=
  if symbol.toList.isPrefixOf operand.toList then symbol ++ "(" ++ operand ++ ")"
  else symbol ++ operand

def pattern : Pattern → String
  | .name n => n
  | .array ns => "[" ++ ", ".intercalate ns ++ "]"

mutual

/-- The text of an expression whose own function bodies are `depth` levels deep. -/
def expr (depth : Nat) : Expr → String
  | .number _ x => if x < 0.0 then "(" ++ Notation.literal x ++ ")" else Notation.literal x
  | .string _ s => Quoted.quote s
  | .boolean _ b => if b then "true" else "false"
  | .null _ => "null"
  | .name _ n => n
  | .array _ items => "[" ++ ", ".intercalate (operands items) ++ "]"
  | .object _ entries =>
    if entries.isEmpty then "\x7b\x7d"
    else "\x7b " ++ ", ".intercalate (fields entries) ++ " \x7d"
  | .function _ name params body =>
    functionHead name params ++ braces depth (stmts (depth + 1) body)
  | .member _ object property => enclose object memberLevel (expr 0 object) ++ "." ++ property
  | .index _ object index =>
    enclose object memberLevel (expr 0 object) ++ "[" ++ expr 0 index ++ "]"
  | .call _ callee args =>
    let calleeDepth := if callee.isFunction then depth else 0
    enclose callee memberLevel (expr calleeDepth callee) ++
      "(" ++ ", ".intercalate (arguments depth args) ++ ")"
  | .unary _ op operand =>
    let text := enclose operand unaryLevel (expr 0 operand)
    match op with
    | .typeof | .void => op.symbol ++ " " ++ text
    | .neg | .plus => sign op.symbol text
    | .not => op.symbol ++ text
  | .binary _ op left right =>
    enclose left op.precedence (expr 0 left) ++ " " ++ op.symbol ++ " " ++
      enclose right (op.precedence + 1) (expr 0 right)
  | .assign _ op target value =>
    enclose target memberLevel (expr 0 target) ++ " " ++ op.symbol ++ " " ++
      enclose value assignLevel (expr 0 value)
  | .update _ op isPrefix target =>
    let text := enclose target memberLevel (expr 0 target)
    if isPrefix then op.symbol ++ text else text ++ op.symbol
termination_by structural e => e

def operands : List Expr → List String
  | [] => []
  | e :: es => enclose e (assignLevel + 1) (expr 0 e) :: operands es
termination_by structural es => es

/-- Arguments of a call; functions among them keep the depth of the call. -/
def arguments (depth : Nat) : List Expr → List String
  | [] => []
  | e :: es =>
    (if e.isFunction then expr depth e else enclose e (assignLevel + 1) (expr 0 e)) ::
      arguments depth es
termination_by structural es => es

def fields : List (String × Expr) → List String
  | [] => []
  | (name, e) :: es =>
    (key name ++ ": " ++ enclose e (assignLevel + 1) (expr 0 e)) :: fields es
termination_by structural es => es

/-- The text of a statement without the indentation of its first line. -/
def stmt (depth : Nat) : Stmt → String
  | .declare _ kind ds => kind.keyword ++ " " ++ ", ".intercalate (declarators depth ds) ++ ";"
  | .function _ name params body =>
    functionHead (some name) params ++ braces depth (stmts (depth + 1) body)
  | .ifElse _ test consequent none =>
    "if (" ++ expr 0 test ++ ") " ++ braces depth (stmts (depth + 1) consequent)
  | .ifElse _ test consequent (some alternate) =>
    "if (" ++ expr 0 test ++ ") " ++ braces depth (stmts (depth + 1) consequent) ++
      " else " ++ braces depth (stmts (depth + 1) alternate)
  | .whileDo _ test body =>
    "while (" ++ expr 0 test ++ ") " ++ braces depth (stmts (depth + 1) body)
  | .labeled _ label body => label ++ ": " ++ braces depth (stmts (depth + 1) body)
  | .breakTo _ (some label) => "break " ++ label ++ ";"
  | .breakTo _ none => "break;"
  | .returnWith _ (some value) => "return " ++ expr depth value ++ ";"
  | .returnWith _ none => "return;"
  | .block _ body => braces depth (stmts (depth + 1) body)
  | .expr _ e =>
    match e with
    | .function .. | .object .. => "(" ++ expr depth e ++ ");"
    | _ => expr depth e ++ ";"
termination_by structural s => s

def declarators (depth : Nat) : List (Pattern × Option Expr) → List String
  | [] => []
  | (target, none) :: ds => pattern target :: declarators depth ds
  | (target, some e) :: ds => (pattern target ++ " = " ++ expr depth e) :: declarators depth ds
termination_by structural ds => ds

def stmts (depth : Nat) : List Stmt → List String
  | [] => []
  | s :: ss => (indent depth ++ stmt depth s) :: stmts depth ss
termination_by structural ss => ss

end

end Printer

def Expr.toSource (e : Expr) : String :=
  Printer.expr 0 e

def Stmt.toSource (s : Stmt) : String :=
  Printer.stmt 0 s

/-- The text of a program, a line end after each statement. -/
def Program.toSource (program : Program) : String :=
  String.join ((Printer.stmts 0 program).map (· ++ "\n"))

end TraceLoom.Script
