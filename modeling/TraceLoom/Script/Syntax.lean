import TraceLoom.Script.Operator

/-!
The syntax of scripts: positions, expressions, statements and programs.  Every node carries the
position where it starts; nodes that no source text stands behind carry `Position.none`.
-/

namespace TraceLoom.Script

/-- A line and a column, both counted from one. -/
structure Position where
  line : Nat
  column : Nat
  deriving DecidableEq, Repr, Inhabited

namespace Position

/-- The position of a node that was not read from a text. -/
def none : Position :=
  ⟨0, 0⟩

instance : ToString Position :=
  ⟨fun pos => toString pos.line ++ ":" ++ toString pos.column⟩

end Position

/-- How a declaration is introduced.  Declarations by `var` are scoped to their block like the
others; only `const` forbids assignment. -/
inductive DeclKind where
  | ofLet | ofConst | ofVar
  deriving DecidableEq, Repr, Inhabited

namespace DeclKind

def keyword : DeclKind → String
  | ofLet => "let"
  | ofConst => "const"
  | ofVar => "var"

end DeclKind

/-- What a declarator binds: one name, or the first elements of an array. -/
inductive Pattern where
  | name (name : String)
  | array (names : List String)
  deriving DecidableEq, Repr, Inhabited

namespace Pattern

def name? : Pattern → Option String
  | name n => some n
  | array _ => none

def names : Pattern → List String
  | name n => [n]
  | array ns => ns

end Pattern

mutual

inductive Expr where
  | number (pos : Position) (value : Float)
  | string (pos : Position) (value : String)
  | boolean (pos : Position) (value : Bool)
  | null (pos : Position)
  | name (pos : Position) (name : String)
  | array (pos : Position) (items : List Expr)
  | object (pos : Position) (entries : List (String × Expr))
  | function (pos : Position) (name : Option String) (params : List String) (body : List Stmt)
  | member (pos : Position) (object : Expr) (property : String)
  | index (pos : Position) (object : Expr) (index : Expr)
  | call (pos : Position) (callee : Expr) (args : List Expr)
  | unary (pos : Position) (op : UnaryOp) (operand : Expr)
  | binary (pos : Position) (op : BinaryOp) (left : Expr) (right : Expr)
  | assign (pos : Position) (op : AssignOp) (target : Expr) (value : Expr)
  | update (pos : Position) (op : UpdateOp) (isPrefix : Bool) (target : Expr)
  deriving Inhabited

inductive Stmt where
  | declare (pos : Position) (kind : DeclKind) (declarators : List (Pattern × Option Expr))
  | function (pos : Position) (name : String) (params : List String) (body : List Stmt)
  | ifElse (pos : Position) (test : Expr) (consequent : List Stmt)
      (alternate : Option (List Stmt))
  | whileDo (pos : Position) (test : Expr) (body : List Stmt)
  | labeled (pos : Position) (label : String) (body : List Stmt)
  | breakTo (pos : Position) (label : Option String)
  | returnWith (pos : Position) (value : Option Expr)
  | block (pos : Position) (body : List Stmt)
  | expr (pos : Position) (value : Expr)
  deriving Inhabited

end

/-- A program is the list of its top-level statements. -/
abbrev Program := List Stmt

/-- What a declarator binds, and its initial value. -/
abbrev Declarator := Pattern × Option Expr

namespace Expr

def pos : Expr → Position
  | number p _ | string p _ | boolean p _ | null p | name p _ | array p _ | object p _
  | function p _ _ _ | member p _ _ | index p _ _ | call p _ _ | unary p _ _ | binary p _ _ _
  | assign p _ _ _ | update p _ _ _ => p

def name? : Expr → Option String
  | name _ n => some n
  | _ => none

def isCall : Expr → Bool
  | call .. => true
  | _ => false

def isFunction : Expr → Bool
  | function .. => true
  | _ => false

/-- Whether the expression can stand on the left of an assignment. -/
def isTarget : Expr → Bool
  | name .. | member .. | index .. => true
  | _ => false

/-- The kind of expression, in the words of messages. -/
def describe : Expr → String
  | number .. => "number literal"
  | string .. => "string literal"
  | boolean .. => "boolean literal"
  | null .. => "null literal"
  | name .. => "identifier"
  | array .. => "array literal"
  | object .. => "object literal"
  | function .. => "function expression"
  | member .. => "member expression"
  | index .. => "computed member expression"
  | call .. => "call expression"
  | unary .. => "unary expression"
  | binary .. => "binary expression"
  | assign .. => "assignment expression"
  | update .. => "update expression"

/-! ### Expressions without a source text -/

def ident (n : String) : Expr :=
  .name .none n

def text (text : String) : Expr :=
  .string .none text

def num (x : Float) : Expr :=
  .number .none x

def list (items : List Expr) : Expr :=
  .array .none items

def record (entries : List (String × Expr)) : Expr :=
  .object .none entries

def dot (object : Expr) (property : String) : Expr :=
  .member .none object property

/-- A call of the method `method` of `object`. -/
def invoke (object : Expr) (method : String) (args : List Expr) : Expr :=
  .call .none (dot object method) args

end Expr

namespace Stmt

def pos : Stmt → Position
  | declare p _ _ | function p _ _ _ | ifElse p _ _ _ | whileDo p _ _ | labeled p _ _
  | breakTo p _ | returnWith p _ | block p _ | expr p _ => p

/-- The kind of statement, in the words of messages. -/
def describe : Stmt → String
  | declare .. => "declaration"
  | function .. => "function declaration"
  | ifElse .. => "if statement"
  | whileDo .. => "while statement"
  | labeled .. => "labeled statement"
  | breakTo .. => "break statement"
  | returnWith .. => "return statement"
  | block .. => "block statement"
  | expr .. => "expression statement"

/-- An expression as a statement, at the expression's position. -/
def ofExpr (e : Expr) : Stmt :=
  .expr e.pos e

/-- The declaration `let name = value;` without a source text. -/
def letNamed (name : String) (value : Expr) : Stmt :=
  .declare .none .ofLet [(.name name, some value)]

end Stmt

/-! ## Syntax without positions -/

mutual

def Expr.erase : Expr → Expr
  | .number _ x => .number .none x
  | .string _ s => .string .none s
  | .boolean _ b => .boolean .none b
  | .null _ => .null .none
  | .name _ n => .name .none n
  | .array _ items => .array .none (Expr.eraseList items)
  | .object _ entries => .object .none (Expr.eraseEntries entries)
  | .function _ n params body => .function .none n params (Stmt.eraseList body)
  | .member _ object property => .member .none object.erase property
  | .index _ object index => .index .none object.erase index.erase
  | .call _ callee args => .call .none callee.erase (Expr.eraseList args)
  | .unary _ op operand => .unary .none op operand.erase
  | .binary _ op left right => .binary .none op left.erase right.erase
  | .assign _ op target value => .assign .none op target.erase value.erase
  | .update _ op isPrefix target => .update .none op isPrefix target.erase
termination_by structural e => e

def Expr.eraseList : List Expr → List Expr
  | [] => []
  | e :: es => e.erase :: Expr.eraseList es
termination_by structural es => es

def Expr.eraseEntries : List (String × Expr) → List (String × Expr)
  | [] => []
  | (key, e) :: es => (key, e.erase) :: Expr.eraseEntries es
termination_by structural es => es

def Stmt.erase : Stmt → Stmt
  | .declare _ kind declarators => .declare .none kind (Stmt.eraseDeclarators declarators)
  | .function _ n params body => .function .none n params (Stmt.eraseList body)
  | .ifElse _ test consequent none =>
    .ifElse .none test.erase (Stmt.eraseList consequent) none
  | .ifElse _ test consequent (some alternate) =>
    .ifElse .none test.erase (Stmt.eraseList consequent) (some (Stmt.eraseList alternate))
  | .whileDo _ test body => .whileDo .none test.erase (Stmt.eraseList body)
  | .labeled _ label body => .labeled .none label (Stmt.eraseList body)
  | .breakTo _ label => .breakTo .none label
  | .returnWith _ none => .returnWith .none none
  | .returnWith _ (some e) => .returnWith .none (some e.erase)
  | .block _ body => .block .none (Stmt.eraseList body)
  | .expr _ e => .expr .none e.erase
termination_by structural s => s

def Stmt.eraseDeclarators : List (Pattern × Option Expr) → List (Pattern × Option Expr)
  | [] => []
  | (target, none) :: ds => (target, none) :: Stmt.eraseDeclarators ds
  | (target, some e) :: ds => (target, some e.erase) :: Stmt.eraseDeclarators ds
termination_by structural ds => ds

def Stmt.eraseList : List Stmt → List Stmt
  | [] => []
  | s :: ss => s.erase :: Stmt.eraseList ss
termination_by structural ss => ss

end

end TraceLoom.Script
