import TraceLoom.Script.Error

/-!
Normal form.  In a normal program every call is bound by a declaration of its own, functions are
declared, each declaration binds one name or pattern, and compound assignments are spelled out.
`normalize` brings a program into this form by moving calls and functions out of expressions into
declarations before the statement they stand in.

Names made for this start with a dollar sign, so a program may not use such names itself.
-/

namespace TraceLoom.Script

/-- How many names have been made: for results of calls, and for functions. -/
structure Fresh where
  results : Nat
  functions : Nat
  deriving DecidableEq, Repr

namespace Fresh

def none : Fresh :=
  ⟨0, 0⟩

end Fresh

namespace NormalForm

/-- A lifting step: it makes names and may refuse the program. -/
abbrev Lifting := StateT Fresh (Except ParseError)

def freshResult : Lifting String := do
  let fresh ← get
  set { fresh with results := fresh.results + 1 }
  return "$t" ++ toString fresh.results

def freshFunction : Lifting String := do
  let fresh ← get
  set { fresh with functions := fresh.functions + 1 }
  return "$f" ++ toString fresh.functions

def refuse {α : Type} (error : ParseError) : Lifting α :=
  throw error

/-- Whether a name is kept for generated names. -/
def isReserved (name : String) : Bool :=
  name.startsWith "$"

/-- Refuses reserved names. -/
def checkName (pos : Position) (name : String) : Lifting Unit :=
  if isReserved name then refuse (.reservedName name pos) else return ()

mutual

/-- The first reserved name in an expression without calls and functions. -/
def reservedIn : Expr → Option (String × Position)
  | .name pos n => if isReserved n then some (n, pos) else none
  | .array _ items => reservedInList items
  | .object _ entries => reservedInEntries entries
  | .member _ object _ => reservedIn object
  | .index _ object index => (reservedIn object).or (reservedIn index)
  | .unary _ _ operand => reservedIn operand
  | .binary _ _ left right => (reservedIn left).or (reservedIn right)
  | _ => none
termination_by structural e => e

def reservedInList : List Expr → Option (String × Position)
  | [] => none
  | e :: es => (reservedIn e).or (reservedInList es)
termination_by structural es => es

def reservedInEntries : List (String × Expr) → Option (String × Position)
  | [] => none
  | (_, e) :: es => (reservedIn e).or (reservedInEntries es)
termination_by structural es => es

end

/-- The declaration of a generated name at a position. -/
def bind (pos : Position) (name : String) (value : Expr) : Stmt :=
  .declare pos .ofLet [(.name name, some value)]

/-- Where an expression stands, which decides what becomes of calls and functions in it. -/
inductive Place where
  /-- The whole initial value of a declaration: a call or a function may stay. -/
  | bound
  /-- Evaluated exactly once with its statement: calls are moved in front of the statement. -/
  | free
  /-- Evaluated only sometimes, or more than once: calls are refused. -/
  | guarded (construct : Construct)

/-- The place of the parts of an expression. -/
def Place.inner : Place → Place
  | bound => free
  | place => place

/-- The place of the right operand of an operator. -/
def Place.right (place : Place) (op : BinaryOp) : Place :=
  if op.isLogical then guarded .callInShortCircuit else place.inner

/-- The declarations an expression leaves in front of its statement, and what remains of it. -/
abbrev Lifted := List Stmt × Expr

/-- What becomes of a call whose parts have been lifted. -/
def placeCall (place : Place) (pos : Position) (front : List Stmt) (call : Expr) :
    Lifting Lifted :=
  match place with
  | .bound => return (front, call)
  | .free => do
    let name ← freshResult
    return (front ++ [bind pos name call], .name pos name)
  | .guarded construct => refuse (.unsupported construct pos)

/-- The name under which a function is declared when it is moved out of an expression. -/
def functionName (pos : Position) : Option String → Lifting String
  | some name => do
    checkName pos name
    return name
  | none => freshFunction

/-- Refuses reserved names in an expression without calls and functions. -/
def checkNames (e : Expr) : Lifting Unit :=
  match reservedIn e with
  | some (name, pos) => refuse (.reservedName name pos)
  | none => return ()

/-- The value of a plain assignment that does the work of a compound one. -/
def spellOut (pos : Position) (op : AssignOp) (target value : Expr) : Expr :=
  match op.binary with
  | some binary => .binary pos binary target value
  | none => value

mutual

/-- Moves calls and functions out of an expression. -/
def lift (place : Place) : Expr → Lifting Lifted
  | .call pos callee args =>
    match place with
    | .guarded construct => refuse (.unsupported construct pos)
    | _ => do
      let (front, callee) ← lift .free callee
      let (more, args) ← liftList .free args
      placeCall place pos (front ++ more) (.call pos callee args)
  | .function pos name params body =>
    match place with
    | .bound => do
      params.forM (checkName pos)
      let body ← stmts body
      return ([], .function pos name params body)
    | _ => do
      let name ← functionName pos name
      params.forM (checkName pos)
      let body ← stmts body
      return ([.function pos name params body], .name pos name)
  | .name pos n => do
    checkName pos n
    return ([], .name pos n)
  | .binary pos op left right => do
    let (front, left) ← lift place.inner left
    let (more, right) ← lift (place.right op) right
    return (front ++ more, .binary pos op left right)
  | .unary pos op operand => do
    let (front, operand) ← lift place.inner operand
    return (front, .unary pos op operand)
  | .member pos object property => do
    let (front, object) ← lift place.inner object
    return (front, .member pos object property)
  | .index pos object index => do
    let (front, object) ← lift place.inner object
    let (more, index) ← lift place.inner index
    return (front ++ more, .index pos object index)
  | .array pos items => do
    let (front, items) ← liftList place.inner items
    return (front, .array pos items)
  | .object pos entries => do
    let (front, entries) ← liftEntries place.inner entries
    return (front, .object pos entries)
  | .assign pos _ _ _ => refuse (.unsupported .nestedAssign pos)
  | .update pos _ _ _ => refuse (.unsupported .nestedUpdate pos)
  | .number pos x => return ([], .number pos x)
  | .string pos s => return ([], .string pos s)
  | .boolean pos b => return ([], .boolean pos b)
  | .null pos => return ([], .null pos)
termination_by structural e => e

def liftList (place : Place) : List Expr → Lifting (List Stmt × List Expr)
  | [] => return ([], [])
  | e :: es => do
    let (front, e) ← lift place e
    let (more, es) ← liftList place es
    return (front ++ more, e :: es)
termination_by structural es => es

def liftEntries (place : Place) :
    List (String × Expr) → Lifting (List Stmt × List (String × Expr))
  | [] => return ([], [])
  | (key, e) :: es => do
    let (front, e) ← lift place e
    let (more, es) ← liftEntries place es
    return (front ++ more, (key, e) :: es)
termination_by structural es => es

/-- The normal form of a statement: the declarations moved in front of it, and what remains. -/
def stmt : Stmt → Lifting (List Stmt)
  | .declare pos kind ds => declarators pos kind ds
  | .function pos name params body => do
    checkName pos name
    params.forM (checkName pos)
    let body ← stmts body
    return [.function pos name params body]
  | .ifElse pos test consequent none => do
    let (front, test) ← lift .free test
    let consequent ← stmts consequent
    return front ++ [.ifElse pos test consequent none]
  | .ifElse pos test consequent (some alternate) => do
    let (front, test) ← lift .free test
    let consequent ← stmts consequent
    let alternate ← stmts alternate
    return front ++ [.ifElse pos test consequent (some alternate)]
  | .whileDo pos test body => do
    let (front, test) ← lift (.guarded .callInLoopTest) test
    let body ← stmts body
    return front ++ [.whileDo pos test body]
  | .labeled pos label body => return [.labeled pos label (← stmts body)]
  | .breakTo pos label => return [.breakTo pos label]
  | .returnWith pos none => return [.returnWith pos none]
  | .returnWith pos (some value) => do
    let (front, value) ← lift .free value
    return front ++ [.returnWith pos (some value)]
  | .block pos body => return [.block pos (← stmts body)]
  | .expr _ (.call pos callee args) => do
    let (front, callee) ← lift .free callee
    let (more, args) ← liftList .free args
    let name ← freshResult
    return front ++ more ++ [bind pos name (.call pos callee args)]
  | .expr _ (.assign pos op target value) => do
    let (front, target) ← lift (.guarded .callInAssignTarget) target
    if op.binary.isSome then
      checkNames target
    let (more, value) ← lift .free value
    return front ++ more ++ [.expr pos (.assign pos .assign target (spellOut pos op target value))]
  | .expr _ (.update pos op isPrefix target) => do
    let (front, target) ← lift (.guarded .callInUpdateTarget) target
    return front ++ [.expr pos (.update pos op isPrefix target)]
  | .expr _ e => do
    let (front, e) ← lift .free e
    return front ++ [.expr e.pos e]
termination_by structural s => s

def declarators (pos : Position) (kind : DeclKind) :
    List (Pattern × Option Expr) → Lifting (List Stmt)
  | [] => return []
  | (target, none) :: ds => do
    target.names.forM (checkName pos)
    return .declare pos kind [(target, none)] :: (← declarators pos kind ds)
  | (target, some e) :: ds => do
    target.names.forM (checkName pos)
    let (front, e) ← lift .bound e
    return front ++ .declare pos kind [(target, some e)] :: (← declarators pos kind ds)
termination_by structural ds => ds

def stmts : List Stmt → Lifting (List Stmt)
  | [] => return []
  | s :: ss => return (← stmt s) ++ (← stmts ss)
termination_by structural ss => ss

end

end NormalForm

def normalize (program : Program) : Except ParseError Program :=
  (NormalForm.stmts program).run' Fresh.none

end TraceLoom.Script
