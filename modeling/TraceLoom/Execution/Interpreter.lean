import TraceLoom.Execution.Native
import TraceLoom.Script.Printer

/-!
The meaning of expressions and statements.  It follows the syntax: whatever is not part of the
program text is a parameter or a bound.  Calls are a parameter, `call`, of the meaning of an
expression, which gets the expression that is called, its value, and the arguments;
`enterClosure` supplies it by recursion on how deep calls may still nest, and loops recurse on how
often their body may still run.
-/

namespace TraceLoom

open Script

namespace Running

def openScope (env : Environment) : Running Environment :=
  make (Store.child env)

def makeFunction (name : Option String) (params : List String) (body : List Stmt)
    (env : Environment) (bindsSelf : Bool) : Running Value :=
  make (Store.newFunction ⟨name, params, body, env, bindsSelf⟩)

/-- Declares the functions of a block, which all its statements see. -/
def hoist (env : Environment) : List Stmt → Running Unit
  | [] => return ()
  | .function _ name params body :: rest => do
    let f ← makeFunction (some name) params body env false
    change (Store.declare env name f false)
    hoist env rest
  | _ :: rest => hoist env rest

/-- Runs the statements of a block in a scope of its own. -/
def inScope (env : Environment) (body : List Stmt) (exec : Environment → Running Flow) :
    Running Flow := do
  let inner ← openScope env
  hoist inner body
  exec inner

def bindPattern (env : Environment) (kind : DeclKind) (target : Pattern) (value : Value) :
    Running Unit := do
  let constant := decide (kind = .ofConst)
  match target with
  | .name name => change (Store.declare env name value constant)
  | .array names =>
    let bound ← read fun s => s.destructure names value
    change fun s => bound.foldl (fun s entry => s.declare env entry.1 entry.2 constant) s

def readName (env : Environment) (name : String) : Running Value :=
  read fun s =>
    match s.lookup? env name with
    | some v => .ok v
    | none => .error (.notDefined name)

def applyOperator (op : BinaryOp) (v w : Value) : Running Value := do
  return (← get).store.binary op v w

def setName (env : Environment) (name : String) (value : Value) : Running Unit := do
  let location ← read fun s => s.variableLocation env name
  change (Store.put location value)

def setPart (v key value : Value) : Running Unit := do
  let limit := (← get).config.maxArrayLength
  let location ← read fun s => s.partLocation limit v key
  change (Store.put location value)

/-- Calls the function that a method call has found.  If it found none, the receiver may have the
method by itself. -/
def callMethod (call : Expr → Value → List Value → Running Value) (callee : Expr)
    (receiver : Value) (name : String) (function : Value) (args : List Value) : Running Value :=
  if function.isCallable then call callee function args
  else
    match Method.find? receiver name with
    | some method => make (Store.invoke method args)
    | none => throw (.notAFunction callee.toSource)

def callFunction (call : Expr → Value → List Value → Running Value) (callee : Expr)
    (function : Value) (args : List Value) : Running Value :=
  if function.isCallable then call callee function args
  else throw (.notAFunction callee.toSource)

end Running

namespace Script

open Running

variable (call : Expr → Value → List Value → Running Value)

mutual

def Expr.eval (env : Environment) : Expr → Running Value
  | .number _ x => return .number x
  | .string _ s => return .string s
  | .boolean _ b => return .boolean b
  | .null _ => return .null
  | .name _ n => readName env n
  | .array _ items => do
    let values ← Expr.evalList env items
    make (Store.newArray values.toArray)
  | .object _ entries => do
    let fields ← Expr.evalEntries env entries
    make (Store.newObject (Fields.ofPairs fields))
  | .function _ n params body => makeFunction n params body env n.isSome
  | .member _ base property => do
    let v ← Expr.eval env base
    read fun s => s.property v property
  | .index _ base key => do
    let v ← Expr.eval env base
    let k ← Expr.eval env key
    read fun s => s.element v k
  | .call _ (.member pos base property) args => do
    let receiver ← Expr.eval env base
    let function ← read fun s => s.property receiver property
    let values ← Expr.evalList env args
    callMethod call (.member pos base property) receiver property function values
  | .call _ callee args => do
    let function ← Expr.eval env callee
    let values ← Expr.evalList env args
    callFunction call callee function values
  | .unary _ op operand => do
    let v ← Expr.eval env operand
    return v.unary op
  | .binary _ op left right => do
    let v ← Expr.eval env left
    match op with
    | .and => if v.isTruthy then Expr.eval env right else return v
    | .or => if v.isTruthy then return v else Expr.eval env right
    | op => do
      let w ← Expr.eval env right
      applyOperator op v w
  | .assign _ op target value => do
    let w ← Expr.eval env value
    let w ← match op.binary with
      | none => pure w
      | some op => do
        let v ← Expr.eval env target
        applyOperator op v w
    Expr.assignTo env w target
    return w
  | .update _ op isPrefix target => do
    let old : Value := .number (← Expr.eval env target).toNumber
    let new ← applyOperator op.binary old (.number 1.0)
    Expr.assignTo env new target
    return if isPrefix then new else old
termination_by structural e => e

/-- Assigns to a target.  Its parts are evaluated after the value. -/
def Expr.assignTo (env : Environment) (value : Value) : Expr → Running Unit
  | .name _ n => setName env n value
  | .member _ base property => do
    let v ← Expr.eval env base
    setPart v (.string property) value
  | .index _ base key => do
    let v ← Expr.eval env base
    let k ← Expr.eval env key
    setPart v k value
  | target => throw (.typeError "assignment" "an identifier or member" target.describe)
termination_by structural target => target

def Expr.evalList (env : Environment) : List Expr → Running (List Value)
  | [] => return []
  | e :: es => do
    let v ← Expr.eval env e
    let vs ← Expr.evalList env es
    return v :: vs
termination_by structural es => es

def Expr.evalEntries (env : Environment) : List (String × Expr) → Running (List (String × Value))
  | [] => return []
  | (key, e) :: es => do
    let v ← Expr.eval env e
    let vs ← Expr.evalEntries env es
    return (key, v) :: vs
termination_by structural es => es

end

mutual

def Stmt.exec (env : Environment) : Stmt → Running Flow
  | .declare _ kind declarators => do
    Stmt.execDeclarators env kind declarators
    return .next
  | .function .. => return .next
  | .ifElse _ test consequent none => do
    if (← Expr.eval call env test).isTruthy then
      inScope env consequent fun inner => Stmt.execList inner consequent
    else return .next
  | .ifElse _ test consequent (some alternate) => do
    if (← Expr.eval call env test).isTruthy then
      inScope env consequent fun inner => Stmt.execList inner consequent
    else inScope env alternate fun inner => Stmt.execList inner alternate
  | .whileDo _ test body => do
    let limit := (← get).config.maxLoopIterations
    loop limit (return (← Expr.eval call env test).isTruthy)
      (inScope env body fun inner => Stmt.execList inner body) limit
  | .labeled _ label body => do
    match ← inScope env body fun inner => Stmt.execList inner body with
    | .breakTo (some target) =>
      return if target = label then .next else .breakTo (some target)
    | flow => return flow
  | .breakTo _ label => return .breakTo label
  | .returnWith _ none => return .returnWith .undefined
  | .returnWith _ (some e) => return .returnWith (← Expr.eval call env e)
  | .block _ body => inScope env body fun inner => Stmt.execList inner body
  | .expr _ e => do
    let _ ← Expr.eval call env e
    return .next
termination_by structural s => s

def Stmt.execDeclarators (env : Environment) (kind : DeclKind) :
    List (Pattern × Option Expr) → Running Unit
  | [] => return ()
  | (target, none) :: ds => do
    bindPattern env kind target .undefined
    Stmt.execDeclarators env kind ds
  | (target, some e) :: ds => do
    bindPattern env kind target (← Expr.eval call env e)
    Stmt.execDeclarators env kind ds
termination_by structural ds => ds

/-- Executes statements in order, up to the first that does not go on to the next. -/
def Stmt.execList (env : Environment) : List Stmt → Running Flow
  | [] => return .next
  | s :: ss => do
    match ← Stmt.exec env s with
    | .next => Stmt.execList env ss
    | flow => return flow
termination_by structural ss => ss

end

/-- Executes the statements of a block in a given scope. -/
def Stmt.execBlock (env : Environment) (body : List Stmt) : Running Flow := do
  hoist env body
  Stmt.execList call env body

end Script

namespace Running

def labelText (label : Option String) : String :=
  label.getD ""

/-- The scope of a function body: the function itself, then its parameters. -/
def openBody (function : Value) (closure : Closure) (args : List Value) : Running Environment := do
  let env ← openScope closure.env
  match closure.bindsSelf, closure.name with
  | true, some name => change (Store.declare env name function false)
  | _, _ => pure ()
  change fun s => closure.params.zipIdx.foldl (fun s entry =>
    s.declare env entry.1 (args[entry.2]?.getD .undefined) false) s
  return env

/-- Applies a value to arguments, given how closures are entered and what happens to a callback
whose answer is there. -/
def applyWith (enter : Value → Closure → List Value → Running Value)
    (onAnswer : Registration → Value → Value → Running Unit) (callee : Option Expr)
    (function : Value) (args : List Value) : Running Value := do
  permit callee function args
  match function with
  | .function _ closure => enter function closure args
  | .native n =>
    match ← n.perform args with
    | .value v => return v
    | .answered registration callback answer => do
      onAnswer registration callback answer
      return .undefined
  | other => throw (.notAFunction ((← get).store.text other))

/-- Applies a value to arguments, given how closures are entered.  An answer is data, so a host
operation that is itself called with it finds no callback, and no second answer comes of it. -/
def apply (enter : Value → Closure → List Value → Running Value) (callee : Option Expr)
    (function : Value) (args : List Value) : Running Value :=
  applyWith enter (fun registration callback answer =>
    fire registration none (applyWith enter (fun _ _ _ => return ()) none callback [answer]))
    callee function args

/-- Runs the body of a closure, where calls may nest `depth` deep, of `limit` at the outset. -/
def enterClosure (limit : Nat) : Nat → Value → Closure → List Value → Running Value
  | 0, _, _, _ => throw (.callDepth limit)
  | depth + 1, function, closure, args => do
    let env ← openBody function closure args
    match ← Stmt.execBlock (fun callee => apply (enterClosure limit depth) callee) env
        closure.body with
    | .next => return .undefined
    | .returnWith v => return v
    | .breakTo label => throw (.labelNotOpen (labelText label))

/-- Calls a value from outside of any function. -/
def callFrom (callee : Option Expr) (function : Value) (args : List Value) : Running Value := do
  let limit := (← get).config.maxCallDepth
  apply (enterClosure limit limit) callee function args

/-- Calls a value as the host does. -/
def call (function : Value) (args : List Value) : Running Value :=
  callFrom none function args

end Running

end TraceLoom
