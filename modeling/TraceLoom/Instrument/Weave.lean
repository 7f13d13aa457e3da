import TraceLoom.Instrument.Lower
import TraceLoom.Numeric.Binary64

/-!
Instrumentation.  Next to every statement of a normal program stands a call of the recorder that
says what the statement does; the statements themselves stay as they are, so the instrumented
program computes what the program did.
-/

namespace TraceLoom

open Script

namespace Instrument

/-- Where a statement stands: in a function or not, and which labels are open around it.  Labels
end at the borders of functions. -/
structure Place where
  inFunction : Bool
  labels : List String

namespace Place

def top : Place :=
  ⟨false, []⟩

def functionBody : Place :=
  ⟨true, []⟩

def withLabel (place : Place) (label : String) : Place :=
  { place with labels := place.labels ++ [label] }

end Place

/-- The names of the function being instrumented, and how many tests have been given names. -/
structure State where
  names : Names
  tests : Nat

abbrev Weaving := StateT State (Except InstrumentError)

variable (l : Lower)

def refuse {α : Type} (error : InstrumentError) : Weaving α :=
  throw error

/-- Lowers an expression with the names of the function. -/
def lowered {α : Type} (m : Lowering α) : Weaving α := do
  let state ← get
  let (result, names) ← m.run state.names
  set { state with names }
  return result

def names : Weaving Names :=
  return (← get).names

def setNames (names : Names) : Weaving Unit :=
  modify fun state => { state with names }

def freshTest : Weaving String := do
  let state ← get
  set { state with tests := state.tests + 1 }
  return "$test" ++ toString state.tests

/-- A call of an operation of the recorder. -/
def traceExpr (operation : String) (args : List Expr) : Expr :=
  .invoke (.dot (.ident l.options.callbacksBinding) "trace") operation args

def traceCall (operation : String) (args : List Expr) : Stmt :=
  .ofExpr (traceExpr l operation args)

def traceLet (name : String) (value : Expr) : Stmt :=
  traceCall l "traceLet" [.text name, value]

def exitBlock : Stmt :=
  traceCall l "exitBlock" []

def requireModule (binding path : String) : Stmt :=
  .letNamed binding (.call .none (.ident "require") [.text path])

/-- Refuses names that the instrumented program uses itself. -/
def checkBinding (pos : Position) (name : String) : Weaving Unit :=
  if l.options.isReserved name then refuse (.reservedBinding name pos) else return ()

def declared : Stmt → List String
  | .declare _ _ ds => ds.flatMap fun d => d.1.names
  | .function _ name _ _ => [name]
  | _ => []

/-- Binds all names that a list of statements declares, so that functions may refer to
declarations behind them. -/
def bindDeclared (stmts : List Stmt) : Weaving Unit :=
  stmts.forM fun s => (declared s).forM fun name => do
    checkBinding l s.pos name
    modify fun state => { state with names := state.names.bind name s.pos }

/-- Weaves in a scope of its own. -/
def inScope {α : Type} (m : Weaving α) : Weaving α := do
  let outer ← names
  let result ← m
  setNames ((← names).leave outer)
  return result

/-- Names whose values the program does not use; they need not be recorded. -/
def isGenerated (name : String) : Bool :=
  name.startsWith "$"

/-- The statements around a declaration whose value is a call. -/
def call (name : String) (callee : Expr) (args : List Expr) (kept : Stmt) :
    Weaving (List Stmt) := do
  match l.primitives.classify callee args with
  | .require path =>
    let path := l.builder "string" [.text path]
    let value := l.builder "primApp" [.text "require", .list [path]]
    return [traceLet l name value, kept]
  | .console method => do
    let args ← lowered (l.exprs args)
    let event := traceCall l "tracePrimApp" [.text (Primitives.consoleEvent method), .list args]
    if isGenerated name then return [event, kept]
    else return [event, traceLet l name l.undefined, kept]
  | .method object method => do
    let object ← lowered (l.expr object)
    let args ← lowered (l.exprs args)
    return [traceLet l name (l.builder "methodCall" [object, .text method, .list args]), kept]
  | .function => do
    let callee ← lowered (l.callee callee)
    let args ← lowered (l.exprs args)
    return [traceCall l "traceFunctionCall" [.text name, .list (callee :: args)], kept,
      exitBlock l]

/-- The statements around an expression that is a statement. -/
def expression (e : Expr) (kept : Stmt) : Weaving (List Stmt) := do
  match e with
  | .assign _ .assign target value => do
    let value ← lowered (l.expr value)
    let target ← lowered (l.target target)
    return [traceCall l "traceSet" [target, value], kept]
  | .update _ op _ target =>
    match target with
    | .name pos n => do
      let current ← lowered (l.reference n pos)
      let next := l.builder "binop"
        [.text op.binary.symbol, current, l.builder "number" [.num 1.0]]
      return [traceCall l "traceSet" [current, next], kept]
    | _ => refuse (.unsupported .updateOfProperty target.pos)
  | .assign pos op _ _ => refuse (.unsupported (.compoundAssign op) pos)
  | .call pos _ _ => refuse (.unsupported .bareCall pos)
  | _ => do
    let _ ← lowered (l.expr e)
    return [kept]

/-- The first statements of a function: they take its closure and arguments from the recorder and
record its parameters. -/
def prologue (params : List String) : List Stmt :=
  let arguments := (List.range params.length).map fun i => "$p" ++ toString i
  let body := traceExpr l "traceFunctionBody"
    [.text l.options.returnLabel, .num (Numeric.Binary64.ofNat params.length)]
  .declare .none .ofLet [(.array (closureParam :: arguments), some body)] ::
    (params.zip arguments).map fun (param, argument) => traceLet l param (.ident argument)

/-- The body of a function and its closure record, from the weaving of its statements.  `self` is
the name a function expression gives itself, with the variable that holds it; uses of that name
in the body read the variable through the closure record. -/
def function (params : List String) (self : Option (String × String)) (pos : Position)
    (body : Weaving (List Stmt)) : Weaving (List Stmt × Expr) := do
  params.forM (checkBinding l pos)
  self.toList.forM fun (name, _) => checkBinding l pos name
  let outer ← names
  setNames (Names.ofParams params pos)
  let body ← body
  let inner ← names
  let (inner, self) := match self with
    | some (name, holder) =>
      let (inner, captured) := inner.forget name
      (inner, if captured then some (name, holder) else none)
    | none => (inner, none)
  let (outer, sources) := outer.closeOver inner
  setNames outer
  return (prologue l params ++ body ++ [exitBlock l], l.closureRecord self sources)

/-- Binds the name of a declaration after its statements. -/
def binding (name : String) (pos : Position) (stmts : Weaving (List Stmt)) :
    Weaving (List Stmt) := do
  let stmts ← stmts
  modify fun state => { state with names := state.names.bind name pos }
  return stmts

mutual

def stmt (place : Place) : Stmt → Weaving (List Stmt)
  | .declare pos kind [(.name name, some (.function fpos self params body))] =>
    binding name pos do
      let (body, closure) ← function l params (self.map (·, name)) fpos (do
        bindDeclared l body
        stmts .functionBody body)
      return [traceLet l name closure,
        .declare pos kind [(.name name, some (.function fpos self params body))]]
  | .declare pos kind [(.name name, some (.call cpos callee args))] =>
    binding name pos
      (call l name callee args (.declare pos kind [(.name name, some (.call cpos callee args))]))
  | .declare pos kind [(.name name, some value)] =>
    binding name pos do
      let traced ← lowered (l.expr value)
      return [traceLet l name traced, .declare pos kind [(.name name, some value)]]
  | .declare pos kind [(.name name, none)] =>
    binding name pos do
      return [traceLet l name l.undefined, .declare pos kind [(.name name, none)]]
  | .declare pos _ [(.array _, _)] => refuse (.unsupported .patternDeclaration pos)
  | .declare pos _ _ => refuse (.unsupported .severalDeclarators pos)
  | .function pos name params body => do
    let (body, closure) ← function l params none pos (do
      bindDeclared l body
      stmts .functionBody body)
    return [traceLet l name closure, .function pos name params body]
  | .ifElse pos test consequent none => do
    let traced ← lowered (l.expr test)
    let name ← freshTest
    let before ← names
    let yes ← inScope (do
      bindDeclared l consequent
      stmts place consequent)
    let joined ← (← names).join before
    setNames joined
    return [.letNamed name traced,
      .ifElse pos test (traceCall l "traceIfTrue" [.ident name] :: yes)
        (some [traceCall l "traceIfFalse" [.ident name]]),
      exitBlock l]
  | .ifElse pos test consequent (some alternate) => do
    let traced ← lowered (l.expr test)
    let name ← freshTest
    let before ← names
    let yes ← inScope (do
      bindDeclared l consequent
      stmts place consequent)
    let afterYes ← names
    setNames before
    let no ← inScope (do
      bindDeclared l alternate
      stmts place alternate)
    let joined ← afterYes.join (← names)
    setNames joined
    return [.letNamed name traced,
      .ifElse pos test (traceCall l "traceIfTrue" [.ident name] :: yes)
        (some (traceCall l "traceIfFalse" [.ident name] :: no)),
      exitBlock l]
  | .whileDo pos test body => do
    let traced ← lowered (l.expr test)
    let body ← inScope (do
      bindDeclared l body
      stmts place body)
    return [traceCall l "traceWhile" [traced],
      .whileDo pos test (traceCall l "traceLoop" [] :: body), exitBlock l]
  | .labeled pos label body => do
    let body ← inScope (do
      bindDeclared l body
      stmts (place.withLabel label) body)
    return [traceCall l "traceLabel" [.text label], .labeled pos label (body ++ [exitBlock l])]
  | .breakTo pos none => refuse (.unsupported .plainBreak pos)
  | .breakTo pos (some label) =>
    if label ∈ place.labels then
      return [traceCall l "traceBreak" [.text label, l.undefined], .breakTo pos (some label)]
    else refuse (.labelNotOpen label pos)
  | .returnWith pos value => do
    if !place.inFunction then refuse (.returnOutsideFunction pos)
    let traced ← match value with
      | some value => lowered (l.expr value)
      | none => pure l.undefined
    return [traceCall l "traceBreak" [.text l.options.returnLabel, traced],
      .returnWith pos value]
  | .block pos body => do
    let body ← inScope (do
      bindDeclared l body
      stmts place body)
    return [.block pos body]
  | .expr pos e => expression l e (.expr pos e)
termination_by structural s => s

def stmts (place : Place) : List Stmt → Weaving (List Stmt)
  | [] => return []
  | s :: ss => do
    let front ← stmt place s
    let rest ← stmts place ss
    return front ++ rest
termination_by structural ss => ss

end

/-- The instrumented program, from the statements of a program. -/
def program (p : Program) : Weaving Program := do
  bindDeclared l p
  let body ← stmts l .top p
  match (← names).captures with
  | (name, pos) :: _ => refuse (.unbound name pos)
  | [] =>
    return [requireModule l.options.expBinding l.options.expModule,
      requireModule l.options.callbacksBinding l.options.callbacksModule,
      traceCall l "newTrace" []] ++ body ++ [exitBlock l]

end Instrument

def instrument (options : InstrumentOptions) (primitives : Primitives) (p : Program) :
    Except InstrumentError Program :=
  (Instrument.program ⟨options, primitives⟩ p).run' ⟨.none, 0⟩

end TraceLoom
