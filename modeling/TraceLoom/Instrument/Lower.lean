import TraceLoom.Instrument.Names
import TraceLoom.Instrument.Options
import TraceLoom.Instrument.Primitive

/-!
Expressions that build traces.  Lowering an expression gives another one that, when it runs,
builds the trace tree of the first: `x + 1` becomes
`exp.binop("+", exp.identifier("x"), exp.number(1))`.  A name the function captures is read from
its closure record.
-/

namespace TraceLoom

open Script

/-- The variable that holds the closure record in every instrumented function. -/
def closureParam : String := "$clos"

/-- Lowering resolves the names it meets. -/
abbrev Lowering := StateT Names (Except InstrumentError)

structure Lower where
  options : InstrumentOptions
  primitives : Primitives

namespace Lower

/-- A call of a function that builds a node. -/
def builder (l : Lower) (name : String) (args : List Expr) : Expr :=
  .invoke (.ident l.options.expBinding) name args

def undefined (l : Lower) : Expr :=
  .dot (.ident l.options.expBinding) "undefined_"

/-- What builds the node of a name that is bound in a certain way. -/
def source (l : Lower) (name : String) : Binding → Expr
  | .own => l.builder "identifier" [.text name]
  | .captured => l.builder "from" [.ident closureParam, .text name]

/-- What builds the node of a name that is used at a position. -/
def reference (l : Lower) (name : String) (pos : Position) : Lowering Expr := do
  if name == "undefined" then return l.undefined
  else if l.primitives.isGlobal name then return l.builder "identifier" [.text name]
  else
    let (binding, names) := (← get).resolve name pos
    set names
    return l.source name binding

/-- What builds a closure record.  `self` is the name a function expression gives itself, with
the variable that holds the function. -/
def closureRecord (l : Lower) (self : Option (String × String))
    (sources : List (String × Binding)) : Expr :=
  let own := self.toList.map fun (name, holder) => (name, l.source holder .own)
  let captured := sources.map fun (name, binding) => (name, l.source name binding)
  l.builder "clos" [.record (own ++ captured)]

def refuse {α : Type} (form : Untraceable) (pos : Position) : Lowering α :=
  throw (.unsupported form pos)

mutual

/-- What builds the tree of an expression without calls, assignments and functions. -/
def expr (l : Lower) : Expr → Lowering Expr
  | .number _ x => return l.builder "number" [.num x]
  | .string _ s => return l.builder "string" [.text s]
  | .boolean _ b => return l.builder "boolean" [.boolean .none b]
  | .name pos n => l.reference n pos
  | .array _ items => return l.builder "array" [.list (← exprs l items)]
  | .object _ entries => return l.builder "obj" [.record (← fields l entries)]
  | .member _ object property => return l.builder "get" [← expr l object, .text property]
  | .index _ object index => do
    let object ← expr l object
    let index ← expr l index
    return l.builder "index" [object, index]
  | .unary _ op operand => return l.builder "op1" [.text op.symbol, ← expr l operand]
  | .binary _ op left right => do
    let left ← expr l left
    let right ← expr l right
    return l.builder "binop" [.text op.symbol, left, right]
  | .null pos => refuse (.nested "null literal") pos
  | .function pos _ _ _ => refuse (.nested "function expression") pos
  | .call pos _ _ => refuse (.nested "call expression") pos
  | .assign pos _ _ _ => refuse (.nested "assignment expression") pos
  | .update pos _ _ _ => refuse (.nested "update expression") pos
termination_by structural e => e

def exprs (l : Lower) : List Expr → Lowering (List Expr)
  | [] => return []
  | e :: es => do
    let e ← expr l e
    let es ← exprs l es
    return e :: es
termination_by structural es => es

def fields (l : Lower) : List (String × Expr) → Lowering (List (String × Expr))
  | [] => return []
  | (key, e) :: es => do
    let e ← expr l e
    let es ← fields l es
    return (key, e) :: es
termination_by structural es => es

end

/-- What builds the node of a function that is called. -/
def callee (l : Lower) : Expr → Lowering Expr
  | .name pos n => l.reference n pos
  | .member pos (.member ..) _ => refuse .chainedCall pos
  | .member pos (.index ..) _ => refuse .chainedCall pos
  | .member _ object property => return l.builder "get" [← l.expr object, .text property]
  | e => refuse (.callOf e.describe) e.pos

/-- What builds the node of the target of an assignment. -/
def target (l : Lower) : Expr → Lowering Expr
  | .name pos n =>
    if n == "undefined" || l.primitives.isGlobal n then refuse (.assignTo n) pos
    else l.reference n pos
  | .member pos object property =>
    if object.name?.isNone then refuse .chainedAssign pos
    else return l.builder "index" [← l.expr object, l.builder "string" [.text property]]
  | .index pos object index =>
    match object.name? with
    | none => refuse .chainedAssign pos
    | some name => do
      if (← get).lookup name ≠ some .own then refuse .capturedIndexWrite pos
      let object ← l.expr object
      let index ← l.expr index
      return l.builder "index" [object, index]
  | e => refuse (.assignToExpr e.describe) e.pos

end Lower

end TraceLoom
