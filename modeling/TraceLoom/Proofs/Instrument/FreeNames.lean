import TraceLoom.Instrument.Weave

/-!
Free names: what an expression or a statement list refers to and does not bind itself.  A function
binds its parameters, a block everything declared in it, before the declaration as well as behind
it.  What a function expression binds by giving itself a name is a parameter, `own`.
-/

namespace TraceLoom.Script

open Instrument (declared)

/-- What the statements of a block declare. -/
def declaredIn (body : List Stmt) : List String :=
  body.flatMap declared

variable (own : Option String → List String)

mutual

def Expr.freeNames : Expr → List String
  | .name _ n => [n]
  | .array _ items => Expr.freeNamesList items
  | .object _ entries => Expr.freeNamesEntries entries
  | .function _ self params body =>
    (Stmt.freeNamesList body).filter (· ∉ params ++ declaredIn body ++ own self)
  | .member _ object _ => object.freeNames
  | .index _ object index => object.freeNames ++ index.freeNames
  | .call _ callee args => callee.freeNames ++ Expr.freeNamesList args
  | .unary _ _ operand => operand.freeNames
  | .binary _ _ left right => left.freeNames ++ right.freeNames
  | .assign _ _ target value => target.freeNames ++ value.freeNames
  | .update _ _ _ target => target.freeNames
  | .number .. | .string .. | .boolean .. | .null _ => []
termination_by structural e => e

def Expr.freeNamesList : List Expr → List String
  | [] => []
  | e :: es => e.freeNames ++ Expr.freeNamesList es
termination_by structural es => es

def Expr.freeNamesEntries : List (String × Expr) → List String
  | [] => []
  | (_, e) :: es => e.freeNames ++ Expr.freeNamesEntries es
termination_by structural es => es

def Stmt.freeNames : Stmt → List String
  | .declare _ _ ds => Stmt.freeNamesDeclarators ds
  | .function _ _ params body =>
    (Stmt.freeNamesList body).filter (· ∉ params ++ declaredIn body)
  | .ifElse _ test consequent none =>
    test.freeNames ++ (Stmt.freeNamesList consequent).filter (· ∉ declaredIn consequent)
  | .ifElse _ test consequent (some alternate) =>
    test.freeNames ++ ((Stmt.freeNamesList consequent).filter (· ∉ declaredIn consequent) ++
      (Stmt.freeNamesList alternate).filter (· ∉ declaredIn alternate))
  | .whileDo _ test body =>
    test.freeNames ++ (Stmt.freeNamesList body).filter (· ∉ declaredIn body)
  | .labeled _ _ body | .block _ body =>
    (Stmt.freeNamesList body).filter (· ∉ declaredIn body)
  | .breakTo .. => []
  | .returnWith _ none => []
  | .returnWith _ (some value) => value.freeNames
  | .expr _ e => e.freeNames
termination_by structural s => s

def Stmt.freeNamesDeclarators : List (Pattern × Option Expr) → List String
  | [] => []
  | (_, none) :: ds => Stmt.freeNamesDeclarators ds
  | (_, some e) :: ds => e.freeNames ++ Stmt.freeNamesDeclarators ds
termination_by structural ds => ds

def Stmt.freeNamesList : List Stmt → List String
  | [] => []
  | s :: ss => s.freeNames ++ Stmt.freeNamesList ss
termination_by structural ss => ss

end

/-- A function of a program: the variable it goes into, the name it gives itself, and the names
that the function around it, or the program, has bound where it stands. -/
structure FunctionSite where
  holder : String
  self : Option String
  params : List String
  body : List Stmt
  bound : List String

mutual

/-- The functions of a statement, in order, each before those in its body. -/
def Stmt.functionSites (bound : List String) : Stmt → List FunctionSite
  | .declare _ _ [(.name holder, some (.function _ self params body))] =>
    ⟨holder, self, params, body, bound⟩ ::
      Stmt.functionSitesList (params ++ declaredIn body) body
  | .function _ holder params body =>
    ⟨holder, none, params, body, bound⟩ ::
      Stmt.functionSitesList (params ++ declaredIn body) body
  | .ifElse _ _ consequent none =>
    Stmt.functionSitesList (bound ++ declaredIn consequent) consequent
  | .ifElse _ _ consequent (some alternate) =>
    Stmt.functionSitesList (bound ++ declaredIn consequent) consequent ++
      Stmt.functionSitesList (bound ++ declaredIn alternate) alternate
  | .whileDo _ _ body | .labeled _ _ body | .block _ body =>
    Stmt.functionSitesList (bound ++ declaredIn body) body
  | _ => []
termination_by structural s => s

def Stmt.functionSitesList (bound : List String) : List Stmt → List FunctionSite
  | [] => []
  | s :: ss => Stmt.functionSites bound s ++ Stmt.functionSitesList bound ss
termination_by structural ss => ss

end

/-- The functions of a program. -/
def Program.functionSites (p : Program) : List FunctionSite :=
  Stmt.functionSitesList (declaredIn p) p

/-- What the body of a function and the functions in it refer to and do not bind. -/
def FunctionSite.freeNames (site : FunctionSite) : List String :=
  (Stmt.freeNamesList own site.body).filter (· ∉ site.params ++ declaredIn site.body)

end TraceLoom.Script
