import TraceLoom.Execution.Run

/-!
The interpreter, one function at a time.  A job is a call of one of its functions.  What the
function does is its code: steps of the machine, and further jobs, which are not unfolded.  Here
nothing says that there is an end: the depth of calls is a counter that `enter` tests, a loop
counts how often its body has run, and the jobs of a function body can be anything.  A run of a
job is a finite derivation, so a job that goes on forever has none.
-/

namespace TraceLoom

open Script
open Running hiding inScope call

inductive Job where
  | eval (env : Environment) (e : Expr)
  | assignTo (env : Environment) (value : Value) (target : Expr)
  | evalList (env : Environment) (es : List Expr)
  | evalEntries (env : Environment) (es : List (String × Expr))
  | exec (env : Environment) (s : Stmt)
  | declare (env : Environment) (kind : DeclKind) (ds : List (Pattern × Option Expr))
  | execList (env : Environment) (ss : List Stmt)
  /-- A block in a given scope, its functions first. -/
  | block (env : Environment) (body : List Stmt)
  /-- A block in a scope of its own. -/
  | inScope (env : Environment) (body : List Stmt)
  /-- A loop whose body has run some times. -/
  | loop (env : Environment) (test : Expr) (body : List Stmt) (turns : Nat)
  | call (callee : Option Expr) (function : Value) (args : List Value)
  | enter (function : Value) (closure : Closure) (args : List Value)
  /-- The body of a function, in the scope of its parameters. -/
  | body (env : Environment) (body : List Stmt)
  /-- A callback whose answer is there. -/
  | fire (registration : Registration) (callback answer : Value)

namespace Job

@[reducible] def Result : Job → Type
  | eval .. | call .. | enter .. => Value
  | assignTo .. | declare .. | fire .. => Unit
  | evalList .. => List Value
  | evalEntries .. => List (String × Value)
  | exec .. | execList .. | block .. | inScope .. | loop .. | body .. => Flow

/-- How many calls a job opens by itself: the body of a function is what a call runs. -/
def opens : Job → Nat
  | body .. => 1
  | _ => 0

/-- How often the body of the loop has run, if the job is a loop. -/
def turns : Job → Nat
  | loop _ _ _ turns => turns
  | _ => 0

end Job

/-- The value of a call whose body ended.  A break does not leave the function. -/
def Flow.value : Flow → Except EvalError Value
  | next => .ok .undefined
  | returnWith v => .ok v
  | breakTo label => .error (.labelNotOpen (labelText label))

/-- What one function of the interpreter does. -/
inductive Code (α : Type) : Type 1 where
  | done (result : Except EvalError α)
  | step {β : Type} (x : Running β) (next : Except EvalError β → Code α)
  /-- Reads how many calls are open. -/
  | depth (next : Nat → Code α)
  | setDepth (depth : Nat) (next : Code α)
  | job (j : Job) (next : Except EvalError j.Result → Code α)

namespace Code

variable {α β : Type}

def bind : Code α → (α → Code β) → Code β
  | done (.ok a), f => f a
  | done (.error e), _ => done (.error e)
  | step x next, f => step x fun r => (next r).bind f
  | depth next, f => depth fun n => (next n).bind f
  | setDepth n next, f => setDepth n (next.bind f)
  | job j next, f => job j fun r => (next r).bind f

instance : Monad Code where
  pure a := done (.ok a)
  bind := bind

def fail (e : EvalError) : Code α :=
  done (.error e)

def act (x : Running α) : Code α :=
  step x done

def openCalls : Code Nat :=
  depth fun n => done (.ok n)

def setOpenCalls (n : Nat) : Code Unit :=
  setDepth n (done (.ok ()))

/-- Does a job, which may fail. -/
def attempt (j : Job) : Code (Except EvalError j.Result) :=
  job j fun r => done (.ok r)

/-- Does a job and goes on if it succeeds. -/
def use (j : Job) : Code j.Result :=
  job j done

def eval (env : Environment) (e : Expr) : Code Value :=
  use (.eval env e)

def assignTo (env : Environment) (value : Value) (target : Expr) : Code Unit :=
  use (.assignTo env value target)

def evalList (env : Environment) (es : List Expr) : Code (List Value) :=
  use (.evalList env es)

def evalEntries (env : Environment) (es : List (String × Expr)) : Code (List (String × Value)) :=
  use (.evalEntries env es)

def call (callee : Option Expr) (function : Value) (args : List Value) : Code Value :=
  use (.call callee function args)

def inScope (env : Environment) (body : List Stmt) : Code Flow :=
  use (.inScope env body)

/-! ## The functions -/

def ofExpr (env : Environment) : Expr → Code Value
  | .number _ x => return .number x
  | .string _ s => return .string s
  | .boolean _ b => return .boolean b
  | .null _ => return .null
  | .name _ n => act (readName env n)
  | .array _ items => do
    let values ← evalList env items
    act (make (Store.newArray values.toArray))
  | .object _ entries => do
    let fields ← evalEntries env entries
    act (make (Store.newObject (Fields.ofPairs fields)))
  | .function _ n params body => act (makeFunction n params body env n.isSome)
  | .member _ base property => do
    let v ← eval env base
    act (read fun s => s.property v property)
  | .index _ base key => do
    let v ← eval env base
    let k ← eval env key
    act (read fun s => s.element v k)
  | .call _ (.member pos base property) args => do
    let receiver ← eval env base
    let function ← act (read fun s => s.property receiver property)
    let values ← evalList env args
    if function.isCallable then call (some (.member pos base property)) function values
    else
      match Method.find? receiver property with
      | some method => act (make (Store.invoke method values))
      | none => fail (.notAFunction (Expr.member pos base property).toSource)
  | .call _ callee args => do
    let function ← eval env callee
    let values ← evalList env args
    if function.isCallable then call (some callee) function values
    else fail (.notAFunction callee.toSource)
  | .unary _ op operand => do
    let v ← eval env operand
    return v.unary op
  | .binary _ op left right => do
    let v ← eval env left
    match op with
    | .and => if v.isTruthy then eval env right else return v
    | .or => if v.isTruthy then return v else eval env right
    | op => do
      let w ← eval env right
      act (applyOperator op v w)
  | .assign _ op target value => do
    let w ← eval env value
    let w ← match op.binary with
      | none => pure w
      | some op => do
        let v ← eval env target
        act (applyOperator op v w)
    assignTo env w target
    return w
  | .update _ op isPrefix target => do
    let old : Value := .number (← eval env target).toNumber
    let new ← act (applyOperator op.binary old (.number 1.0))
    assignTo env new target
    return if isPrefix then new else old

def ofTarget (env : Environment) (value : Value) : Expr → Code Unit
  | .name _ n => act (setName env n value)
  | .member _ base property => do
    let v ← eval env base
    act (setPart v (.string property) value)
  | .index _ base key => do
    let v ← eval env base
    let k ← eval env key
    act (setPart v k value)
  | target => fail (.typeError "assignment" "an identifier or member" target.describe)

def ofExprs (env : Environment) : List Expr → Code (List Value)
  | [] => return []
  | e :: es => do
    let v ← eval env e
    let vs ← evalList env es
    return v :: vs

def ofEntries (env : Environment) : List (String × Expr) → Code (List (String × Value))
  | [] => return []
  | (key, e) :: es => do
    let v ← eval env e
    let vs ← evalEntries env es
    return (key, v) :: vs

def ofStmt (env : Environment) : Stmt → Code Flow
  | .declare _ kind declarators => do
    use (.declare env kind declarators)
    return .next
  | .function .. => return .next
  | .ifElse _ test consequent none => do
    if (← eval env test).isTruthy then inScope env consequent else return .next
  | .ifElse _ test consequent (some alternate) => do
    if (← eval env test).isTruthy then inScope env consequent else inScope env alternate
  | .whileDo _ test body => use (.loop env test body 0)
  | .labeled _ label body => do
    match ← inScope env body with
    | .breakTo (some target) =>
      return if target = label then .next else .breakTo (some target)
    | flow => return flow
  | .breakTo _ label => return .breakTo label
  | .returnWith _ none => return .returnWith .undefined
  | .returnWith _ (some e) => return .returnWith (← eval env e)
  | .block _ body => inScope env body
  | .expr _ e => do
    let _ ← eval env e
    return .next

def ofDeclarators (env : Environment) (kind : DeclKind) :
    List (Pattern × Option Expr) → Code Unit
  | [] => return ()
  | (target, none) :: ds => do
    act (bindPattern env kind target .undefined)
    use (.declare env kind ds)
  | (target, some e) :: ds => do
    let v ← eval env e
    act (bindPattern env kind target v)
    use (.declare env kind ds)

def ofStmts (env : Environment) : List Stmt → Code Flow
  | [] => return .next
  | s :: ss => do
    match ← use (.exec env s) with
    | .next => use (.execList env ss)
    | flow => return flow

def ofBlock (env : Environment) (body : List Stmt) : Code Flow := do
  act (hoist env body)
  use (.execList env body)

def ofScope (env : Environment) (body : List Stmt) : Code Flow := do
  let inner ← act (openScope env)
  use (.block inner body)

def ofLoop (env : Environment) (test : Expr) (body : List Stmt) (turns : Nat) : Code Flow := do
  if (← eval env test).isTruthy then
    let limit := (← act get).config.maxLoopIterations
    if turns + 1 > limit then fail (.loopLimit limit)
    else
      match ← inScope env body with
      | .next => use (.loop env test body (turns + 1))
      | .breakTo none => return .next
      | flow => return flow
  else return .next

def ofCall (callee : Option Expr) (function : Value) (args : List Value) : Code Value := do
  act (permit callee function args)
  match function with
  | .function _ closure => use (.enter function closure args)
  | .native n =>
    match ← act (n.perform args) with
    | .value v => return v
    | .answered registration callback answer => do
      use (.fire registration callback answer)
      return .undefined
  | other => do
    let m ← act get
    fail (.notAFunction (m.store.text other))

/-- Enters a closure, unless too many calls are open.  The call is closed again even if the body
fails. -/
def ofClosure (function : Value) (closure : Closure) (args : List Value) : Code Value := do
  let limit := (← act get).config.maxCallDepth
  if (← openCalls) ≥ limit then fail (.callDepth limit)
  else
    let env ← act (openBody function closure args)
    setOpenCalls ((← openCalls) + 1)
    let result ← attempt (.body env closure.body)
    setOpenCalls ((← openCalls) - 1)
    done (← done result).value

def ofAnswer (registration : Registration) (callback answer : Value) : Code Unit := do
  let firing ← act (adapting (Adapter.enter registration none))
  let result ← attempt (.call none callback [answer])
  let left ← act (observe (adapting (Adapter.leave firing result.toBool)))
  let _ ← done result
  done left

end Code

/-- What the function does that a job calls. -/
def Job.code : (j : Job) → Code j.Result
  | .eval env e => .ofExpr env e
  | .assignTo env value target => .ofTarget env value target
  | .evalList env es => .ofExprs env es
  | .evalEntries env es => .ofEntries env es
  | .exec env s => .ofStmt env s
  | .declare env kind ds => .ofDeclarators env kind ds
  | .execList env ss => .ofStmts env ss
  | .block env ss => .ofBlock env ss
  | .inScope env ss => .ofScope env ss
  | .loop env test ss turns => .ofLoop env test ss turns
  | .call callee function args => .ofCall callee function args
  | .enter function closure args => .ofClosure function closure args
  | .body env ss => .ofBlock env ss
  | .fire registration callback answer => .ofAnswer registration callback answer

/-! ## Runs -/

/-- Where an execution stands: the machine, and how many calls are open. -/
structure Situation where
  machine : Machine
  depth : Nat

/-- Code runs from one situation to another, where at most `nest` bodies of functions are inside
one another and no loop runs its body more than `turns` times. -/
inductive Runs (turns : Nat) : {α : Type} → Nat → Code α → Situation → Except EvalError α →
    Situation → Prop
  | done {α : Type} {nest : Nat} {r : Except EvalError α} {s : Situation} :
    Runs turns nest (.done r) s r s
  | step {α β : Type} {nest depth : Nat} {x : Running β} {next : Except EvalError β → Code α}
    {m m' : Machine} {r : Except EvalError β} {r' : Except EvalError α} {s : Situation}
    (hrun : m.run x = (r, m')) (hnext : Runs turns nest (next r) ⟨m', depth⟩ r' s) :
    Runs turns nest (.step x next) ⟨m, depth⟩ r' s
  | depth {α : Type} {nest : Nat} {next : Nat → Code α} {r : Except EvalError α}
    {s s' : Situation} (hnext : Runs turns nest (next s.depth) s r s') :
    Runs turns nest (.depth next) s r s'
  | setDepth {α : Type} {nest depth : Nat} {next : Code α} {r : Except EvalError α}
    {s s' : Situation} (hnext : Runs turns nest next { s with depth } r s') :
    Runs turns nest (.setDepth depth next) s r s'
  | job {α : Type} {nest inner : Nat} {j : Job} {next : Except EvalError j.Result → Code α}
    {r : Except EvalError j.Result} {r' : Except EvalError α} {s s' s'' : Situation}
    (hnest : inner + j.opens ≤ nest) (hturns : j.turns ≤ turns)
    (hjob : Runs turns inner j.code s r s') (hnext : Runs turns nest (next r) s' r' s'') :
    Runs turns nest (.job j next) s r' s''

namespace Runs

variable {turns nest : Nat} {α β : Type} {s s' s'' : Situation}

/-- Code has one run at most. -/
theorem unique {nest' turns' : Nat} {c : Code α} {r r' : Except EvalError α}
    (h : Runs turns nest c s r s') (h' : Runs turns' nest' c s r' s'') : r = r' ∧ s' = s'' := by
  induction h generalizing nest' s'' with
  | done => cases h'; exact ⟨rfl, rfl⟩
  | step hrun _ ih =>
      cases h' with
      | step hrun' hnext =>
          obtain ⟨rfl, rfl⟩ := Prod.mk.inj (hrun.symm.trans hrun')
          exact ih hnext
  | depth _ ih =>
      cases h' with
      | depth hnext => exact ih hnext
  | setDepth _ ih =>
      cases h' with
      | setDepth hnext => exact ih hnext
  | job _ _ _ _ ihjob ihnext =>
      cases h' with
      | job _ _ hjob hnext =>
          obtain ⟨rfl, rfl⟩ := ihjob hjob
          exact ihnext hnext

theorem bind {c : Code α} {f : α → Code β} {a : α} {r : Except EvalError β}
    (h : Runs turns nest c s (.ok a) s') (hf : Runs turns nest (f a) s' r s'') :
    Runs turns nest (c >>= f) s r s'' := by
  generalize ha : (Except.ok a : Except EvalError α) = ra at h
  induction h with
  | done => subst ha; exact hf
  | step hrun _ ih => exact .step hrun (ih hf ha)
  | depth _ ih => exact .depth (ih hf ha)
  | setDepth _ ih => exact .setDepth (ih hf ha)
  | job hnest hturns hjob _ _ ih => exact .job hnest hturns hjob (ih hf ha)

theorem bind_error {c : Code α} {f : α → Code β} {e : EvalError}
    (h : Runs turns nest c s (.error e) s') : Runs turns nest (c >>= f) s (.error e) s' := by
  generalize he : (Except.error e : Except EvalError α) = re at h
  induction h with
  | done => subst he; exact .done
  | step hrun _ ih => exact .step hrun (ih he)
  | depth _ ih => exact .depth (ih he)
  | setDepth _ ih => exact .setDepth (ih he)
  | job hnest hturns hjob _ _ ih => exact .job hnest hturns hjob (ih he)

end Runs

end TraceLoom
