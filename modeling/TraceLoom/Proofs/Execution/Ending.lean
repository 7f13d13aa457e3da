import TraceLoom.Proofs.Execution.Jobs
import TraceLoom.Proofs.Execution.Laws
import TraceLoom.Proofs.Execution.Pervasive

/-!
The synchronous part of an execution ends.  Whatever the interpreter does is a run of its code: a
finite derivation, in which calls nest and loops turn no more often than the configuration allows.
The induction is on how many calls may still nest, then on the program text, then on how often a
loop may still run its body.
-/

namespace TraceLoom

open Script Running
open Running.Pervasive (receiver)

/-- The law that only fixes the configuration. -/
def Law.free (config : Config) : Law :=
  ⟨config, fun _ => True, True⟩

theorem Value.obeys_free (C : Config) (v : Value) : v.Obeys (.free C) := by
  cases v <;> trivial

theorem Machine.obeys_free {C : Config} {m : Machine} (h : m.config = C) : m.Obeys (.free C) where
  config := h
  gate := fun _ _ _ _ e _ => by cases e <;> trivial
  store := ⟨fun _ _ v _ => v.obeys_free C, fun _ _ field _ => field.2.obeys_free C,
    fun _ _ field _ => field.2.value.obeys_free C⟩
  tasks := fun task _ => ⟨task.callback.obeys_free C, task.arg.obeys_free C⟩
  listener := fun l _ => l.callback.obeys_free C

namespace Code

variable {C : Config} {left : Nat} {α β : Type}

/-- From every machine of a configuration, code runs to the end to which a step comes, where `left`
more calls may nest. -/
def EndsAs (C : Config) (left : Nat) (c : Code α) (x : Running α) : Prop :=
  ∀ (m : Machine) (depth : Nat), m.config = C → C.maxCallDepth - depth = left →
    Runs C.maxLoopIterations left c ⟨m, depth⟩ (m.run x).1 ⟨(m.run x).2, depth⟩ ∧
      (m.run x).2.config = C

namespace EndsAs

theorem done (r : Except EvalError α) : EndsAs C left (.done r) (MonadExcept.ofExcept r) := by
  intro m depth hm _
  rw [m.run_ofExcept]
  exact ⟨.done, hm⟩

theorem pure (a : α) : EndsAs C left (Pure.pure a) (Pure.pure a) :=
  done (.ok a)

theorem fail (e : EvalError) : EndsAs C left (Code.fail e : Code α) (throw e) :=
  done (.error e)

theorem bind {c : Code α} {x : Running α} {f : α → Code β} {g : α → Running β}
    (hx : EndsAs C left c x) (hf : ∀ a, EndsAs C left (f a) (g a)) :
    EndsAs C left (c >>= f) (x >>= g) := by
  intro m depth hm hleft
  obtain ⟨hruns, hn⟩ := hx m depth hm hleft
  rw [m.run_bind]
  generalize m.run x = run at hruns hn
  obtain ⟨r, n⟩ := run
  cases r with
  | error e => exact ⟨hruns.bind_error, hn⟩
  | ok a =>
      obtain ⟨hrest, hend⟩ := hf a n depth hn hleft
      exact ⟨hruns.bind hrest, hend⟩

/-- What a step gives may be used for what follows. -/
theorem act_bind {Q : α → Prop} {x : Running α} {f : α → Code β} {g : α → Running β}
    (hx : (Law.free C).Preserves Q x) (hf : ∀ a, Q a → EndsAs C left (f a) (g a)) :
    EndsAs C left (act x >>= f) (x >>= g) := by
  intro m depth hm hleft
  have hx := hx m (m.obeys_free hm)
  rw [m.run_bind]
  generalize hrun : m.run x = run at hx
  obtain ⟨r, n⟩ := run
  obtain ⟨hn, hr⟩ := hx
  cases r with
  | error e => exact ⟨.step hrun .done, hn.config⟩
  | ok a =>
      obtain ⟨hrest, hend⟩ := hf a hr n depth hn.config hleft
      exact ⟨.step hrun hrest, hend⟩

theorem act {Q : α → Prop} {x : Running α} (hx : (Law.free C).Preserves Q x) :
    EndsAs C left (Code.act x) x :=
  fun m _ hm _ => ⟨.step rfl .done, (hx m (m.obeys_free hm)).1.config⟩

/-- Code may look at the configuration, which stays the same. -/
theorem get_bind {f : Machine → Code α} {x : Running α}
    (hf : ∀ m : Machine, m.config = C → EndsAs C left (f m) x) :
    EndsAs C left (Code.act get >>= f) x :=
  fun m depth hm hleft => ⟨.step rfl (hf m hm m depth hm hleft).1, (hf m hm m depth hm hleft).2⟩

theorem use {j : Job} {x : Running j.Result} (h : EndsAs C left j.code x) (hopens : j.opens = 0)
    (hturns : j.turns ≤ C.maxLoopIterations) : EndsAs C left (Code.use j) x :=
  fun m depth hm hleft =>
    ⟨.job (by omega) hturns (h m depth hm hleft).1 .done, (h m depth hm hleft).2⟩

theorem attempt {j : Job} {x : Running j.Result} (h : EndsAs C left j.code x) (hopens : j.opens = 0)
    (hturns : j.turns ≤ C.maxLoopIterations) : EndsAs C left (Code.attempt j) (observe x) :=
  fun m depth hm hleft =>
    ⟨.job (by omega) hturns (h m depth hm hleft).1 .done, (h m depth hm hleft).2⟩

/-! ## Expressions -/

section

variable {env : Environment}

theorem eval {e : Expr} {x : Running Value} (h : EndsAs C left (ofExpr env e) x) :
    EndsAs C left (Code.eval env e) x :=
  use (j := .eval env e) h rfl (Nat.zero_le _)

theorem assignTo {v : Value} {target : Expr} {x : Running Unit}
    (h : EndsAs C left (ofTarget env v target) x) : EndsAs C left (Code.assignTo env v target) x :=
  use (j := .assignTo env v target) h rfl (Nat.zero_le _)

theorem evalList {es : List Expr} {x : Running (List Value)}
    (h : EndsAs C left (Code.ofExprs env es) x) : EndsAs C left (Code.evalList env es) x :=
  use (j := .evalList env es) h rfl (Nat.zero_le _)

theorem evalEntries {es : List (String × Expr)} {x : Running (List (String × Value))}
    (h : EndsAs C left (Code.ofEntries env es) x) : EndsAs C left (Code.evalEntries env es) x :=
  use (j := .evalEntries env es) h rfl (Nat.zero_le _)

end

theorem property (v : Value) (name : String) :
    EndsAs C left (Code.act (read fun s => s.property v name)) (read fun s => s.property v name) :=
  act (.property v name)

theorem applyOperator (op : BinaryOp) (v w : Value) :
    EndsAs C left (Code.act (Running.applyOperator op v w)) (Running.applyOperator op v w) :=
  act (.applyOperator op (v.obeys_free C) (w.obeys_free C))

/-- Calls end from inside of function bodies that leave `left` more calls to nest. -/
def CallsEnd (C : Config) (left : Nat) (call : Expr → Value → List Value → Running Value) : Prop :=
  ∀ callee function args,
    EndsAs C left (ofCall (some callee) function args) (call callee function args)

section

variable {call : Expr → Value → List Value → Running Value} (env : Environment)

section

variable (hcall : CallsEnd C left call)

include hcall

theorem callValue (callee : Expr) (function : Value) (args : List Value) :
    EndsAs C left (Code.call (some callee) function args) (call callee function args) :=
  use (j := .call (some callee) function args) (hcall callee function args) rfl (Nat.zero_le _)

theorem callFunction (callee : Expr) (function : Value) (args : List Value) :
    EndsAs C left
      (if function.isCallable then Code.call (some callee) function args
        else Code.fail (.notAFunction callee.toSource))
      (Running.callFunction call callee function args) := by
  unfold Running.callFunction
  split
  · exact callValue hcall callee function args
  · exact fail _

theorem callMethod (callee : Expr) (receiver : Value) (name : String) (function : Value)
    (args : List Value) :
    EndsAs C left
      (if function.isCallable then Code.call (some callee) function args
        else
          match Method.find? receiver name with
          | some method => Code.act (make (Store.invoke method args))
          | none => Code.fail (.notAFunction callee.toSource))
      (Running.callMethod call callee receiver name function args) := by
  unfold Running.callMethod
  split
  · exact callValue hcall callee function args
  · cases Method.find? receiver name with
    | none => exact fail _
    | some method => exact act (.invoke method fun v _ => v.obeys_free C)

theorem ofCall {pos : Position} {callee : Expr} {es : List Expr}
    (hcallee : EndsAs C left (ofExpr env callee) (callee.eval call env))
    (hreceiver : EndsAs C left (ofExpr env (receiver callee)) ((receiver callee).eval call env))
    (hargs : EndsAs C left (Code.evalList env es) (Expr.evalList call env es)) :
    EndsAs C left (ofExpr env (.call pos callee es)) ((Expr.call pos callee es).eval call env) := by
  cases callee with
  | member mpos base name =>
      exact hreceiver.eval.bind fun v => (property v name).bind fun function =>
        hargs.bind fun values => callMethod hcall (.member mpos base name) v name function values
  | _ =>
      exact hcallee.eval.bind fun function => hargs.bind fun values =>
        callFunction hcall _ function values

end

theorem ofBinary {pos : Position} {op : BinaryOp} {l r : Expr}
    (hl : EndsAs C left (ofExpr env l) (l.eval call env))
    (hr : EndsAs C left (ofExpr env r) (r.eval call env)) :
    EndsAs C left (ofExpr env (.binary pos op l r)) ((Expr.binary pos op l r).eval call env) := by
  refine hl.eval.bind fun v => ?_
  cases op with
  | and =>
      dsimp only
      split
      · exact hr.eval
      · exact pure v
  | or =>
      dsimp only
      split
      · exact pure v
      · exact hr.eval
  | _ => exact hr.eval.bind fun w => applyOperator _ v w

theorem ofAssign {pos : Position} {op : AssignOp} {target e : Expr}
    (he : EndsAs C left (ofExpr env e) (e.eval call env))
    (htarget : EndsAs C left (ofExpr env target) (target.eval call env))
    (hassign : ∀ w, EndsAs C left (ofTarget env w target) (target.assignTo call env w)) :
    EndsAs C left (ofExpr env (.assign pos op target e))
      ((Expr.assign pos op target e).eval call env) := by
  refine he.eval.bind fun w => ?_
  have hwrite (w : Value) : EndsAs C left
      (do Code.assignTo env w target; return w) (do target.assignTo call env w; return w) :=
    (hassign w).assignTo.bind fun _ => pure w
  dsimp only
  cases op.binary with
  | none => exact (pure w).bind hwrite
  | some op => exact htarget.eval.bind fun v => (applyOperator op v w).bind hwrite

theorem ofUpdate {pos : Position} {op : UpdateOp} {isPrefix : Bool} {target : Expr}
    (htarget : EndsAs C left (ofExpr env target) (target.eval call env))
    (hassign : ∀ w, EndsAs C left (ofTarget env w target) (target.assignTo call env w)) :
    EndsAs C left (ofExpr env (.update pos op isPrefix target))
      ((Expr.update pos op isPrefix target).eval call env) :=
  htarget.eval.bind fun _ => (applyOperator op.binary _ _).bind fun new =>
    (hassign new).assignTo.bind fun _ => pure _

mutual

/-- The meaning of an expression, and that of the object of a member, which is evaluated by itself
when the member is called. -/
theorem ofExpr_and_receiver (hcall : CallsEnd C left call) (env : Environment) : ∀ e : Expr,
    EndsAs C left (ofExpr env e) (e.eval call env) ∧
      EndsAs C left (ofExpr env (receiver e)) ((receiver e).eval call env)
  | .number .. | .string .. | .boolean .. | .null .. => ⟨pure _, pure _⟩
  | .name _ n => ⟨act (.readName env n), act (.readName env n)⟩
  | .array _ items =>
      have h := (ofExprs hcall env items).evalList.bind fun values =>
        act (.newArray fun v (_ : v ∈ values) => v.obeys_free C)
      ⟨h, h⟩
  | .object _ entries =>
      have h := (ofEntries hcall env entries).evalEntries.bind fun fields =>
        act (.newObject fun field (_ : field ∈ fields) => field.2.obeys_free C)
      ⟨h, h⟩
  | .function _ n params body =>
      have h := act (x := makeFunction n params body env n.isSome) (.makeFunction trivial)
      ⟨h, h⟩
  | .member _ base name =>
      have hbase := (ofExpr_and_receiver hcall env base).1
      ⟨hbase.eval.bind fun v => property v name, hbase⟩
  | .index _ base key =>
      have h := (ofExpr_and_receiver hcall env base).1.eval.bind fun v =>
        (ofExpr_and_receiver hcall env key).1.eval.bind fun k => act (.element v k)
      ⟨h, h⟩
  | .call _ callee es =>
      have hcallee := ofExpr_and_receiver hcall env callee
      have h := ofCall env hcall hcallee.1 hcallee.2 (ofExprs hcall env es).evalList
      ⟨h, h⟩
  | .unary _ op operand =>
      have h := (ofExpr_and_receiver hcall env operand).1.eval.bind fun v => pure (v.unary op)
      ⟨h, h⟩
  | .binary _ _ l r =>
      have h := ofBinary env (ofExpr_and_receiver hcall env l).1
        (ofExpr_and_receiver hcall env r).1
      ⟨h, h⟩
  | .assign _ _ target e =>
      have h := ofAssign env (ofExpr_and_receiver hcall env e).1
        (ofExpr_and_receiver hcall env target).1 fun w => ofTarget hcall env w target
      ⟨h, h⟩
  | .update _ _ _ target =>
      have h := ofUpdate env (ofExpr_and_receiver hcall env target).1 fun w =>
        ofTarget hcall env w target
      ⟨h, h⟩
termination_by structural e => e

theorem ofTarget (hcall : CallsEnd C left call) (env : Environment) (w : Value) :
    ∀ target : Expr, EndsAs C left (Code.ofTarget env w target) (target.assignTo call env w)
  | .name _ n => act (.setName env n (w.obeys_free C))
  | .member _ base name =>
      (ofExpr_and_receiver hcall env base).1.eval.bind fun v =>
        act (.setPart v (.string name) (w.obeys_free C))
  | .index _ base key =>
      (ofExpr_and_receiver hcall env base).1.eval.bind fun v =>
        (ofExpr_and_receiver hcall env key).1.eval.bind fun k =>
          act (.setPart v k (w.obeys_free C))
  | .number .. | .string .. | .boolean .. | .null .. | .array .. | .object .. | .function ..
  | .call .. | .unary .. | .binary .. | .assign .. | .update .. => fail _
termination_by structural target => target

theorem ofExprs (hcall : CallsEnd C left call) (env : Environment) :
    ∀ es : List Expr, EndsAs C left (Code.ofExprs env es) (Expr.evalList call env es)
  | [] => pure _
  | e :: es =>
      (ofExpr_and_receiver hcall env e).1.eval.bind fun _ =>
        (ofExprs hcall env es).evalList.bind fun _ => pure _
termination_by structural es => es

theorem ofEntries (hcall : CallsEnd C left call) (env : Environment) :
    ∀ es : List (String × Expr),
      EndsAs C left (Code.ofEntries env es) (Expr.evalEntries call env es)
  | [] => pure _
  | (_, e) :: es =>
      (ofExpr_and_receiver hcall env e).1.eval.bind fun _ =>
        (ofEntries hcall env es).evalEntries.bind fun _ => pure _
termination_by structural es => es

end

theorem eval_of (hcall : CallsEnd C left call) (e : Expr) :
    EndsAs C left (Code.eval env e) (e.eval call env) :=
  (ofExpr_and_receiver hcall env e).1.eval

/-! ## Statements -/

theorem execList {ss : List Stmt} {x : Running Flow} (h : EndsAs C left (Code.ofStmts env ss) x) :
    EndsAs C left (Code.use (.execList env ss)) x :=
  use h rfl (Nat.zero_le _)

theorem declare {kind : DeclKind} {ds : List (Pattern × Option Expr)} {x : Running Unit}
    (h : EndsAs C left (Code.ofDeclarators env kind ds) x) :
    EndsAs C left (Code.use (.declare env kind ds)) x :=
  use h rfl (Nat.zero_le _)

theorem ofBlock {env : Environment} {body : List Stmt} {x : Running Flow}
    (h : EndsAs C left (Code.ofStmts env body) x) :
    EndsAs C left (Code.ofBlock env body) (do hoist env body; x) :=
  (act (.hoist fun _ _ _ _ _ => trivial)).bind fun _ => execList env h

theorem inScope {body : List Stmt} {exec : Environment → Running Flow}
    (h : ∀ inner, EndsAs C left (Code.ofStmts inner body) (exec inner)) :
    EndsAs C left (Code.inScope env body) (Running.inScope env body exec) :=
  use (j := .inScope env body)
    ((act (.openScope env)).bind fun inner => use (j := .block inner body) (h inner).ofBlock rfl
      (Nat.zero_le _))
    rfl (Nat.zero_le _)

/-- A loop ends whose body has run `turns` times and may run `remaining` times more. -/
theorem ofLoop {test : Expr} {x : Running Value} {body : List Stmt} {y : Running Flow}
    (htest : EndsAs C left (Code.eval env test) x)
    (hbody : EndsAs C left (Code.inScope env body) y) {turns remaining : Nat}
    (hturns : turns + remaining = C.maxLoopIterations) :
    EndsAs C left (Code.ofLoop env test body turns)
      (Running.loop C.maxLoopIterations (return (← x).isTruthy) y remaining) := by
  induction remaining generalizing turns with
  | zero =>
      unfold Running.loop
      rw [bind_assoc]
      refine htest.bind fun v => ?_
      rw [pure_bind]
      cases v.isTruthy with
      | false => exact pure _
      | true =>
          refine get_bind fun m hm => ?_
          rw [hm]
          simp only [if_pos (show turns + 1 > C.maxLoopIterations by omega)]
          exact fail _
  | succ remaining ih =>
      unfold Running.loop
      rw [bind_assoc]
      refine htest.bind fun v => ?_
      rw [pure_bind]
      cases v.isTruthy with
      | false => exact pure _
      | true =>
          refine get_bind fun m hm => ?_
          rw [hm]
          simp only [if_neg (show ¬ turns + 1 > C.maxLoopIterations by omega)]
          refine hbody.bind fun flow => ?_
          cases flow with
          | next =>
              exact use (j := .loop env test body (turns + 1)) (ih (by omega)) rfl
                (show turns + 1 ≤ C.maxLoopIterations by omega)
          | breakTo label => cases label <;> exact pure _
          | returnWith v => exact pure _

theorem whileDo {test : Expr} {x : Running Value} {body : List Stmt} {y : Running Flow}
    (htest : EndsAs C left (Code.eval env test) x)
    (hbody : EndsAs C left (Code.inScope env body) y) :
    EndsAs C left (Code.use (.loop env test body 0)) (do
      let limit := (← get).config.maxLoopIterations
      Running.loop limit (return (← x).isTruthy) y limit) := by
  intro m depth hm hleft
  have hloop : EndsAs C left (Code.use (.loop env test body 0)) _ :=
    use (j := .loop env test body 0) (ofLoop env htest hbody (Nat.zero_add _)) rfl (Nat.zero_le _)
  rw [m.run_bind, Machine.run_get]
  dsimp only
  rw [hm]
  exact hloop m depth hm hleft

theorem labeled (label : String) {c : Code Flow} {x : Running Flow} (h : EndsAs C left c x) :
    EndsAs C left
      (do
        match ← c with
        | .breakTo (some target) =>
          return if target = label then .next else .breakTo (some target)
        | flow => return flow)
      (do
        match ← x with
        | .breakTo (some target) =>
          return if target = label then .next else .breakTo (some target)
        | flow => return flow) :=
  h.bind fun flow => match flow with
    | .next | .breakTo none | .breakTo (some _) | .returnWith _ => pure _

theorem ifElse {c c' : Code Flow} {x y : Running Flow} {e : Expr} {z : Running Value}
    (htest : EndsAs C left (Code.eval env e) z) (hx : EndsAs C left c x)
    (hy : EndsAs C left c' y) :
    EndsAs C left (do if (← Code.eval env e).isTruthy then c else c')
      (do if (← z).isTruthy then x else y) := by
  refine htest.bind fun v => ?_
  split
  · exact hx
  · exact hy

mutual

theorem ofStmt (hcall : CallsEnd C left call) : ∀ (env : Environment) (s : Stmt),
    EndsAs C left (Code.ofStmt env s) (s.exec call env)
  | env, .declare _ kind ds => (declare env (ofDeclarators hcall env kind ds)).bind fun _ => pure _
  | _, .function .. => pure _
  | env, .ifElse _ test consequent none =>
      ifElse env (eval_of env hcall test)
        (inScope env fun inner => ofStmts hcall inner consequent) (pure _)
  | env, .ifElse _ test consequent (some alternate) =>
      ifElse env (eval_of env hcall test)
        (inScope env fun inner => ofStmts hcall inner consequent)
        (inScope env fun inner => ofStmts hcall inner alternate)
  | env, .whileDo _ test body =>
      whileDo env (eval_of env hcall test) (inScope env fun inner => ofStmts hcall inner body)
  | env, .labeled _ label body =>
      labeled label (inScope env fun inner => ofStmts hcall inner body)
  | _, .breakTo .. => pure _
  | _, .returnWith _ none => pure _
  | env, .returnWith _ (some e) => (eval_of env hcall e).bind fun _ => pure _
  | env, .block _ body => inScope env fun inner => ofStmts hcall inner body
  | env, .expr _ e => (eval_of env hcall e).bind fun _ => pure _
termination_by structural _ s => s

theorem ofDeclarators (hcall : CallsEnd C left call) : ∀ (env : Environment) (kind : DeclKind)
    (ds : List (Pattern × Option Expr)),
    EndsAs C left (Code.ofDeclarators env kind ds) (Stmt.execDeclarators call env kind ds)
  | _, _, [] => pure _
  | env, kind, (target, none) :: ds =>
      (act (.bindPattern env kind target (Value.undefined.obeys_free C))).bind fun _ =>
        declare env (ofDeclarators hcall env kind ds)
  | env, kind, (target, some e) :: ds =>
      (eval_of env hcall e).bind fun v =>
        (act (.bindPattern env kind target (v.obeys_free C))).bind fun _ =>
          declare env (ofDeclarators hcall env kind ds)
termination_by structural _ _ ds => ds

theorem ofStmts (hcall : CallsEnd C left call) : ∀ (env : Environment) (ss : List Stmt),
    EndsAs C left (Code.ofStmts env ss) (Stmt.execList call env ss)
  | _, [] => pure _
  | env, s :: ss =>
      (use (j := .exec env s) (ofStmt hcall env s) rfl (Nat.zero_le _)).bind fun flow =>
        match flow with
        | .next => execList env (ofStmts hcall env ss)
        | .breakTo _ | .returnWith _ => pure _
termination_by structural _ ss => ss

end

theorem execBlock (hcall : CallsEnd C left call) (body : List Stmt) :
    EndsAs C left (Code.ofBlock env body) (Stmt.execBlock call env body) :=
  ofBlock (ofStmts hcall env body)

end

/-! ## Calls -/

theorem fire {registration : Registration} {callback answer : Value} {x : Running Value}
    (h : EndsAs C left (Code.ofCall none callback [answer]) x) :
    EndsAs C left (ofAnswer registration callback answer) (Running.fire registration none x) :=
  (act (.adapting _)).bind fun _ =>
    (attempt (j := .call none callback [answer]) h rfl (Nat.zero_le _)).bind fun r =>
      (act (.observe (.adapting _))).bind fun left => (done r).bind fun _ => done left

section

variable {enter : Value → Closure → List Value → Running Value}
  (henter : ∀ function closure args,
    EndsAs C left (ofClosure function closure args) (enter function closure args))

include henter

theorem applyWith {onAnswer : Registration → Value → Value → Running Unit} (callee : Option Expr)
    (function : Value) (args : List Value)
    (hanswer : ∀ registration callback answer, args.getLast? = some callback →
      callback.isCallable = true → answer.isCallable = false →
      EndsAs C left (ofAnswer registration callback answer)
        (onAnswer registration callback answer)) :
    EndsAs C left (Code.ofCall callee function args)
      (Running.applyWith enter onAnswer callee function args) := by
  refine act_bind (.permit callee function args) fun _ _ => ?_
  cases function with
  | function i closure =>
      exact use (j := .enter (.function i closure) closure args) (henter _ closure args) rfl
        (Nat.zero_le _)
  | native n =>
      refine act_bind (.perform n fun v _ => v.obeys_free C) fun r hr => ?_
      cases r with
      | value v => exact pure v
      | answered registration callback answer =>
          exact (use (j := .fire registration callback answer)
            (hanswer registration callback answer hr.1 hr.2.1 hr.2.2) rfl (Nat.zero_le _)).bind
            fun _ => pure _
  | _ => exact (act .get).bind fun m => fail _

/-- A host operation that is called with its own answer finds no callback. -/
theorem apply (callee : Option Expr) (function : Value) (args : List Value) :
    EndsAs C left (Code.ofCall callee function args)
      (Running.apply enter callee function args) := by
  refine applyWith henter callee function args fun registration callback answer _ _ hdata => ?_
  refine fire (applyWith henter none callback [answer] fun _ again _ hagain hcallable _ => ?_)
  obtain rfl : answer = again := by simpa using hagain
  rw [hdata] at hcallable
  cases hcallable

end

/-- The counter of open calls is back where it was when a body is left, however that ends. -/
theorem opened {left : Nat} {env : Environment} {body : List Stmt} {x : Running Flow}
    {f : Flow → Code α} {g : Flow → Running α} (h : EndsAs C left (Code.ofBlock env body) x)
    (hf : ∀ flow, EndsAs C (left + 1) (f flow) (g flow)) :
    EndsAs C (left + 1)
      (do
        setOpenCalls ((← openCalls) + 1)
        let result ← Code.attempt (.body env body)
        setOpenCalls ((← openCalls) - 1)
        f (← Code.done result))
      (x >>= g) := by
  intro m depth hm hleft
  obtain ⟨hruns, hn⟩ := h m (depth + 1) hm (by omega)
  rw [m.run_bind]
  generalize m.run x = run at hruns hn
  obtain ⟨r, n⟩ := run
  have hnest : left + (Job.body env body).opens ≤ left + 1 := Nat.le_refl _
  cases r with
  | error e =>
      exact ⟨.depth (.setDepth (.job hnest (Nat.zero_le _) hruns (.depth (.setDepth .done)))), hn⟩
  | ok flow =>
      obtain ⟨hrest, hend⟩ := hf flow n depth hn hleft
      exact ⟨.depth (.setDepth (.job hnest (Nat.zero_le _) hruns (.depth (.setDepth hrest)))), hend⟩

theorem ofClosure {left : Nat} {function : Value} {closure : Closure} {args : List Value}
    {x : Environment → Running Flow}
    (h : ∀ env, EndsAs C left (Code.ofBlock env closure.body) (x env)) :
    EndsAs C (left + 1) (Code.ofClosure function closure args) (do
      let env ← openBody function closure args
      match ← x env with
      | .next => return .undefined
      | .returnWith v => return v
      | .breakTo label => throw (.labelNotOpen (labelText label))) := by
  intro m depth hm hleft
  have hcount : ¬ depth ≥ m.config.maxCallDepth := by rw [hm]; omega
  have hbody : EndsAs C (left + 1) _ _ := act_bind (x := openBody function closure args)
    (.openBody (function.obeys_free C) fun v _ => v.obeys_free C)
    fun env _ => opened (f := fun flow => Code.done flow.value) (h env) fun flow => show
      EndsAs C (left + 1) _ (match flow with
        | .next => return .undefined
        | .returnWith v => return v
        | .breakTo label => throw (.labelNotOpen (labelText label))) by
      cases flow <;> exact done _
  obtain ⟨hruns, hn⟩ := hbody m depth hm hleft
  refine ⟨.step rfl (.depth ?_), hn⟩
  change Runs _ _ (if depth ≥ m.config.maxCallDepth then _ else _) _ _ _
  rw [if_neg hcount]
  exact hruns

theorem enterClosure (left : Nat) (function : Value) (closure : Closure) (args : List Value) :
    EndsAs C left (Code.ofClosure function closure args)
      (Running.enterClosure C.maxCallDepth left function closure args) := by
  induction left generalizing function closure args with
  | zero =>
      intro m depth hm hleft
      have hcount : depth ≥ m.config.maxCallDepth := by rw [hm]; omega
      refine ⟨.step rfl (.depth ?_), hm⟩
      change Runs _ _ (if depth ≥ m.config.maxCallDepth then _ else _) _ _ _
      rw [if_pos hcount, hm]
      exact .done
  | succ left ih =>
      exact ofClosure fun env => execBlock env (fun callee function args =>
        apply ih (some callee) function args) closure.body

theorem callFrom (callee : Option Expr) (function : Value) (args : List Value) :
    EndsAs C C.maxCallDepth (Code.ofCall callee function args)
      (Running.callFrom callee function args) := by
  intro m depth hm hleft
  rw [Running.callFrom, m.run_bind, Machine.run_get]
  dsimp only
  rw [hm]
  exact apply (enterClosure C.maxCallDepth) callee function args m depth hm hleft

end EndsAs

end Code

/-- A job ends as a step does where `depth` calls are open, and in no other way: no more calls nest
than the configuration allows, no loop turns more often, and afterwards as many calls are open as
before. -/
structure Job.EndsAs (j : Job) (x : Running j.Result) (m : Machine) (depth : Nat) : Prop where
  runs : Runs m.config.maxLoopIterations (m.config.maxCallDepth - depth) j.code ⟨m, depth⟩
    (m.run x).1 ⟨(m.run x).2, depth⟩
  only : ∀ {turns nest : Nat} {r : Except EvalError j.Result} {s : Situation},
    Runs turns nest j.code ⟨m, depth⟩ r s → r = (m.run x).1 ∧ s = ⟨(m.run x).2, depth⟩

theorem Job.EndsAs.of_code {j : Job} {x : Running j.Result} {m : Machine} {depth : Nat}
    (h : j.code.EndsAs m.config (m.config.maxCallDepth - depth) x) : j.EndsAs x m depth where
  runs := (h m depth rfl rfl).1
  only hruns := hruns.unique (h m depth rfl rfl).1

/-- Whatever the program, the values and the machine: executing statements ends, and so does every
call, from outside of functions and from inside of any number of them. -/
theorem synchronous_part_ends (m : Machine) (env : Environment) (p : Program)
    (callee : Option Expr) (function : Value) (args : List Value) :
    (Job.block env p).EndsAs (Stmt.execBlock (fun callee => callFrom callee) env p) m 0 ∧
    (Job.call callee function args).EndsAs (callFrom callee function args) m 0 ∧
    ∀ depth,
      (Job.block env p).EndsAs (Stmt.execBlock (fun callee => apply (enterClosure
        m.config.maxCallDepth (m.config.maxCallDepth - depth)) callee) env p) m depth ∧
      (Job.call callee function args).EndsAs (apply (enterClosure
        m.config.maxCallDepth (m.config.maxCallDepth - depth)) callee function args) m depth := by
  refine ⟨.of_code (.execBlock env (fun callee => .callFrom (some callee)) p),
    .of_code (.callFrom callee function args), fun depth => ⟨?_, ?_⟩⟩
  · exact .of_code (.execBlock env (fun callee function args =>
      .apply (.enterClosure _) (some callee) function args) p)
  · exact .of_code (.apply (.enterClosure _) callee function args)

end TraceLoom
