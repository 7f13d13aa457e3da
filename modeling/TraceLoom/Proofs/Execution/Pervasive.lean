import TraceLoom.Execution.Run
import TraceLoom.Proofs.Execution.Lowered
import TraceLoom.Proofs.Execution.Realms

/-!
Properties of whole programs.  Apart from calls of natives, programs only make, read and write
values.  A property of steps that allows that, goes with sequencing and holds of the calls of those
natives that are within reach thus holds of whatever a program does that is written in the words of
a realm.  Statements that the realm takes as a whole have to be looked at by themselves.
-/

namespace TraceLoom

open Script

/-- What a flow returns is within reach. -/
def Flow.Reaches (R : Realm) : Flow → Prop
  | .returnWith v => v.Reaches R
  | _ => True

namespace Running

/-- Calls a native. -/
def callNative (onAnswer : Registration → Value → Value → Running Unit) (callee : Option Expr)
    (n : Native) (args : List Value) : Running Value := do
  permit callee (.native n) args
  match ← n.perform args with
  | .value v => return v
  | .answered registration callback answer => do
    onAnswer registration callback answer
    return .undefined

/-- Runs a callback in its context when its answer is there. -/
def answering (body : Value → Value → Running Value) :
    Registration → Value → Value → Running Unit :=
  fun registration callback answer => fire registration none (body callback answer)

/-- A property of steps and of what they give that goes with sequencing and with whatever only
concerns values. -/
structure Elementary (R : Realm) (P : {α : Type} → (α → Prop) → Running α → Prop) :
    Prop where
  pure {α : Type} {Q : α → Prop} {a : α} (h : Q a) : P Q (pure a)
  throw {α : Type} {Q : α → Prop} (e : EvalError) : P Q (throw e)
  bind {α β : Type} {Q : α → Prop} {Q' : β → Prop} {x : Running α} {f : α → Running β}
    (hx : P Q x) (hf : ∀ a, Q a → P Q' (f a)) : P Q' (x >>= f)
  look {α : Type} {Q : α → Prop} {f : Config → Store → Running α}
    (h : ∀ c s, s.Reaches R → P Q (f c s)) : P Q (get >>= fun m => f m.config m.store)
  make {α : Type} {Q : α → Prop} {f : Store → α × Store}
    (h : ∀ s : Store, s.Reaches R → Q (f s).1 ∧ (f s).2.Reaches R) : P Q (make f)

/-- It also goes with calls of natives. -/
structure Pervasive (R : Realm) (P : {α : Type} → (α → Prop) → Running α → Prop) : Prop
    extends Elementary R P where
  permit (callee : Option Expr) {function : Value} (args : List Value)
    (h : ∀ n, function ≠ .native n) : P (fun _ => True) (permit callee function args)
  /-- With an answer there is no further callback, so that none can have its answer at once. -/
  native {n : Native} {answer : Value} (hn : R.native n) (hanswer : answer.Reaches R)
    (hinert : answer.isCallable = false) :
    P (Value.Reaches R) (callNative (fun _ _ _ => return ()) none n [answer])
  answering {n : Native} {args : List Value} {body : Value → Value → Running Value}
    {callee : Option Expr} (hcallee : ∀ e ∈ callee, e.Proper R.vocabulary) (hn : R.native n)
    (hargs : ∀ v ∈ args, v.Reaches R)
    (hbody : ∀ callback answer : Value, callback.Reaches R → answer.Reaches R →
      answer.isCallable = false → P (Value.Reaches R) (body callback answer)) :
    P (Value.Reaches R) (callNative (answering body) callee n args)
  inserted {call : Expr → Value → List Value → Running Value} {env : Environment} {s : Stmt}
    (hcall : Applies call) (hs : R.vocabulary.inserted s) :
    P (Flow.Reaches R) (s.exec call env)

/-- A way of calling functions that has a property wherever values are within reach. -/
structure CallsWithin (R : Realm) (P : {α : Type} → (α → Prop) → Running α → Prop)
    (call : Expr → Value → List Value → Running Value) : Prop where
  applies : Applies call
  calls : ∀ {callee function args}, callee.Proper R.vocabulary → function.Reaches R →
    (∀ v ∈ args, v.Reaches R) → P (Value.Reaches R) (call callee function args)

/-! ## Steps that only concern values -/

namespace Elementary

variable {R : Realm} {P : {α : Type} → (α → Prop) → Running α → Prop} {α : Type}
  (hP : Elementary R P)

include hP

theorem ofExcept {Q : α → Prop} {x : Except EvalError α} (h : ∀ a, x = .ok a → Q a) :
    P Q (MonadExcept.ofExcept x) := by
  cases x with
  | ok a => exact hP.pure (h a rfl)
  | error e => exact hP.throw e

theorem read {Q : α → Prop} {f : Store → Except EvalError α}
    (h : ∀ s, s.Reaches R → ∀ a, f s = .ok a → Q a) : P Q (read f) :=
  hP.look (f := fun _ s => MonadExcept.ofExcept (f s)) fun _ s hs => hP.ofExcept (h s hs)

theorem change {f : Store → Store} (h : ∀ s : Store, s.Reaches R → (f s).Reaches R) :
    P (fun _ => True) (change f) :=
  hP.make fun s hs => ⟨trivial, h s hs⟩

theorem arguments (operation : String) (values : List Value) :
    P (fun a => a.values = values ∧ a.store.Reaches R) (Native.arguments operation values) :=
  hP.look (f := fun _ s => Pure.pure (⟨operation, values, s⟩ : Arguments)) fun _ _ hs =>
    hP.pure ⟨rfl, hs⟩

theorem importModule (hnative : ∀ n, R.native n) (name : String) :
    P (Value.Reaches R) (Native.importModule name) := by
  refine hP.look (f := fun c _ =>
    if name = c.instrument.expModule then Running.make Store.newBuilderModule
    else if name = c.instrument.callbacksModule then Running.make Store.newCallbacksModule
    else MonadExcept.throw (.unknownModule name)) fun c _ _ => ?_
  split
  · exact hP.make fun _ hs => hs.newBuilderModule hnative
  · split
    · exact hP.make fun _ hs => hs.newCallbacksModule hnative
    · exact hP.throw _

theorem build (name : String) (values : List Value) :
    P (Value.Reaches R) (Native.build name values) := by
  refine hP.bind (hP.arguments name values) fun a _ => ?_
  split
  · exact hP.bind (hP.ofExcept (Q := fun _ => True) fun _ _ => trivial) fun ts _ =>
      hP.make fun s hs => ⟨trivial, hs.newTraces ts⟩
  · exact hP.bind (hP.ofExcept (Q := fun _ => True) fun _ _ => trivial) fun t _ =>
      hP.make fun s hs => ⟨trivial, hs.newTrace t⟩

end Elementary

namespace Pervasive

variable {R : Realm} {P : {α : Type} → (α → Prop) → Running α → Prop} {α : Type}
  (hP : Pervasive R P)

include hP

theorem openScope (env : Environment) : P (fun _ => True) (openScope env) :=
  hP.make fun _ hs => ⟨trivial, hs.child env⟩

/-- A function is made, and something is known of what makes it. -/
theorem makeFunction {name : Option String} {params : List String} {body : List Stmt}
    {env : Environment} {bindsSelf : Bool}
    (h : Closure.Proper R.vocabulary ⟨name, params, body, env, bindsSelf⟩) :
    P (fun f => (∃ i closure, f = .function i closure) ∧ f.Reaches R)
      (makeFunction name params body env bindsSelf) :=
  hP.make fun _ hs => ⟨⟨⟨_, _, rfl⟩, h⟩, hs.newFunction _⟩

theorem declare (env : Environment) {name : String} {v : Value} (hv : R.Binds name v)
    (constant : Bool) : P (fun _ => True) (Running.change (Store.declare env name v constant)) :=
  hP.change fun _ hs => hs.declare env hv constant

theorem hoist (env : Environment) {body : List Stmt} (hbody : Stmt.ProperList R.vocabulary body) :
    P (fun _ => True) (hoist env body) := by
  induction body with
  | nil => exact hP.pure trivial
  | cons s body ih =>
      obtain ⟨hs, hbody⟩ := hbody
      cases s with
      | function pos name params fbody =>
          obtain ⟨hname, hparams, hfbody⟩ := hs.resolve_left R.vocabulary.not_function
          have hf : Closure.Proper R.vocabulary ⟨some name, params, fbody, env, false⟩ :=
            ⟨fun h => absurd h Bool.false_ne_true, hparams, hfbody⟩
          refine hP.bind (hP.makeFunction hf) fun f ⟨⟨i, closure, hmade⟩, hreaches⟩ => ?_
          subst hmade
          exact hP.bind (hP.declare env (Realm.binds_self hname hreaches) false) fun _ _ => ih hbody
      | _ => exact ih hbody

theorem inScope (env : Environment) {body : List Stmt}
    (hbody : Stmt.ProperList R.vocabulary body) {exec : Environment → Running Flow}
    (h : ∀ inner, P (Flow.Reaches R) (exec inner)) :
    P (Flow.Reaches R) (inScope env body exec) :=
  hP.bind (hP.openScope env) fun inner _ => hP.bind (hP.hoist inner hbody) fun _ _ => h inner

theorem bindPattern (env : Environment) (kind : DeclKind) {target : Pattern}
    (htarget : ∀ n ∈ target.names, R.vocabulary.own n) {v : Value} (hv : v.Reaches R) :
    P (fun _ => True) (bindPattern env kind target v) := by
  cases target with
  | name name =>
      exact hP.declare env (Realm.binds_own (htarget name (List.mem_singleton_self name)) hv) _
  | array names =>
      refine hP.bind (hP.read fun s hs bound hbound => hs.destructure hbound) fun bound hbound =>
        hP.change fun s hs => hs.declareAll env (fun entry hentry => ?_) _
      exact Realm.binds_own (htarget _ (hbound entry hentry).1) (hbound entry hentry).2

theorem readName (env : Environment) {name : String} (hname : R.vocabulary.own name) :
    P (Value.Reaches R) (readName env name) := by
  refine hP.read fun s hs v hv => ?_
  cases hlookup : s.lookup? env name with
  | none =>
      rw [hlookup] at hv
      cases hv
  | some w =>
      rw [hlookup] at hv
      cases hv
      exact hs.lookup? hname hlookup

theorem applyOperator (op : BinaryOp) {v w : Value} (hv : v.Reaches R) (hw : w.Reaches R) :
    P (Value.Reaches R) (applyOperator op v w) :=
  hP.look (f := fun _ s => Pure.pure (s.binary op v w)) fun _ s _ =>
    hP.pure (s.reaches_binary op hv hw)


theorem setName (env : Environment) {name : String} (hname : R.vocabulary.own name) {v : Value}
    (hv : v.Reaches R) : P (fun _ => True) (setName env name v) :=
  hP.bind (hP.read fun _ _ _ => Store.reaches_variableLocation hname) fun _ hlocation =>
    hP.change fun _ hs => hs.put hlocation hv

theorem setPart {v : Value} (hv : v.Reaches R) (key : Value) {w : Value} (hw : w.Reaches R) :
    P (fun _ => True) (setPart v key w) :=
  hP.look (f := fun c _ => do
      let location ← Running.read fun s => s.partLocation c.maxArrayLength v key
      Running.change (Store.put location w)) fun _ _ _ =>
    hP.bind (hP.read fun _ _ _ => Store.reaches_partLocation hv) fun _ hlocation =>
      hP.change fun _ hs => hs.put hlocation hw

theorem loop (limit : Nat) {test : Running Bool} {body : Running Flow}
    (htest : P (fun _ => True) test) (hbody : P (Flow.Reaches R) body) (remaining : Nat) :
    P (Flow.Reaches R) (loop limit test body remaining) := by
  induction remaining with
  | zero =>
      refine hP.bind htest fun holds _ => ?_
      cases holds with
      | true => exact hP.throw _
      | false => exact hP.pure trivial
  | succ remaining ih =>
      refine hP.bind htest fun holds _ => ?_
      cases holds with
      | false => exact hP.pure trivial
      | true =>
          refine hP.bind hbody fun flow hflow => ?_
          match flow with
          | .next => exact ih
          | .breakTo none => exact hP.pure trivial
          | .breakTo (some label) => exact hP.pure trivial
          | .returnWith v => exact hP.pure hflow

/-! ## Expressions -/

section

variable {call : Expr → Value → List Value → Running Value}

theorem callFunction (hcall : CallsWithin R P call) {callee : Expr}
    (hcallee : callee.Proper R.vocabulary) {function : Value} (hfunction : function.Reaches R)
    {args : List Value} (hargs : ∀ v ∈ args, v.Reaches R) :
    P (Value.Reaches R) (callFunction call callee function args) := by
  unfold Running.callFunction
  split
  · exact hcall.calls hcallee hfunction hargs
  · exact hP.throw _

theorem callMethod (hcall : CallsWithin R P call) {callee : Expr}
    (hcallee : callee.Proper R.vocabulary) (receiver : Value) (name : String) {function : Value}
    (hfunction : function.Reaches R) {args : List Value} (hargs : ∀ v ∈ args, v.Reaches R) :
    P (Value.Reaches R) (callMethod call callee receiver name function args) := by
  unfold Running.callMethod
  split
  · exact hcall.calls hcallee hfunction hargs
  · cases Method.find? receiver name with
    | none => exact hP.throw _
    | some method => exact hP.make fun _ hs => hs.invoke method hargs

/-- The object of a member expression, which is evaluated by itself when the member is called. -/
def receiver : Expr → Expr
  | .member _ base _ => base
  | e => e

theorem evalCall (hcall : CallsWithin R P call) (env : Environment) (pos : Position)
    {callee : Expr} (hproper : callee.Proper R.vocabulary) {args : List Expr}
    (hcallee : P (Value.Reaches R) (callee.eval call env))
    (hreceiver : P (Value.Reaches R) ((receiver callee).eval call env))
    (hargs : P (fun vs => ∀ v ∈ vs, v.Reaches R) (Expr.evalList call env args)) :
    P (Value.Reaches R) ((Expr.call pos callee args).eval call env) := by
  cases callee with
  | member mpos base property =>
      exact hP.bind hreceiver fun v hv => hP.bind (hP.read fun _ hs _ hw => hs.property hv hw)
        fun function hfunction => hP.bind hargs fun values hvalues =>
          hP.callMethod hcall hproper v property hfunction hvalues
  | _ =>
      exact hP.bind hcallee fun function hfunction => hP.bind hargs fun values hvalues =>
        hP.callFunction hcall hproper hfunction hvalues

theorem evalBinary (env : Environment) (pos : Position) (op : BinaryOp) {left right : Expr}
    (hleft : P (Value.Reaches R) (left.eval call env))
    (hright : P (Value.Reaches R) (right.eval call env)) :
    P (Value.Reaches R) ((Expr.binary pos op left right).eval call env) := by
  refine hP.bind hleft fun v hv => ?_
  cases op with
  | and =>
      dsimp only
      split
      · exact hright
      · exact hP.pure hv
  | or =>
      dsimp only
      split
      · exact hP.pure hv
      · exact hright
  | _ => exact hP.bind hright fun w hw => hP.applyOperator _ hv hw

theorem evalAssign (env : Environment) (pos : Position) (op : AssignOp) {target value : Expr}
    (hvalue : P (Value.Reaches R) (value.eval call env))
    (htarget : P (Value.Reaches R) (target.eval call env))
    (hassign : ∀ w, w.Reaches R → P (fun _ => True) (target.assignTo call env w)) :
    P (Value.Reaches R) ((Expr.assign pos op target value).eval call env) := by
  have hwrite (w : Value) (hw : w.Reaches R) :
      P (Value.Reaches R) (do target.assignTo call env w; return w) :=
    hP.bind (hassign w hw) fun _ _ => hP.pure hw
  refine hP.bind hvalue fun w hw => ?_
  dsimp only
  cases op.binary with
  | none => exact hP.bind (hP.pure hw) hwrite
  | some op => exact hP.bind htarget fun _ hv => hP.bind (hP.applyOperator op hv hw) hwrite

theorem evalUpdate (env : Environment) (pos : Position) (op : UpdateOp) (isPrefix : Bool)
    {target : Expr} (htarget : P (Value.Reaches R) (target.eval call env))
    (hassign : ∀ w, w.Reaches R → P (fun _ => True) (target.assignTo call env w)) :
    P (Value.Reaches R) ((Expr.update pos op isPrefix target).eval call env) := by
  refine hP.bind htarget fun v hv => hP.bind (hP.applyOperator op.binary trivial trivial)
    fun u hu => hP.bind (hassign u hu) fun _ _ => ?_
  cases isPrefix with
  | true => exact hP.pure hu
  | false => exact hP.pure trivial

mutual

theorem eval_and_receiver (hcall : CallsWithin R P call) (env : Environment) : ∀ e : Expr,
    e.Proper R.vocabulary →
    P (Value.Reaches R) (e.eval call env) ∧ P (Value.Reaches R) ((receiver e).eval call env)
  | .number .., _ | .string .., _ | .boolean .., _ | .null .., _ =>
      ⟨hP.pure trivial, hP.pure trivial⟩
  | .name .., hn => ⟨hP.readName env hn, hP.readName env hn⟩
  | .array _ items, hitems =>
      have h := hP.bind (evalList hcall env items hitems) fun values hvalues =>
        hP.make (f := Store.newArray values.toArray) fun _ hs =>
          ⟨trivial, hs.newArray fun v hv => hvalues v (List.mem_toArray.mp hv)⟩
      ⟨h, h⟩
  | .object _ entries, hentries =>
      have h := hP.bind (evalEntries hcall env entries hentries) fun fields hfields =>
        hP.make (f := Store.newObject (Fields.ofPairs fields)) fun _ hs =>
          hs.newObject (Fields.forall_ofPairs hfields)
      ⟨h, h⟩
  | .function _ n params body, ⟨hn, hparams, hbody⟩ =>
      have hf : Closure.Proper R.vocabulary ⟨n, params, body, env, n.isSome⟩ :=
        ⟨fun _ => hn, hparams, hbody⟩
      have h := hP.make (f := Store.newFunction ⟨n, params, body, env, n.isSome⟩) fun _ hs =>
        ⟨(hf : Value.Reaches R (.function _ _)), hs.newFunction _⟩
      ⟨h, h⟩
  | .member _ base _, ⟨hproper, _⟩ =>
      have hbase := (eval_and_receiver hcall env base hproper).1
      ⟨hP.bind hbase fun _ hv => hP.read fun _ hs _ hw => hs.property hv hw, hbase⟩
  | .index _ base key, ⟨hbase, hkey⟩ =>
      have h := hP.bind (eval_and_receiver hcall env base hbase).1 fun v hv =>
        hP.bind (eval_and_receiver hcall env key hkey).1 fun k _ =>
          hP.read (f := fun s => s.element v k) fun _ hs _ hw => hs.element hv hw
      ⟨h, h⟩
  | .call pos callee args, ⟨hproper, hargs⟩ =>
      have hcallee := eval_and_receiver hcall env callee hproper
      have h := hP.evalCall hcall env pos hproper hcallee.1 hcallee.2 (evalList hcall env args hargs)
      ⟨h, h⟩
  | .unary _ op operand, hoperand =>
      have h := hP.bind (eval_and_receiver hcall env operand hoperand).1 fun v _ =>
        hP.pure (Value.reaches_unary op v)
      ⟨h, h⟩
  | .binary pos op left right, ⟨hleft, hright⟩ =>
      have h := hP.evalBinary env pos op (eval_and_receiver hcall env left hleft).1
        (eval_and_receiver hcall env right hright).1
      ⟨h, h⟩
  | .assign pos op target value, ⟨htarget, hvalue⟩ =>
      have h := hP.evalAssign env pos op (eval_and_receiver hcall env value hvalue).1
        (eval_and_receiver hcall env target htarget).1 fun _ hw => assignTo hcall env hw target htarget
      ⟨h, h⟩
  | .update pos op isPrefix target, htarget =>
      have h := hP.evalUpdate env pos op isPrefix (eval_and_receiver hcall env target htarget).1
        fun _ hw => assignTo hcall env hw target htarget
      ⟨h, h⟩
termination_by structural e => e

theorem assignTo (hcall : CallsWithin R P call) (env : Environment) {w : Value} (hw : w.Reaches R) :
    ∀ target : Expr, target.Proper R.vocabulary →
      P (fun _ => True) (target.assignTo call env w)
  | .name .., hn => hP.setName env hn hw
  | .member _ base property, ⟨hbase, _⟩ =>
      hP.bind (eval_and_receiver hcall env base hbase).1 fun _ hv =>
        hP.setPart hv (.string property) hw
  | .index _ base key, ⟨hbase, hkey⟩ =>
      hP.bind (eval_and_receiver hcall env base hbase).1 fun _ hv =>
        hP.bind (eval_and_receiver hcall env key hkey).1 fun k _ => hP.setPart hv k hw
  | .number .., _ | .string .., _ | .boolean .., _ | .null .., _ | .array .., _ | .object .., _
  | .function .., _ | .call .., _ | .unary .., _ | .binary .., _ | .assign .., _ | .update .., _ =>
      hP.throw _
termination_by structural target => target

theorem evalList (hcall : CallsWithin R P call) (env : Environment) :
    ∀ es : List Expr, Expr.ProperList R.vocabulary es →
      P (fun vs => ∀ v ∈ vs, v.Reaches R) (Expr.evalList call env es)
  | [], _ => hP.pure (List.forall_mem_nil _)
  | e :: es, ⟨he, hes⟩ =>
      hP.bind (eval_and_receiver hcall env e he).1 fun _ hv =>
        hP.bind (evalList hcall env es hes) fun _ hvs =>
          hP.pure (List.forall_mem_cons.mpr ⟨hv, hvs⟩)
termination_by structural es => es

theorem evalEntries (hcall : CallsWithin R P call) (env : Environment) :
    ∀ es : List (String × Expr), Expr.ProperEntries R.vocabulary es →
    P (fun fields => ∀ field ∈ fields, field.2.Reaches R) (Expr.evalEntries call env es)
  | [], _ => hP.pure (List.forall_mem_nil _)
  | (_, e) :: es, ⟨he, hes⟩ =>
      hP.bind (eval_and_receiver hcall env e he).1 fun _ hv =>
        hP.bind (evalEntries hcall env es hes) fun _ hvs =>
          hP.pure (List.forall_mem_cons.mpr ⟨hv, hvs⟩)
termination_by structural es => es

end

theorem eval (hcall : CallsWithin R P call) (env : Environment) {e : Expr}
    (he : e.Proper R.vocabulary) : P (Value.Reaches R) (e.eval call env) :=
  (hP.eval_and_receiver hcall env e he).1

/-! ## Statements -/

theorem ifElse (hcall : CallsWithin R P call) (env : Environment) {test : Expr}
    (htest : test.Proper R.vocabulary) {yes no : Running Flow}
    (hyes : P (Flow.Reaches R) yes) (hno : P (Flow.Reaches R) no) :
    P (Flow.Reaches R) (do if (← Expr.eval call env test).isTruthy then yes else no) := by
  refine hP.bind (hP.eval hcall env htest) fun v _ => ?_
  split
  · exact hyes
  · exact hno

theorem labeled (label : String) {body : Running Flow} (hbody : P (Flow.Reaches R) body) :
    P (Flow.Reaches R) (do
      match ← body with
      | .breakTo (some target) =>
        return if target = label then .next else .breakTo (some target)
      | flow => return flow) := by
  refine hP.bind hbody fun flow hflow => ?_
  match flow with
  | .next => exact hP.pure trivial
  | .breakTo none => exact hP.pure trivial
  | .breakTo (some target) =>
      refine hP.pure ?_
      split <;> trivial
  | .returnWith v => exact hP.pure hflow

theorem whileDo (hcall : CallsWithin R P call) (env : Environment) {test : Expr}
    (htest : test.Proper R.vocabulary) {body : Running Flow}
    (hbody : P (Flow.Reaches R) body) :
    P (Flow.Reaches R) (do
      let limit := (← get).config.maxLoopIterations
      Running.loop limit (return (← Expr.eval call env test).isTruthy) body limit) :=
  hP.look (f := fun c _ => Running.loop c.maxLoopIterations
      (return (← Expr.eval call env test).isTruthy) body c.maxLoopIterations) fun c _ _ =>
    hP.loop c.maxLoopIterations
      (hP.bind (hP.eval hcall env htest) fun _ _ => hP.pure trivial) hbody c.maxLoopIterations

mutual

/-- A statement that is looked into. -/
theorem exec (hcall : CallsWithin R P call) :
    ∀ (env : Environment) (s : Stmt), s.Ordinary R.vocabulary → P (Flow.Reaches R) (s.exec call env)
  | env, .declare _ kind declarators, hproper =>
      hP.bind (execDeclarators hcall env kind declarators hproper) fun _ _ => hP.pure trivial
  | _, .function .., _ => hP.pure trivial
  | env, .ifElse _ _ consequent none, ⟨htest, hyes⟩ =>
      hP.ifElse hcall env htest
        (hP.inScope env hyes fun inner => execList hcall inner consequent hyes) (hP.pure trivial)
  | env, .ifElse _ _ consequent (some alternate), ⟨htest, hyes, hno⟩ =>
      hP.ifElse hcall env htest
        (hP.inScope env hyes fun inner => execList hcall inner consequent hyes)
        (hP.inScope env hno fun inner => execList hcall inner alternate hno)
  | env, .whileDo _ _ body, ⟨htest, hbody⟩ =>
      hP.whileDo hcall env htest
        (hP.inScope env hbody fun inner => execList hcall inner body hbody)
  | env, .labeled _ label body, ⟨_, hbody⟩ =>
      hP.labeled label (hP.inScope env hbody fun inner => execList hcall inner body hbody)
  | _, .breakTo .., _ => hP.pure trivial
  | _, .returnWith _ none, _ => hP.pure trivial
  | env, .returnWith _ (some _), he => hP.bind (hP.eval hcall env he) fun _ hv => hP.pure hv
  | env, .block _ body, hbody =>
      hP.inScope env hbody fun inner => execList hcall inner body hbody
  | env, .expr _ _, he => hP.bind (hP.eval hcall env he) fun _ _ => hP.pure trivial
termination_by structural _ s => s

theorem execDeclarators (hcall : CallsWithin R P call) : ∀ (env : Environment) (kind : DeclKind)
    (ds : List (Pattern × Option Expr)), Stmt.ProperDeclarators R.vocabulary ds →
    P (fun _ => True) (Stmt.execDeclarators call env kind ds)
  | _, _, [], _ => hP.pure trivial
  | env, kind, (_, none) :: ds, ⟨htarget, hds⟩ =>
      hP.bind (hP.bindPattern env kind htarget trivial) fun _ _ =>
        execDeclarators hcall env kind ds hds
  | env, kind, (_, some _) :: ds, ⟨htarget, he, hds⟩ =>
      hP.bind (hP.eval hcall env he) fun _ hv =>
        hP.bind (hP.bindPattern env kind htarget hv) fun _ _ =>
          execDeclarators hcall env kind ds hds
termination_by structural _ _ ds => ds

theorem execList (hcall : CallsWithin R P call) : ∀ (env : Environment) (ss : List Stmt),
    Stmt.ProperList R.vocabulary ss → P (Flow.Reaches R) (Stmt.execList call env ss)
  | _, [], _ => hP.pure trivial
  | env, s :: ss, ⟨hs, hss⟩ =>
      hP.bind (hs.elim (hP.inserted hcall.applies) (exec hcall env s)) fun flow hflow =>
        match flow with
        | .next => execList hcall env ss hss
        | .breakTo _ => hP.pure trivial
        | .returnWith _ => hP.pure hflow
termination_by structural _ ss => ss

end

theorem execBlock (hcall : CallsWithin R P call) (env : Environment) {body : List Stmt}
    (hbody : Stmt.ProperList R.vocabulary body) :
    P (Flow.Reaches R) (Stmt.execBlock call env body) :=
  hP.bind (hP.hoist env hbody) fun _ _ => hP.execList hcall env body hbody

end

/-! ## Calls -/

theorem openBody {i : Nat} {closure : Closure} {args : List Value}
    (hfunction : (Value.function i closure).Reaches R) (hargs : ∀ v ∈ args, v.Reaches R) :
    P (fun _ => True) (openBody (.function i closure) closure args) := by
  refine hP.bind (hP.openScope closure.env) fun env _ => ?_
  have hparams : P (fun _ => True) (do
      Running.change fun s => closure.params.zipIdx.foldl (fun s entry =>
        s.declare env entry.1 (args[entry.2]?.getD .undefined) false) s
      return env) := by
    refine hP.bind (hP.change fun s hs => ?_) fun _ _ => hP.pure trivial
    have harg (i : Nat) : (args[i]?.getD Value.undefined).Reaches R :=
      Value.reaches_getD fun v hv => hargs v (List.mem_of_getElem? hv)
    have hnames : ∀ param ∈ closure.params.zipIdx, R.vocabulary.own param.1 := fun param hparam =>
      hfunction.params _ (List.fst_mem_of_mem_zipIdx hparam)
    generalize closure.params.zipIdx = params at hnames
    induction params generalizing s with
    | nil => exact hs
    | cons param params ih =>
        obtain ⟨hparam, hparams⟩ := List.forall_mem_cons.mp hnames
        exact ih _ (hs.declare env (Realm.binds_own hparam (harg param.2)) false) hparams
  dsimp only
  split
  · rename_i name hself hname
    exact hP.bind (hP.declare env (Realm.binds_self (hfunction.self hself name hname) hfunction) false)
      fun _ _ => hparams
  · exact hparams

section

variable {enter : Value → Closure → List Value → Running Value}
  (henter : ∀ {i closure args}, (Value.function i closure).Reaches R → (∀ v ∈ args, v.Reaches R) →
    P (Value.Reaches R) (enter (.function i closure) closure args))

include henter

theorem applyWith {onAnswer : Registration → Value → Value → Running Unit} {callee : Option Expr}
    {args : List Value}
    (hnative : ∀ {n}, R.native n → P (Value.Reaches R) (callNative onAnswer callee n args))
    {function : Value} (hfunction : function.Reaches R) (hargs : ∀ v ∈ args, v.Reaches R) :
    P (Value.Reaches R) (applyWith enter onAnswer callee function args) := by
  have hrefused (v : Value) : P (Value.Reaches R) (do
      MonadExcept.throw (EvalError.notAFunction ((← get).store.text v))) :=
    hP.look (f := fun _ s => MonadExcept.throw (EvalError.notAFunction (s.text v)))
      fun _ _ _ => hP.throw _
  cases function with
  | native n => exact hnative hfunction
  | function i closure =>
      exact hP.bind (hP.permit callee args nofun) fun _ _ => henter hfunction hargs
  | _ => exact hP.bind (hP.permit callee args nofun) fun _ _ => hrefused _

theorem apply {callee : Option Expr} (hcallee : ∀ e ∈ callee, e.Proper R.vocabulary)
    {function : Value} (hfunction : function.Reaches R) {args : List Value}
    (hargs : ∀ v ∈ args, v.Reaches R) :
    P (Value.Reaches R) (apply enter callee function args) := by
  refine hP.applyWith henter (fun hn => ?_) hfunction hargs
  refine hP.answering hcallee hn hargs fun callback answer hcallback hanswer hinert => ?_
  exact hP.applyWith henter (fun hn => hP.native hn hanswer hinert) hcallback
    (List.forall_mem_singleton.mpr hanswer)

end

/-- A function body, however deep calls nest. -/
theorem enterClosure (limit depth : Nat) {i : Nat} {closure : Closure} {args : List Value}
    (hfunction : (Value.function i closure).Reaches R) (hargs : ∀ v ∈ args, v.Reaches R) :
    P (Value.Reaches R) (enterClosure limit depth (.function i closure) closure args) := by
  induction depth generalizing i closure args with
  | zero => exact hP.throw _
  | succ depth ih =>
      refine hP.bind (hP.openBody hfunction hargs) fun env _ => ?_
      have hcalls : CallsWithin R P fun callee =>
          Running.apply (Running.enterClosure limit depth) (some callee) :=
        ⟨applies_apply _, fun hcallee hfunction hargs =>
          hP.apply ih (fun _ he => Option.some.inj he ▸ hcallee) hfunction hargs⟩
      refine hP.bind (hP.execBlock hcalls env hfunction.body) fun flow hflow => ?_
      match flow with
      | .next => exact hP.pure trivial
      | .returnWith v => exact hP.pure hflow
      | .breakTo _ => exact hP.throw _

theorem callFrom {callee : Option Expr} (hcallee : ∀ e ∈ callee, e.Proper R.vocabulary)
    {function : Value} (hfunction : function.Reaches R) {args : List Value}
    (hargs : ∀ v ∈ args, v.Reaches R) :
    P (Value.Reaches R) (callFrom callee function args) :=
  hP.look (f := fun c _ => Running.apply (Running.enterClosure c.maxCallDepth c.maxCallDepth) callee
      function args) fun c _ _ =>
    hP.apply (hP.enterClosure c.maxCallDepth c.maxCallDepth) hcallee hfunction hargs

theorem callsWithin_callFrom :
    CallsWithin R P fun callee => Running.callFrom (some callee) where
  applies := applies_callFrom
  calls hcallee hfunction hargs :=
    hP.callFrom (fun _ he => Option.some.inj he ▸ hcallee) hfunction hargs

/-- The statements of a program. -/
theorem program (env : Environment) {p : Program} (hp : Stmt.ProperList R.vocabulary p) :
    P (Flow.Reaches R) (Stmt.execBlock (fun callee => Running.callFrom callee) env p) :=
  hP.execBlock hP.callsWithin_callFrom env hp

end Pervasive

end Running

end TraceLoom
