import TraceLoom.Proofs.Execution.Delivery
import TraceLoom.Proofs.Execution.Ending
import TraceLoom.Proofs.Instrument.Settled

/-!
Breaks and returns at run time.  Each job of the interpreter is checked by itself: if its code is
settled where it stands, the breaks and returns with which it ends lead to labels and functions
around that place.  Whatever a whole run does follows by induction on the run.
-/

namespace TraceLoom

open Script Instrument Running

/-- The law of settled programs: their functions are settled, and no break misses its label. -/
def Law.settled (config : Config) : Law :=
  ⟨config, fun closure => Stmt.SettledList .functionBody closure.body, False⟩

section

variable (L : Law) (place : Place)

/-- What follows leads to somewhere around a place. -/
def Flow.Within : Flow → Prop
  | next => True
  | breakTo none => False
  | breakTo (some label) => label ∈ place.labels
  | returnWith v => place.inFunction = true ∧ v.Obeys L

def Job.Settled : Job → Prop
  | eval _ e => e.Settled
  | assignTo _ v target => v.Obeys L ∧ target.Settled
  | evalList _ es => Expr.SettledList es
  | evalEntries _ es => Expr.SettledEntries es
  | exec _ s => s.Settled place
  | declare _ _ ds => Stmt.SettledDeclarators ds
  | execList _ ss | block _ ss | inScope _ ss => Stmt.SettledList place ss
  | loop _ test ss _ => test.Settled ∧ Stmt.SettledList place ss
  | call _ function args => function.Obeys L ∧ ∀ v ∈ args, v.Obeys L
  | enter function closure args =>
    L.Lawful closure ∧ function.Obeys L ∧ ∀ v ∈ args, v.Obeys L
  | body _ ss => place = .functionBody ∧ Stmt.SettledList .functionBody ss
  | fire _ callback answer => callback.Obeys L ∧ answer.Obeys L

/-- What a job gives that is settled at a place. -/
def Job.Gives : (j : Job) → j.Result → Prop
  | eval .., v | call .., v | enter .., v => v.Obeys L
  | assignTo .., _ | declare .., _ | fire .., _ => True
  | evalList .., vs => ∀ v ∈ vs, v.Obeys L
  | evalEntries .., fields => ∀ field ∈ fields, field.2.Obeys L
  | exec .., flow | execList .., flow | block .., flow | inScope .., flow | loop .., flow
  | body .., flow => flow.Within L place

end

/-- Code keeps a law, given that the jobs in it do, which are settled where they stand. -/
def Code.Keeps (L : Law) {α : Type} (Q : α → Prop) : Code α → Prop
  | .done r => L.Allows Q r
  | .step x next => ∃ R, L.Preserves R x ∧ ∀ r, L.Allows R r → (next r).Keeps L Q
  | .depth next => ∀ n, (next n).Keeps L Q
  | .setDepth _ next => next.Keeps L Q
  | .job j next => ∃ place, j.Settled L place ∧
      ∀ r, L.Allows (j.Gives L place) r → (next r).Keeps L Q

/-- A run of jobs that keep a law keeps it. -/
theorem Runs.keeps {L : Law}
    (hjobs : ∀ place (j : Job), j.Settled L place → j.code.Keeps L (j.Gives L place))
    {turns nest : Nat} {α : Type} {c : Code α} {s s' : Situation} {r : Except EvalError α}
    (h : Runs turns nest c s r s') {Q : α → Prop} (hs : s.machine.Obeys L) (hc : c.Keeps L Q) :
    s'.machine.Obeys L ∧ L.Allows Q r := by
  induction h with
  | done => exact ⟨hs, hc⟩
  | step hrun _ ih =>
      obtain ⟨R, hx, hnext⟩ := hc
      obtain ⟨hm, hr⟩ := hx _ hs
      rw [hrun] at hm hr
      exact ih hm (hnext _ hr)
  | depth _ ih => exact ih hs (hc _)
  | setDepth _ ih => exact ih hs hc
  | job _ _ _ _ ihjob ihnext =>
      obtain ⟨place, hj, hnext⟩ := hc
      obtain ⟨hm, hr⟩ := ihjob hs (hjobs place _ hj)
      exact ihnext hm (hnext _ hr)

namespace Code.Keeps

variable {C : Config} {α β : Type} {L : Law} {Q R : α → Prop} {place : Place}

theorem pure {a : α} (h : Q a) : (Pure.pure a : Code α).Keeps L Q :=
  h

theorem fail {e : EvalError} (h : e.Obeys L) : (Code.fail e : Code α).Keeps L Q :=
  h

theorem done {r : Except EvalError α} (h : L.Allows Q r) : (Code.done r).Keeps L Q :=
  h

theorem act {x : Running α} (h : L.Preserves Q x) : (Code.act x).Keeps L Q :=
  ⟨Q, h, fun _ hr => hr⟩

theorem use {j : Job} (place : Place) (h : j.Settled L place) :
    (Code.use j).Keeps L (j.Gives L place) :=
  ⟨place, h, fun _ hr => hr⟩

theorem attempt {j : Job} (place : Place) (h : j.Settled L place) :
    (Code.attempt j).Keeps L (L.Allows (j.Gives L place)) :=
  ⟨place, h, fun _ hr => hr⟩

theorem bind {R : β → Prop} {c : Code α} {f : α → Code β} (hc : c.Keeps L Q)
    (hf : ∀ a, Q a → (f a).Keeps L R) : (c >>= f).Keeps L R := by
  induction c with
  | done r =>
      cases r with
      | ok a => exact hf a hc
      | error e => exact hc
  | step x next ih =>
      obtain ⟨R, hx, hnext⟩ := hc
      exact ⟨R, hx, fun r hr => ih r (hnext r hr)⟩
  | depth next ih => exact fun n => ih n (hc n)
  | setDepth n next ih => exact ih hc
  | job j next ih =>
      obtain ⟨place, hj, hnext⟩ := hc
      exact ⟨place, hj, fun r hr => ih r (hnext r hr)⟩

/-! ## Expressions -/

variable {env : Environment}

theorem eval {e : Expr} (h : e.Settled) : (Code.eval env e).Keeps L (Value.Obeys L) :=
  use (j := .eval env e) .top h

theorem assignTo {v : Value} {target : Expr} (hv : v.Obeys L) (h : target.Settled) :
    (Code.assignTo env v target).Keeps L fun _ => True :=
  use (j := .assignTo env v target) .top ⟨hv, h⟩

theorem evalList {es : List Expr} (h : Expr.SettledList es) :
    (Code.evalList env es).Keeps L fun vs => ∀ v ∈ vs, v.Obeys L :=
  use (j := .evalList env es) .top h

theorem evalEntries {es : List (String × Expr)} (h : Expr.SettledEntries es) :
    (Code.evalEntries env es).Keeps L fun fields => ∀ field ∈ fields, field.2.Obeys L :=
  use (j := .evalEntries env es) .top h

theorem call (callee : Option Expr) {function : Value} {args : List Value}
    (hfunction : function.Obeys L) (hargs : ∀ v ∈ args, v.Obeys L) :
    (Code.call callee function args).Keeps L (Value.Obeys L) :=
  use (j := .call callee function args) .top ⟨hfunction, hargs⟩

theorem ofBinary {pos : Position} (op : BinaryOp) {left right : Expr} (hleft : left.Settled)
    (hright : right.Settled) :
    (Code.ofExpr env (.binary pos op left right)).Keeps L (Value.Obeys L) := by
  refine (eval hleft).bind fun v hv => ?_
  cases op with
  | and =>
      dsimp only
      split
      · exact eval hright
      · exact pure hv
  | or =>
      dsimp only
      split
      · exact pure hv
      · exact eval hright
  | _ => exact (eval hright).bind fun w hw => act (.applyOperator _ hv hw)

theorem ofAssign {pos : Position} (op : AssignOp) {target value : Expr} (htarget : target.Settled)
    (hvalue : value.Settled) :
    (Code.ofExpr env (.assign pos op target value)).Keeps L (Value.Obeys L) := by
  refine (eval hvalue).bind fun w hw => ?_
  have hwrite (w : Value) (hw : w.Obeys L) :
      (do Code.assignTo env w target; return w : Code Value).Keeps L (Value.Obeys L) :=
    (assignTo hw htarget).bind fun _ _ => pure hw
  dsimp only
  cases op.binary with
  | none => exact hwrite w hw
  | some op =>
      exact (eval htarget).bind fun v hv => (act (.applyOperator op hv hw)).bind hwrite

theorem ofUpdate {pos : Position} (op : UpdateOp) (isPrefix : Bool) {target : Expr}
    (htarget : target.Settled) :
    (Code.ofExpr env (.update pos op isPrefix target)).Keeps L (Value.Obeys L) := by
  refine (eval htarget).bind fun v _ => (act (.applyOperator op.binary
    (v := .number v.toNumber) (w := .number 1.0) trivial trivial)).bind fun w hw =>
      (assignTo hw htarget).bind fun _ _ => ?_
  cases isPrefix with
  | true => exact pure hw
  | false => exact pure trivial

theorem ofCall {pos : Position} {callee : Expr} {es : List Expr} (hcallee : callee.Settled)
    (hargs : Expr.SettledList es) :
    (Code.ofExpr env (.call pos callee es)).Keeps L (Value.Obeys L) := by
  have hcalls {callee : Expr} {function : Value} {values : List Value} {c : Code Value}
      (hfunction : function.Obeys L) (hvalues : ∀ v ∈ values, v.Obeys L)
      (hc : c.Keeps L (Value.Obeys L)) :
      (if function.isCallable then Code.call (some callee) function values else c).Keeps L
        (Value.Obeys L) := by
    split
    · exact call _ hfunction hvalues
    · exact hc
  cases callee with
  | member mpos base name =>
      refine (eval (e := base) hcallee).bind fun v _ => (act (.property v name)).bind fun f hf =>
        (evalList hargs).bind fun vs hvs => hcalls hf hvs ?_
      split
      · exact act (.invoke _ hvs)
      · exact fail trivial
  | _ =>
      exact (eval hcallee).bind fun f hf => (evalList hargs).bind fun vs hvs =>
        hcalls hf hvs (fail trivial)

theorem ofExpr {e : Expr} (h : e.Settled) :
    (Code.ofExpr env e).Keeps (.settled C) (Value.Obeys (.settled C)) := by
  cases e with
  | number | string | boolean | null => exact pure trivial
  | name pos n => exact act (.readName env n)
  | array pos items => exact (evalList h).bind fun vs hvs => act (.newArray hvs)
  | object pos entries => exact (evalEntries h).bind fun fields hfields => act (.newObject hfields)
  | function pos n params body => exact act (.makeFunction h)
  | member pos base name =>
      exact (eval (e := base) h).bind fun v _ => act (.property v name)
  | index pos base key =>
      exact (eval h.1).bind fun v _ => (eval h.2).bind fun k _ => act (.element v k)
  | call pos callee es => exact ofCall h.1 h.2
  | unary pos op operand =>
      exact (eval (e := operand) h).bind fun v _ =>
        pure (Value.sparesData_obeys _ (Value.isCallable_unary op v))
  | binary pos op left right => exact ofBinary op h.1 h.2
  | assign pos op target value => exact ofAssign op h.1 h.2
  | update pos op isPrefix target => exact ofUpdate op isPrefix h

theorem ofTarget {v : Value} {target : Expr} (hv : v.Obeys L) (h : target.Settled) :
    (Code.ofTarget env v target).Keeps L fun _ => True := by
  cases target with
  | name pos n => exact act (.setName env n hv)
  | member pos base name =>
      exact (eval (e := base) h).bind fun w _ => act (.setPart w (.string name) hv)
  | index pos base key =>
      exact (eval h.1).bind fun w _ => (eval h.2).bind fun k _ => act (.setPart w k hv)
  | _ => exact fail trivial

theorem ofExprs {es : List Expr} (h : Expr.SettledList es) :
    (Code.ofExprs env es).Keeps L fun vs => ∀ v ∈ vs, v.Obeys L := by
  cases es with
  | nil => exact pure (List.forall_mem_nil _)
  | cons e es =>
      exact (eval h.1).bind fun v hv => (evalList h.2).bind fun vs hvs =>
        pure (List.forall_mem_cons.mpr ⟨hv, hvs⟩)

theorem ofEntries {es : List (String × Expr)} (h : Expr.SettledEntries es) :
    (Code.ofEntries env es).Keeps L fun fields => ∀ field ∈ fields, field.2.Obeys L := by
  cases es with
  | nil => exact pure (List.forall_mem_nil _)
  | cons entry es =>
      exact (eval h.1).bind fun v hv => (evalEntries h.2).bind fun fields hfields =>
        pure (List.forall_mem_cons.mpr ⟨hv, hfields⟩)

/-! ## Statements -/

theorem inScope {body : List Stmt} (h : Stmt.SettledList place body) :
    (Code.inScope env body).Keeps L (Flow.Within L place) :=
  use (j := .inScope env body) place h

/-- A label is open for the breaks in its statement and closed behind it. -/
theorem labeled {pos : Position} {label : String} {body : List Stmt}
    (h : Stmt.SettledList (place.withLabel label) body) :
    (Code.ofStmt env (.labeled pos label body)).Keeps L (Flow.Within L place) := by
  refine (inScope h).bind fun flow hflow => ?_
  match flow with
  | .next => exact pure trivial
  | .breakTo none => exact hflow.elim
  | .breakTo (some target) =>
      refine pure ?_
      split
      · trivial
      · rename_i hne
        exact (List.mem_append.mp hflow).resolve_right fun hlast =>
          hne (List.mem_singleton.mp hlast)
  | .returnWith v => exact pure hflow

theorem ofStmt {s : Stmt} (h : s.Settled place) :
    (Code.ofStmt env s).Keeps L (Flow.Within L place) := by
  have hbranch {c c' : Code Flow} (b : Bool) (hc : c.Keeps L (Flow.Within L place))
      (hc' : c'.Keeps L (Flow.Within L place)) :
      (if b then c else c').Keeps L (Flow.Within L place) := by
    split
    · exact hc
    · exact hc'
  cases s with
  | declare pos kind ds =>
      exact (use (j := .declare env kind ds) place h).bind fun _ _ => pure trivial
  | function => exact pure trivial
  | ifElse pos test consequent alternate =>
      cases alternate with
      | none =>
          exact (eval h.1).bind fun v _ => hbranch _ (inScope h.2) (pure trivial)
      | some alternate =>
          exact (eval h.1).bind fun v _ => hbranch _ (inScope h.2.1) (inScope h.2.2)
  | whileDo pos test body => exact use (j := .loop env test body 0) place h
  | labeled pos label body => exact labeled h
  | breakTo pos label =>
      cases label with
      | none => exact h.elim
      | some label => exact pure h
  | returnWith pos e =>
      cases e with
      | none => exact pure ⟨h, trivial⟩
      | some e => exact (eval h.2).bind fun v hv => pure ⟨h.1, hv⟩
  | block pos body => exact inScope h
  | expr pos e => exact (eval h).bind fun _ _ => pure trivial

theorem ofDeclarators {kind : DeclKind} {ds : List (Pattern × Option Expr)}
    (h : Stmt.SettledDeclarators ds) : (Code.ofDeclarators env kind ds).Keeps L fun _ => True := by
  have hrest {ds : List (Pattern × Option Expr)} (h : Stmt.SettledDeclarators ds) :
      (Code.use (.declare env kind ds)).Keeps L fun _ => True :=
    use (j := .declare env kind ds) .top h
  match ds with
  | [] => exact pure trivial
  | (target, none) :: ds =>
      exact (act (.bindPattern env kind target (v := .undefined) trivial)).bind fun _ _ => hrest h
  | (target, some e) :: ds =>
      exact (eval h.1).bind fun v hv =>
        (act (.bindPattern env kind target hv)).bind fun _ _ => hrest h.2

theorem ofStmts {ss : List Stmt} (h : Stmt.SettledList place ss) :
    (Code.ofStmts env ss).Keeps L (Flow.Within L place) := by
  cases ss with
  | nil => exact pure trivial
  | cons s ss =>
      refine (use (j := .exec env s) place h.1).bind fun flow hflow => ?_
      match flow with
      | .next => exact use (j := .execList env ss) place h.2
      | .breakTo label => exact pure hflow
      | .returnWith v => exact pure hflow

theorem ofBlock {body : List Stmt} (h : Stmt.SettledList place body) :
    (Code.ofBlock env body).Keeps (.settled C) (Flow.Within (.settled C) place) :=
  (act (.hoist fun _ _ _ _ hmem => h.mem hmem)).bind fun _ _ =>
    use (j := .execList env body) place h

theorem ofScope {body : List Stmt} (h : Stmt.SettledList place body) :
    (Code.ofScope env body).Keeps L (Flow.Within L place) :=
  (act (.openScope env)).bind fun inner _ => use (j := .block inner body) place h

theorem ofLoop {test : Expr} {body : List Stmt} (turns : Nat) (htest : test.Settled)
    (hbody : Stmt.SettledList place body) :
    (Code.ofLoop env test body turns).Keeps L (Flow.Within L place) := by
  refine (eval htest).bind fun v _ => ?_
  split
  · refine (act .get).bind fun m _ => ?_
    dsimp only
    split
    · exact fail trivial
    · refine (inScope hbody).bind fun flow hflow => ?_
      match flow with
      | .next => exact use (j := .loop env test body (turns + 1)) place ⟨htest, hbody⟩
      | .breakTo none => exact hflow.elim
      | .breakTo (some label) => exact pure hflow
      | .returnWith v => exact pure hflow
  · exact pure trivial

/-! ## Calls -/

section

variable {function : Value} {args : List Value} (hfunction : function.Obeys L)
  (hargs : ∀ v ∈ args, v.Obeys L)

include hfunction hargs

theorem ofValue (callee : Option Expr) :
    (Code.ofCall callee function args).Keeps L (Value.Obeys L) := by
  refine (act (.permit callee function args)).bind fun _ _ => ?_
  cases function with
  | function i closure =>
      exact use (j := .enter (.function i closure) closure args) .top
        ⟨hfunction, hfunction, hargs⟩
  | native n =>
      refine (act (.perform n hargs)).bind fun r hr => ?_
      cases r with
      | value v => exact pure hr
      | answered registration callback answer =>
          exact (use (j := .fire registration callback answer) .top
            ⟨hargs _ (List.mem_of_getLast? hr.1), Value.sparesData_obeys _ hr.2.2⟩).bind
            fun _ _ => pure trivial
  | _ => exact (act .get).bind fun m _ => fail trivial

/-- A function ends with a return or behind its last statement. -/
theorem ofClosure {closure : Closure}
    (hbody : Stmt.SettledList .functionBody closure.body) :
    (Code.ofClosure function closure args).Keeps L (Value.Obeys L) := by
  refine (act .get).bind fun m _ => fun depth => ?_
  change Code.Keeps L _ (if depth ≥ m.config.maxCallDepth then _ else _)
  split
  · exact fail trivial
  · refine (act (.openBody hfunction hargs)).bind fun env _ => fun depth =>
      ⟨.functionBody, ⟨rfl, hbody⟩, fun r hr depth => ?_⟩
    cases r with
    | error e => exact hr
    | ok flow =>
        match flow with
        | .next => exact trivial
        | .breakTo none => exact hr.elim
        | .breakTo (some label) => exact absurd hr List.not_mem_nil
        | .returnWith v => exact hr.2

end

theorem ofAnswer (registration : Registration) {callback answer : Value}
    (hcallback : callback.Obeys L) (hanswer : answer.Obeys L) :
    (Code.ofAnswer registration callback answer).Keeps L fun _ => True :=
  (act (.adapting _)).bind fun _ _ =>
    (attempt (j := .call none callback [answer]) .top
      ⟨hcallback, List.forall_mem_singleton.mpr hanswer⟩).bind fun _ hr =>
        (act (Law.Preserves.adapting _).observe).bind fun _ hleft =>
          (done hr).bind fun _ _ => done hleft

end Code.Keeps

theorem Job.keeps {C : Config} (place : Place) (j : Job) (h : j.Settled (.settled C) place) :
    j.code.Keeps (.settled C) (j.Gives (.settled C) place) := by
  cases j with
  | eval => exact Code.Keeps.ofExpr h
  | assignTo => exact Code.Keeps.ofTarget h.1 h.2
  | evalList => exact Code.Keeps.ofExprs h
  | evalEntries => exact Code.Keeps.ofEntries h
  | exec => exact Code.Keeps.ofStmt h
  | declare => exact Code.Keeps.ofDeclarators h
  | execList => exact Code.Keeps.ofStmts h
  | block => exact Code.Keeps.ofBlock h
  | inScope => exact Code.Keeps.ofScope h
  | loop env test body turns => exact Code.Keeps.ofLoop turns h.1 h.2
  | call callee => exact Code.Keeps.ofValue h.1 h.2 callee
  | enter => exact Code.Keeps.ofClosure h.2.1 h.2.2 h.1
  | body =>
      obtain ⟨rfl, hbody⟩ := h
      exact Code.Keeps.ofBlock hbody
  | fire registration => exact Code.Keeps.ofAnswer registration h.1 h.2

/-! ## Programs -/

section

variable {C : Config} {p : Program}

/-- A run from outside of any function keeps the law of settled programs. -/
theorem preserves_of_endsAs {j : Job} {x : Running j.Result} (place : Place)
    (hends : j.code.EndsAs C C.maxCallDepth x) (hj : j.Settled (.settled C) place) :
    (Law.settled C).Preserves (j.Gives (.settled C) place) x :=
  fun m hm => Runs.keeps Job.keeps (hends m 0 hm.config rfl).1 hm (Job.keeps place j hj)

theorem preserves_program (h : Stmt.SettledList .top p) (env : Environment) :
    (Law.settled C).Preserves (Flow.Within (.settled C) .top)
      (Stmt.execBlock (fun callee => callFrom callee) env p) :=
  preserves_of_endsAs (j := .block env p) .top
    (.execBlock env (fun callee => .callFrom (some callee)) p) h

theorem preserves_call {function : Value} {args : List Value}
    (hfunction : function.Obeys (.settled C)) (hargs : ∀ v ∈ args, v.Obeys (.settled C)) :
    (Law.settled C).Preserves (Value.Obeys (.settled C)) (Running.call function args) :=
  preserves_of_endsAs (j := .call none function args) .top
    (.callFrom none function args) ⟨hfunction, hargs⟩

/-- At the top nothing is open to leave. -/
theorem Flow.Within.eq_next {L : Law} {flow : Flow} (h : flow.Within L .top) : flow = .next := by
  match flow with
  | .next => rfl
  | .breakTo none => exact h.elim
  | .breakTo (some label) => exact absurd h List.not_mem_nil
  | .returnWith v => exact absurd h.1 Bool.false_ne_true

theorem preserves_runProgram (h : Stmt.SettledList .top p) (budget : Nat) :
    (Law.settled C).Preserves (fun _ => True) (Machine.runProgram budget p) := by
  refine Law.Preserves.get.bind fun m _ => (preserves_program h m.globals).bind fun flow hflow => ?_
  obtain rfl := hflow.eq_next
  exact (Law.Preserves.pure (Q := fun _ => True) trivial).bind fun _ _ =>
    (Law.Preserves.drain (fun _ _ => preserves_call) budget budget).bind fun _ _ => .pure trivial

end

/-- A call of an evaluator that has one program. -/
def Call.Of (p : Program) : Call → Prop
  | reset | request _ => True
  | run q => q = p

theorem preserves_step {C : Config} {p : Program} (h : Stmt.SettledList .top p) {call : Call}
    (hcall : call.Of p) (budget : Nat) :
    (Law.settled C).Preserves (fun _ => True) (call.step budget) := by
  cases call with
  | reset => exact Law.Preserves.reset.bind fun _ _ => .pure trivial
  | run =>
      obtain rfl := hcall
      exact (preserves_runProgram h budget).bind fun _ _ => .pure trivial
  | request body =>
      exact (Law.Preserves.request (fun _ _ => preserves_call) budget body).bind
        fun _ _ => .pure trivial

namespace Machine

/-- The machines that a machine becomes when an evaluator with one program is called, again and
again, whether calls fail or not. -/
inductive Becomes (p : Program) (m : Machine) : Machine → Prop
  | same : Becomes p m m
  | call {n : Machine} (h : Becomes p m n) (c : Call) (hc : c.Of p) (budget : Nat) :
    Becomes p m (n.run (c.step budget)).2

/-- On a machine no break and no return of a program leads astray: its statements end behind the
last one unless they fail, and neither they nor any call of the evaluator fails for a break whose
label is not open. -/
structure Lands (p : Program) (m : Machine) : Prop where
  statements : ∀ flow,
    (m.run (Stmt.execBlock (fun callee => callFrom callee) m.globals p)).1 = .ok flow →
      flow = .next
  breaks : ∀ label,
    (m.run (Stmt.execBlock (fun callee => callFrom callee) m.globals p)).1 ≠
      .error (.labelNotOpen label)
  calls : ∀ (c : Call) (budget : Nat), c.Of p → ∀ label,
    (m.run (c.step budget)).1 ≠ .error (.labelNotOpen label)

variable {C : Config} {p : Program} {m n : Machine}

theorem Becomes.obeys (h : m.Becomes p n) (hp : Stmt.SettledList .top p)
    (hm : m.Obeys (.settled C)) : n.Obeys (.settled C) := by
  induction h with
  | same => exact hm
  | call _ c hc budget ih => exact (preserves_step hp hc budget _ ih).1

theorem Obeys.lands (hm : m.Obeys (.settled C)) (hp : Stmt.SettledList .top p) : m.Lands p where
  statements flow hflow := by
    have hallows := (preserves_program hp m.globals m hm).2
    rw [hflow] at hallows
    exact hallows.eq_next
  breaks label hfails := by
    have hallows := (preserves_program hp m.globals m hm).2
    rw [hfails] at hallows
    exact hallows
  calls c budget hc label hfails := by
    have hallows := (preserves_step hp hc budget m hm).2
    rw [hfails] at hallows
    exact hallows

end Machine

/-- Whatever is run and requested, an accepted program has no dangling control flow, and the
instrumented program has none where it is recorded. -/
theorem lands_of_instrument {options : InstrumentOptions} {primitives : Primitives} {p q : Program}
    (h : instrument options primitives p = .ok q) (config : Config) (network : Network) :
    (∀ m, (Machine.new config (.new none network)).Becomes p m → m.Lands p) ∧
      ∀ m, (Machine.new config (.new (some .new) network)).Becomes q m → m.Lands q := by
  obtain ⟨hp, hq⟩ := settled_of_instrument h
  exact ⟨fun m hm => (hm.obeys hp (Machine.obeys_new (L := .settled config) rfl _)).lands hp,
    fun m hm => (hm.obeys hq (Machine.obeys_new (L := .settled config) rfl _)).lands hq⟩

/-- `more: while (true) { break more; } function f(x) { once: { break once; } return x; }` and
`let y = f(1);` -/
def leaving : Program :=
  [.labeled .none "more" [.whileDo .none (.boolean .none true) [.breakTo .none (some "more")]],
    .function .none "f" ["x"] [.labeled .none "once" [.breakTo .none (some "once")],
      .returnWith .none (some (.ident "x"))],
    .letNamed "y" (.call .none (.ident "f") [.num 1.0])]

theorem lands_of_instrument_leaving : ∃ q, instrument .default .default leaving = .ok q ∧
    (∀ m, (Machine.new .default (.new none (.ofRoutes []))).Becomes leaving m →
      m.Lands leaving) ∧
      ∀ m, (Machine.new .default (.new (some .new) (.ofRoutes []))).Becomes q m → m.Lands q := by
  have haccepted : (instrument .default .default leaving).toBool = true := by
    with_unfolding_all rfl
  cases hq : instrument .default .default leaving with
  | error e =>
      rw [hq] at haccepted
      cases haccepted
  | ok q => exact ⟨q, rfl, lands_of_instrument hq .default (.ofRoutes [])⟩

end TraceLoom
