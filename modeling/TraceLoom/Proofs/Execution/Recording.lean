import TraceLoom.Proofs.Execution.Inserted

/-!
Inserted calls of the recorder.  The program itself does nothing meanwhile, so its machine stays as
it is; the other one gets on with its recorder, or stops because this execution disagrees with
what was recorded.
-/

namespace TraceLoom

open Script Instrument Running

/-! ## The recorder of a machine -/

namespace Adapter

variable {α β : Type} (a : Adapter)

@[simp] theorem run_get : a.run get = (.ok a, a) := rfl

@[simp] theorem run_set (b : Adapter) : a.run (set b) = (.ok ⟨⟩, b) := rfl

@[simp] theorem run_modify (f : Adapter → Adapter) : a.run (modify f) = (.ok ⟨⟩, f a) := rfl

@[simp] theorem run_pure (x : α) : a.run (pure x) = (.ok x, a) := rfl

@[simp] theorem run_throw (e : TraceError) : a.run (throw e : Adapting α) = (.error e, a) := rfl

@[simp] theorem run_ofExcept (x : Except TraceError α) :
    a.run (MonadExcept.ofExcept x) = (x, a) := by
  cases x <;> rfl

theorem run_bind (x : Adapting α) (f : α → Adapting β) :
    a.run (x >>= f) =
      match a.run x with
      | (.ok v, b) => b.run (f v)
      | (.error e, b) => (.error e, b) := by
  simp only [run, ExceptT.run_bind, StateT.run_bind]
  change (match StateT.run (ExceptT.run x) a with | (v, b) => _) = _
  rcases StateT.run (ExceptT.run x) a with ⟨v, b⟩
  cases v <;> rfl

theorem run_tryCatch (x : Adapting α) (f : TraceError → Adapting α) :
    a.run (tryCatch x f) =
      match a.run x with
      | (.ok v, b) => (.ok v, b)
      | (.error e, b) => b.run (f e) := by
  rcases h : a.run x with ⟨v, b⟩
  change StateT.run (ExceptT.run (ExceptT.tryCatch x f)) a = _
  simp only [ExceptT.tryCatch, ExceptT.run_mk, StateT.run_bind]
  rw [show StateT.run x a = (v, b) from h]
  cases v <;> rfl

variable {a}

theorem run_record {r : Recorder} (h : a.recorder = some r) (x : Recording α) :
    a.run (Adapter.record x) = ((x.run r).1, { a with recorder := some (x.run r).2 }) := by
  rw [Adapter.record, run_bind, run_get]
  dsimp only
  rw [h]
  dsimp only
  rw [run_bind, run_modify]
  exact run_ofExcept _ _

end Adapter

namespace Machine

variable {α : Type} {m : Machine} {r : Recorder}

def withRecorder (m : Machine) (r : Recorder) : Machine :=
  { m with adapter := { m.adapter with recorder := some r } }

theorem run_record (h : m.adapter.recorder = some r) (x : Recording α) :
    m.run (adapting (Adapter.record x)) =
      ((x.run r).1.mapError .trace, m.withRecorder (x.run r).2) := by
  rw [run_adapting, Adapter.run_record h]
  rfl

theorem frames_eq (h : m.adapter.recorder = some r) : m.frames = r.frames := by
  simp [frames, h]

theorem stays_withRecorder {r' : Recorder} {held : List ContextId}
    (h : m.adapter.recorder = some r) (hr : r.Holds held r') :
    m.Stays held (m.withRecorder r') := by
  intro r₀ hr₀
  obtain rfl := Option.some.inj (h.symm.trans hr₀)
  exact ⟨r', rfl, hr, fun _ _ hid => hid⟩

end Machine

variable {P : Expectation} {W W' : World} {m m' n n' : Machine} {env' : Environment}
  {call' : Expr → Value → List Value → Running Value} {ν ν' : Names} {op : Operation}
  {Q : List Frame → Prop}

theorem MachineRel.withRecorder (h : MachineRel P W m m') {r : Recorder}
    (hr : r.Tracks m'.registered W.held) : MachineRel P W m (m'.withRecorder r) :=
  ⟨h.config, h.options, h.gate, h.gate', h.adapter, ⟨r, rfl, hr⟩, h.store, h.globals, h.home,
    h.output, h.tasks, h.listener⟩

/-! ## Operations -/

namespace Operation

theorem gives_enterBody {n : String} {arity : Nat} {out : Outcome}
    (h : (enterBody n arity).Gives out) : ∃ ts, out = .args ts ∧ ts.length = arity + 1 := by
  obtain ⟨c, p, hp, hfinish⟩ := h
  cases hp
  unfold Plan.enterBody at hfinish
  split at hfinish
  · simp [Plan.refuse] at hfinish
  · split at hfinish
    · simp [Plan.refuse] at hfinish
    · rename_i args rest _
      unfold Plan.statement at hfinish
      split at hfinish
      · simp [Plan.refuse] at hfinish
      · rcases hfinish with hgive | ⟨_, _, hregister, -⟩
        · cases hgive
          have hlength : (args.take (arity + 1) ++
              List.replicate (arity + 1 - args.length) Trace.undefined).length = arity + 1 := by
            rw [List.length_append, List.length_take, List.length_replicate]
            omega
          exact ⟨_, rfl, hlength⟩
        · cases hregister

end Operation

/-- The instrumented program alone records something. -/
theorem sim_record {α : Type} {x : Recording α} {R : Recorder → α → Recorder → Prop}
    (hrel : MachineRel P W m m')
    (h : ∀ r, m'.adapter.recorder = some r → r.Tracks m'.registered W.held →
      Goes P.strict m'.registered W.held r (x.run r) (R r)) :
    Sim P W m m' (pure () : Running Unit) (adapting (Adapter.record x)) fun W' _ a n' =>
      W' = W ∧ ∃ r r', m'.adapter.recorder = some r ∧ n' = m'.withRecorder r' ∧ R r a r' := by
  obtain ⟨r, hr, htracks⟩ := hrel.tracks
  have hgoes := h r hr htracks
  have hrun := m'.run_record hr x
  have hstays : m'.Stays W.held _ := Machine.stays_withRecorder hr hgoes.stays.holds
  have hrel' := hrel.withRecorder hgoes.tracks
  generalize x.run r = result at hgoes hrun hstays hrel'
  obtain ⟨result, r'⟩ := result
  cases result with
  | error e =>
      refine .stop hrun (World.le_refl W) hrel' hstays (fun hstrict cause heq => ?_) (.trace e)
      cases heq
      exact hgoes.error hstrict e rfl
  | ok a => exact .ok rfl hrun (World.le_refl W) hrel' hstays ⟨rfl, r, r', hr, rfl, hgoes.ok a rfl⟩

theorem sim_perform (hrel : MachineRel P W m m') (hop : op.Plain)
    (hplan : ∀ c, (op.plan? c).isSome) (hleads : P.strict → op.Leads m'.frames Q) :
    Sim P W m m' (pure () : Running Unit) (adapting (Adapter.record op.perform)) fun W' _ out n' =>
      W' = W ∧ (∃ r, n' = m'.withRecorder r) ∧ (P.strict → Q n'.frames) ∧ op.Gives out ∧
        ∀ ts, out = .args ts → ∀ t ∈ ts, Trace.Plain t := by
  refine (sim_record hrel fun r hr htracks =>
    Goes.perform htracks op hop hplan (Machine.frames_eq hr ▸ hleads)).imp ?_
  rintro W' _ out n' - ⟨hW, -, r, -, rfl, hQ, hgives, hplain, -⟩
  exact ⟨hW, ⟨r, rfl⟩, hQ, hgives, hplain⟩

/-! ## Calls of operations -/

theorem run_traceExpr (h : Equipped P W m env' call' m') {name : String}
    (hname : name ∈ Operation.names) {args : List Expr} {vs : List Value}
    (hargs : Gives call' env' m' args vs n') :
    m'.run ((traceExpr standard name args).eval call' env') = n'.run (Native.record name vs) := by
  obtain ⟨v, hlookup, place, operations, rfl, -, -, htrace, -, -, hproperties⟩ :=
    lookup?_callbacks h.rel h.ready h.home
  have hget : (m'.store.properties operations).get? name = some (.native (.trace name)) := by
    rw [hproperties, operationFields, Fields.get?_map_name _ hname]
  change m'.run ((readName env' standard.options.callbacksBinding >>= fun v =>
    Running.read fun s => s.property v "trace") >>= _) = _
  rw [Machine.run_bind, Machine.run_bind, run_readName hlookup]
  dsimp only
  rw [Machine.run_read, Store.property, htrace]
  dsimp only [Option.getD_some]
  rw [Machine.run_bind, Machine.run_read, Store.property, hget]
  dsimp only [Option.getD_some]
  rw [Machine.run_bind, hargs.1]
  dsimp only
  rw [callMethod, if_pos (show Value.isCallable (.native (.trace name)) = true from rfl)]
  exact run_call_operation h.applies (h.quiet hargs.2).rel name vs

/-- What becomes of the outcome of an operation. -/
def outcomeValue : Operation.Outcome → Running Value
  | .args ts => make (Store.newTraces ts)
  | _ => return .undefined

theorem run_record_operation {name : String} {vs : List Value} (hrel : MachineRel P W m m')
    (hname : name ≠ "getTrace") (hop : Operation.ofArguments ⟨name, vs, m'.store⟩ = .ok op) :
    m'.run (Native.record name vs) =
      m'.run (adapting (Adapter.record op.perform) >>= outcomeValue) := by
  obtain ⟨r, hr, -⟩ := hrel.tracks
  have hget {α : Type} (f : Machine → Running α) : m'.run (get >>= f) = m'.run (f m') :=
    m'.run_bind get f
  rw [Native.record, Native.arguments]
  simp only [bind_assoc, pure_bind]
  rw [hget, hget, hr]
  dsimp only
  rw [if_neg hname, Machine.run_bind, Machine.run_ofExcept, hop]
  refine congrArg (fun f => m'.run (adapting (Adapter.record op.perform) >>= f)) (funext fun out => ?_)
  cases out <;> rfl

/-- The value of what an operation gave. -/
def Answers (out : Operation.Outcome) (v : Value) (m : Machine) : Prop :=
  ∀ ts, out = .args ts → ∃ place, v = .array place ∧
    List.Forall₂ IsTraceOf ts (m.store.items place).toList ∧ ∀ t ∈ ts, Trace.Plain t

theorem sim_outcomeValue (hrel : MachineRel P W m m') {out : Operation.Outcome}
    (hplain : ∀ ts, out = .args ts → ∀ t ∈ ts, Trace.Plain t) :
    Sim P W m m' (pure () : Running Unit) (outcomeValue out) fun W' _ v n' =>
      W' = W ∧ m'.Quiet n' ∧ Answers out v n' := by
  cases out with
  | done | context => exact .pure hrel ⟨rfl, .refl m', nofun⟩
  | args ts =>
      obtain ⟨place, hplace, hgrows, hitems⟩ := Store.newTraces_grows ts m'.store
      have hquiet := Machine.quiet_of_grows hgrows
      refine .ok rfl (m'.run_make (Store.newTraces ts)) (World.le_refl W) (hrel.quiet_right hquiet) hquiet.stays
        ⟨rfl, hquiet, fun us heq => ?_⟩
      cases heq
      exact ⟨place, hplace, hitems, hplain ts rfl⟩

/-- What an inserted call of the recorder leaves. -/
structure Recorded (P : Expectation) (W : World) (m : Machine) (Q : List Frame → Prop) (W' : World)
    (n : Machine) : Prop where
  world : W' = W
  grows : m.store.Grows n.store
  frames : P.strict → Q n.frames

theorem sim_traceExpr (h : Equipped P W m env' call' m') {name : String}
    (hname : name ∈ Operation.names) (hne : name ≠ "getTrace") {args : List Expr} {vs : List Value}
    (hargs : Gives call' env' m' args vs n')
    (hop : Operation.ofArguments ⟨name, vs, n'.store⟩ = .ok op) (hplain : op.Plain)
    (hplan : ∀ c, (op.plan? c).isSome) (hleads : P.strict → op.Leads m'.frames Q) :
    Sim P W m m' (pure () : Running Unit) ((traceExpr standard name args).eval call' env')
      fun W' _ v k => Recorded P W m' Q W' k ∧ ∃ out, op.Gives out ∧ Answers out v k := by
  have hrel := (h.quiet hargs.2).rel
  have hrun := (run_traceExpr h hname hargs).trans (run_record_operation hrel hne hop)
  rw [← Machine.frames_of_adapter hargs.2.adapter] at hleads
  refine .of_quiet hargs.2 hrun ((sim_perform hrel hplain hplan hleads).before ?_)
  rintro W' n₁ out - hrel' - ⟨rfl, ⟨r, rfl⟩, hQ, hgives, hplain'⟩
  refine (sim_outcomeValue hrel' hplain').imp fun _ ⟨hW, hquiet, hanswers⟩ => ?_
  refine ⟨⟨hW, hargs.2.grows.trans hquiet.grows, fun hstrict => ?_⟩, out, hgives, hanswers⟩
  rw [Machine.frames_of_adapter hquiet.adapter]
  exact hQ hstrict

theorem sim_traceCall (h : Equipped P W m env' call' m') {name : String}
    (hname : name ∈ Operation.names) (hne : name ≠ "getTrace") {args : List Expr} {vs : List Value}
    (hargs : Gives call' env' m' args vs n')
    (hop : Operation.ofArguments ⟨name, vs, n'.store⟩ = .ok op) (hplain : op.Plain)
    (hplan : ∀ c, (op.plan? c).isSome) (hleads : P.strict → op.Leads m'.frames Q) :
    Sim P W m m' (pure () : Running Unit) ((traceCall standard name args).exec call' env')
      fun W' _ flow k => flow = .next ∧ Recorded P W m' Q W' k := by
  refine (sim_traceExpr h hname hne hargs hop hplain hplan hleads).after
    fun _ hrel' _ ⟨hrecorded, _⟩ => ?_
  exact .pure hrel' ⟨rfl, hrecorded⟩

/-! ## Inserted statements -/

/-- An inserted statement has run. -/
def Passed (P : Expectation) (W : World) (m : Machine) (Q : List Frame → Prop) (W' : World)
    (_ : Unit) (flow : Flow) (n : Machine) : Prop :=
  flow = .next ∧ Recorded P W m Q W' n

/-- An inserted call for an operation that was read off its arguments. -/
theorem sim_inserted (h : Equipped P W m env' call' m') {name : String}
    (hname : name ∈ Operation.names) (hne : name ≠ "getTrace") {args : List Expr} {vs : List Value}
    (hargs : Gives call' env' m' args vs n') (op : Operation)
    (hop : Operation.ofArguments ⟨name, vs, n'.store⟩ = .ok op)
    (hplain : ∀ t ∈ op.expressions, Trace.Plain t) (hplan : ∀ c, (op.plan? c).isSome)
    (hleads : P.strict → op.Leads m'.frames Q) :
    Sim P W m m' (pure ()) ((traceCall standard name args).exec call' env') (Passed P W m' Q) :=
  sim_traceCall h hname hne hargs hop hplain hplan hleads

theorem ofArguments_traceSet (i j : Nat) (u t : Trace) (s : Store) :
    Operation.ofArguments ⟨"traceSet", [.trace i u, .trace j t], s⟩ =
      (match u.toTarget? with
        | some x => .ok (.assign x t)
        | none => .error (.typeError "traceSet" "an assignable expression" u.kind)) := by
  change (Arguments.target _ 0 >>= _) = _
  rw [Arguments.target]
  change ((match u.toTarget? with | some x => _ | none => _ : Except EvalError Target) >>= _) = _
  cases u.toTarget? <;> rfl

/-- A list of traces as an argument. -/
theorem gives_traces {items : List Expr} {values : List Value}
    (hitems : Gives call' env' m' items values n') (hvalues : ∀ v ∈ values, IsPlain v)
    (operation first : String) :
    ∃ place k ts, Gives call' env' m' [.text first, .list items] [.string first, .array place] k ∧
      Arguments.traces ⟨operation, [.string first, .array place], k.store⟩ 1 = .ok ts ∧
      ∀ t ∈ ts, Trace.Plain t := by
  obtain ⟨place, k, hgives, rfl⟩ := gives_list hitems
  obtain ⟨ts, hts, hplain⟩ :=
    mapM_asTrace ⟨operation, [.string first, .array place], k.store⟩ hvalues
  exact ⟨place, k, ts, gives_text hgives, hts, hplain⟩

section

variable (h : Equipped P W m env' call' m') (hopen : P.strict → m'.frames ≠ [])

include h

section

include hopen

theorem sim_traceLet (x : String) {e : Expr} (he : Builds call' env' m' e) :
    Sim P W m m' (pure ()) ((traceLet standard x e).exec call' env')
      (Passed P W m' (Advances m'.frames)) := by
  obtain ⟨_, n', hrun, hquiet, identity, t, rfl, ht⟩ := he
  exact sim_inserted h (by decide) (by decide) (gives_text (gives_cons hrun hquiet gives_nil))
    (.bind x t) rfl (List.forall_mem_singleton.mpr ht) (fun _ => rfl)
    fun hstrict => Operation.leads_bind (hopen hstrict) x t

theorem sim_traceSet {target value : Expr} (htarget : BuildsTarget call' env' m' target)
    (hvalue : ∀ n', m'.Quiet n' → Builds call' env' n' value) :
    Sim P W m m' (pure ()) ((traceCall standard "traceSet" [target, value]).exec call' env')
      (Passed P W m' (Advances m'.frames)) := by
  obtain ⟨_, n', hrun, hquiet, _, u, x, rfl, hx, hplain⟩ := htarget
  obtain ⟨_, k, hrun', hquiet', _, t, rfl, ht⟩ := hvalue n' hquiet
  refine sim_inserted h (by decide) (by decide)
    (gives_cons hrun hquiet (gives_cons hrun' hquiet' gives_nil)) (.assign x t) ?_
    (List.forall_mem_append.mpr ⟨hplain, List.forall_mem_singleton.mpr ht⟩) (fun _ => rfl)
    fun hstrict => Operation.leads_assign (hopen hstrict) x t
  rw [ofArguments_traceSet, hx]

theorem sim_tracePrimApp (event : String) {items : List Expr} {values : List Value}
    (hitems : Gives call' env' m' items values n') (hvalues : ∀ v ∈ values, IsPlain v) :
    Sim P W m m' (pure ())
      ((traceCall standard "tracePrimApp" [.text event, .list items]).exec call' env')
      (Passed P W m' (Advances m'.frames)) := by
  obtain ⟨place, k, ts, hargs, hts, hplain⟩ := gives_traces hitems hvalues "tracePrimApp" event
  refine sim_inserted h (by decide) (by decide) hargs (.primitive event ts) ?_ hplain (fun _ => rfl)
    fun hstrict => Operation.leads_primitive (hopen hstrict) event ts
  change (Arguments.traces _ 1 >>= _) = _
  rw [hts]
  rfl

theorem sim_traceFunctionCall (x : String) {items : List Expr} {values : List Value}
    (hitems : Gives call' env' m' items values n') (hvalues : ∀ v ∈ values, IsPlain v) :
    Sim P W m m' (pure ())
      ((traceCall standard "traceFunctionCall" [.text x, .list items]).exec call' env')
      (Passed P W m' (Opens .call m'.frames)) := by
  obtain ⟨place, k, ts, hargs, hts, hplain⟩ := gives_traces hitems hvalues "traceFunctionCall" x
  refine sim_inserted h (by decide) (by decide) hargs (.call x ts) ?_ hplain (fun _ => rfl)
    fun hstrict => Operation.leads_call (hopen hstrict) x ts
  change (Arguments.traces _ 1 >>= _) = _
  rw [hts]
  rfl

theorem sim_traceIf (taken : Bool) {test : Expr} (htest : Builds call' env' m' test) :
    Sim P W m m' (pure ())
      ((traceCall standard (if taken then "traceIfTrue" else "traceIfFalse") [test]).exec call' env')
      (Passed P W m' (Opens .block m'.frames)) := by
  obtain ⟨_, n', hrun, hquiet, identity, t, rfl, ht⟩ := htest
  refine sim_inserted h (by cases taken <;> decide) (by cases taken <;> decide)
    (gives_cons hrun hquiet gives_nil) (.branch taken t) (by cases taken <;> rfl)
    (List.forall_mem_singleton.mpr ht) (fun _ => rfl)
    fun hstrict => Operation.leads_branch (hopen hstrict) taken t

theorem sim_traceWhile {test : Expr} (htest : Builds call' env' m' test) :
    Sim P W m m' (pure ()) ((traceCall standard "traceWhile" [test]).exec call' env')
      (Passed P W m' (Opens (.loop false) m'.frames)) := by
  obtain ⟨_, n', hrun, hquiet, identity, t, rfl, ht⟩ := htest
  exact sim_inserted h (by decide) (by decide) (gives_cons hrun hquiet gives_nil) (.loop t) rfl
    (List.forall_mem_singleton.mpr ht) (fun _ => rfl) fun hstrict => Operation.leads_loop (hopen hstrict) t

theorem sim_traceLabel (label : String) :
    Sim P W m m' (pure ()) ((traceCall standard "traceLabel" [.text label]).exec call' env')
      (Passed P W m' (Opens (.label label) m'.frames)) :=
  sim_inserted h (by decide) (by decide) (gives_text gives_nil) (.label label) rfl nofun
    (fun _ => rfl) fun hstrict => Operation.leads_label (hopen hstrict) label

end

theorem sim_newTrace :
    Sim P W m m' (pure ()) ((traceCall standard "newTrace" []).exec call' env')
      (Passed P W m' fun frames => ∃ f, frames = [f]) :=
  sim_inserted h (by decide) (by decide) gives_nil .restart rfl nofun (fun _ => rfl)
    fun _ => Operation.leads_restart _

theorem sim_traceLoop {iterating : Bool} {frames : List Frame}
    (hloop : P.strict → Opens (.loop iterating) frames m'.frames) :
    Sim P W m m' (pure ()) ((traceCall standard "traceLoop" []).exec call' env')
      (Passed P W m' (Opens (.loop true) frames)) :=
  sim_inserted h (by decide) (by decide) gives_nil .iterate rfl nofun (fun _ => rfl)
    fun hstrict => Operation.leads_iterate (hloop hstrict)

theorem sim_exitBlock (hleads : P.strict → Operation.exit.Leads m'.frames Q) :
    Sim P W m m' (pure ()) ((exitBlock standard).exec call' env') (Passed P W m' Q) :=
  sim_inserted h (by decide) (by decide) gives_nil .exit rfl nofun (fun _ => rfl) hleads

theorem sim_traceBreak {label : String} {value : Expr} (hvalue : Builds call' env' m' value)
    (hunwind : P.strict → (Recording.unwind label m'.frames).isSome) :
    Sim P W m m' (pure ()) ((traceCall standard "traceBreak" [.text label, value]).exec call' env')
      (Passed P W m' fun frames => Recording.unwind label m'.frames = some frames) := by
  obtain ⟨_, n', hrun, hquiet, identity, t, rfl, ht⟩ := hvalue
  refine sim_inserted h (by decide) (by decide) (gives_text (gives_cons hrun hquiet gives_nil))
    (.breakTo label t) rfl (List.forall_mem_singleton.mpr ht) (fun _ => rfl) fun hstrict => ?_
  obtain ⟨frames, hframes⟩ := Option.isSome_iff_exists.mp (hunwind hstrict)
  exact (Operation.leads_breakTo hframes t).imp fun _ heq => heq ▸ hframes

end

end TraceLoom
