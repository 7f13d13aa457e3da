import TraceLoom.Proofs.Execution.Beginnings

/-!
Runs and requests of instrumented programs.  Where inserted calls of the recorder pass, a run or a
request that succeeds does so as well if it has to record plain traces.
-/

namespace TraceLoom

open Script Instrument Running

variable {identity : Nat} {refusal : EvalError} {m m' : Machine}

/-! ## Callbacks -/

theorem Machine.Guarded.dequeue {R : Realm} (hm : m.Guarded R refusal) {task : Task}
    {tasks : Queue Task} (hpop : m.tasks.pop? = some (task, tasks)) :
    (task.registration.context.isSome ∧ task.callback.Reaches R ∧ task.arg.Reaches R) ∧
      Machine.Guarded R refusal { m with tasks } := by
  have htasks := hm.tasks
  rw [Queue.toList_of_pop? hpop] at htasks
  obtain ⟨htask, hrest⟩ := List.forall_mem_cons.mp htasks
  exact ⟨htask, { hm with tasks := hrest }⟩

/-- A call by the host. -/
theorem passes_call {function : Value} (hfunction : function.Reaches (.instrumented identity))
    {arg : Value} (harg : arg.Reaches (.instrumented identity)) :
    Passes (.instrumented identity) refusal (Value.Reaches (.instrumented identity))
      (call function [arg]) :=
  (pervasive_passes identity refusal).callFrom (fun _ he => absurd he (Option.not_mem_none _))
    hfunction (List.forall_mem_singleton.mpr harg)

theorem passes_drain (limit remaining : Nat) :
    Passes (.instrumented identity) refusal (fun _ => True) (Running.drain limit remaining) := by
  induction remaining with
  | zero =>
      intro m a m' hm hrun
      cases hpop : m.tasks.pop? with
      | none =>
          rw [run_drain_of_none hpop] at hrun
          cases hrun
          exact ⟨⟨hm, trivial⟩, run_drain_of_none (show (m.plain refusal).tasks.pop? = none from hpop) ..⟩
      | some popped =>
          rw [run_drain_zero hpop] at hrun
          cases hrun
  | succ remaining ih =>
      intro m a m' hm hrun
      cases hpop : m.tasks.pop? with
      | none =>
          rw [run_drain_of_none hpop] at hrun
          cases hrun
          exact ⟨⟨hm, trivial⟩, run_drain_of_none (show (m.plain refusal).tasks.pop? = none from hpop) ..⟩
      | some popped =>
          obtain ⟨task, tasks⟩ := popped
          obtain ⟨⟨hcontext, hcallback, harg⟩, hrest⟩ := hm.dequeue hpop
          rw [run_drain_succ hpop] at hrun
          rw [run_drain_succ (show (m.plain refusal).tasks.pop? = some (task, tasks) from hpop)]
          exact ((passes_fire hcontext (passes_call hcallback harg)).bind fun _ _ => ih)
            { m with tasks } a m' hrest hrun

/-! ## Requests -/

/-- What concerns the adapter but not its recorder. -/
theorem passes_bookkeeping {R : Realm} {α : Type} {f : Adapter → α × Adapter}
    (h : ∀ a, (f a).2.recorder = a.recorder) :
    Passes R refusal (fun _ => True)
      (modifyGet fun m : Machine => ((f m.adapter).1, { m with adapter := (f m.adapter).2 })) := by
  intro m a m' hm hrun
  cases hrun
  exact ⟨⟨{ hm with adapter := hm.adapter.of_recorder (h _) }, trivial⟩, rfl⟩

theorem passes_openConversation {R : Realm} :
    Passes R refusal (fun _ => True) Machine.openConversation :=
  passes_bookkeeping (f := Adapter.openConversation) fun _ => rfl

theorem passes_takeResponse {R : Realm} (id : ConversationId) :
    Passes R refusal (fun _ => True) (Machine.takeResponse id) :=
  passes_bookkeeping (f := fun a => a.takeResponse id) fun _ => rfl

theorem passes_request (budget : Nat) (body : Json) :
    Passes (.instrumented identity) refusal (fun _ => True) (Machine.request budget body) := by
  have hdeliver {l : Listener} (hcontext : l.registration.context.isSome)
      (hcallback : l.callback.Reaches (.instrumented identity)) :
      Passes (.instrumented identity) refusal (fun _ => True) (do
        let id ← Machine.openConversation
        let arg ← make (Store.ofJson body)
        fire l.registration (some id) (call l.callback [arg])
        Machine.drain budget
        Machine.takeResponse id) := by
    refine passes_openConversation.bind fun id _ => ?_
    refine (passes_make fun _ hs => hs.ofJson body).bind fun arg harg => ?_
    refine (passes_fire hcontext (passes_call hcallback harg)).bind fun _ _ => ?_
    exact (passes_drain budget budget).bind fun _ _ => passes_takeResponse id
  intro m answer m' hm hrun
  rw [Machine.request, Machine.run_bind, Machine.run_get] at hrun ⊢
  dsimp only at hrun ⊢
  rw [show (m.plain refusal).listener = m.listener from rfl]
  cases hl : m.listener with
  | none =>
      rw [hl] at hrun
      cases hrun
  | some l =>
      rw [hl] at hrun
      obtain ⟨hcontext, hcallback⟩ := hm.listener l hl
      exact hdeliver hcontext hcallback m answer m' hm hrun

/-! ## Runs -/

/-- A machine that only inserted calls of the recorder pass, and whose callbacks can be given up. -/
structure Machine.Prepared (refusal : EvalError) (m : Machine) : Prop where
  gate : m.gate = recorderGate refusal
  options : m.config.instrument = standard.options
  adapter : m.adapter.InUse
  tasks : ∀ task ∈ m.tasks.toList, task.registration.context.isSome
  listener : ∀ l ∈ m.listener, l.registration.context.isSome

theorem Machine.Guarded.prepared {R : Realm} (hm : m.Guarded R refusal) : m.Prepared refusal :=
  ⟨hm.gate, hm.options, hm.adapter, fun task htask => (hm.tasks task htask).1,
    fun l hl => (hm.listener l hl).1⟩

/-- Callbacks are given up, which never fails. -/
theorem Adapter.InUse.exists_discards {a : Adapter} (ha : a.InUse) {registrations : List Registration}
    (hcontexts : ∀ r ∈ registrations, r.context.isSome) :
    ∃ b : Adapter, b.InUse ∧ ∀ m : Machine, m.adapter = a →
      m.run (registrations.forM fun r => adapting (Adapter.discard r)) =
        (.ok (), { m with adapter := b }) := by
  induction registrations generalizing a with
  | nil => exact ⟨a, ha, fun m hm => by subst hm; rfl⟩
  | cons r registrations ih =>
      obtain ⟨hr, hcontexts⟩ := List.forall_mem_cons.mp hcontexts
      obtain ⟨b, hb, hrun⟩ := ih (ha.discard hr) hcontexts
      refine ⟨b, hb, fun m hm => ?_⟩
      subst hm
      change m.run (adapting (Adapter.discard r) >>= fun _ =>
        registrations.forM fun r => adapting (Adapter.discard r)) = _
      rw [Machine.run_bind, Machine.run_adapting, Adapter.run_discard_ok]
      exact hrun { m with adapter := (m.adapter.run (Adapter.discard r)).2 } rfl

/-- The machine that is left when everything but the adapter and the output is forgotten. -/
def Machine.renewed (m : Machine) (a : Adapter) : Machine :=
  { m with
    adapter := a
    store := Store.empty.newGlobals.2
    globals := Store.empty.newGlobals.1
    tasks := .empty
    listener := none }

theorem Machine.Prepared.exists_reset (hm : m.Prepared refusal) :
    ∃ a : Adapter, a.InUse ∧ m.run Machine.reset = (.ok (), m.renewed a) ∧
      (m.plain refusal).run Machine.reset = (.ok (), (m.renewed a).plain refusal) := by
  have hcontexts : ∀ r ∈ m.tasks.toList.map (·.registration) ++
      m.listener.toList.map (·.registration), r.context.isSome := by
    refine List.forall_mem_append.mpr ⟨List.forall_mem_map.mpr hm.tasks, List.forall_mem_map.mpr ?_⟩
    exact fun l hl => hm.listener l (Option.mem_toList.mp hl)
  obtain ⟨b, hb, hrun⟩ := hm.adapter.exists_discards hcontexts
  have hreset (k : Machine) : k.run Machine.reset = (k.renewed k.adapter).run
      ((k.tasks.toList.map (·.registration) ++ k.listener.toList.map (·.registration)).forM
        fun r => adapting (Adapter.discard r)) := by
    have hleft : k.run Machine.reset = (k.renewed k.adapter).run (do
        k.tasks.toList.forM fun task => adapting (Adapter.discard task.registration)
        k.listener.forM fun listener => adapting (Adapter.discard listener.registration)) := rfl
    rw [hleft]
    simp only [List.forM_eq_forM, List.forM_append, List.forM_map]
    cases k.listener <;> simp
  refine ⟨b, hb, ?_, ?_⟩
  · rw [hreset]
    exact hrun _ rfl
  · rw [hreset]
    exact hrun _ rfl

theorem run_execList_cons {call : Expr → Value → List Value → Running Value} {env : Environment}
    {s : Stmt} {ss : List Stmt} {n : Machine} (h : m.run (s.exec call env) = (.ok .next, n)) :
    m.run (Stmt.execList call env (s :: ss)) = n.run (Stmt.execList call env ss) :=
  Machine.run_bind_of_ok h _

/-- What is left of a run once the modules are bound. -/
def remainder (budget : Nat) (env : Environment) (p : Program) : Running Value := do
  let value ← topValue (← Stmt.execList (fun callee => callFrom callee) env p)
  Machine.drain budget
  return value

theorem passes_remainder (budget : Nat) (env : Environment) {p : Program}
    (hp : Stmt.ProperList reread p) :
    Passes (.instrumented identity) refusal (fun _ => True) (remainder budget env p) := by
  have hprogram := pervasive_passes identity refusal
  refine (hprogram.execList hprogram.callsWithin_callFrom env p hp).bind fun flow _ => ?_
  have htop : Passes (.instrumented identity) refusal (fun _ => True) (topValue flow) := by
    cases flow with
    | next | returnWith v => exact passes_pure trivial
    | breakTo label => exact passes_throw _
  exact htop.bind fun _ _ => (passes_drain budget budget).bind fun _ _ => passes_pure trivial

/-- The modules are bound, one after the other. -/
theorem run_imports {call : Expr → Value → List Value → Running Value} (happlies : Applies call)
    {env : Environment} (hoptions : m.config.instrument = standard.options)
    (hgate : ∀ callee args s, m.gate callee (.native .require) args s = .ok ())
    (hrequire : m.store.lookup? env "require" = some (.native .require)) {exp cb : Stmt}
    (hexp : IsImport standard.options.expBinding standard.options.expModule exp)
    (hcb : IsImport standard.options.callbacksBinding standard.options.callbacksModule cb)
    (rest : Program) : m.run (Stmt.execList call env (exp :: cb :: rest)) =
      Machine.run { m with store := m.store.withModules env } (Stmt.execList call env rest) := by
  obtain @⟨pos, cpos, npos, spos⟩ := hexp
  obtain @⟨pos', cpos', npos', spos'⟩ := hcb
  have hgrows : m.store.Grows m.store.newBuilderModule.2 :=
    (Store.Grows.newTrace .undefined m.store).trans (.newObject _ _)
  obtain ⟨k, hk, hfirst⟩ : ∃ k : Machine,
      k = { m with store := (m.store.newBuilderModule.2.declare env standard.options.expBinding
        m.store.newBuilderModule.1 false) } ∧
      m.run ((Stmt.declare pos .ofLet [(.name standard.options.expBinding, some (.call cpos
        (.name npos "require") [.string spos standard.options.expModule]))]).exec call env) =
          (.ok .next, k) :=
    ⟨_, rfl, run_import happlies hgate hrequire (run_importModule hoptions).1⟩
  have hrequire' : k.store.lookup? env "require" = some (.native .require) := by
    rw [hk]
    exact (lookup?_declare_of_ne hgrows (by decide) _).trans hrequire
  rw [run_execList_cons hfirst, run_execList_cons (run_import happlies (hk ▸ hgate) hrequire'
    (run_importModule (hk ▸ hoptions)).2), hk]
  rfl

/-- With its modules bound, a program starts its trace. -/
theorem exists_modules {p : Program} (hp : IsInstrumented reread p)
    (hrequire : ∀ pos params fbody, Stmt.function pos "require" params fbody ∉ p) (budget : Nat) :
    ∃ (s : Store) (identity : Nat) (pos : Position) (newTrace : Expr) (body : Program),
      s.Reaches (.instrumented identity) ∧
      s.lookup? Store.empty.newGlobals.1 standard.options.callbacksBinding =
        some (.object callbacksPlace) ∧
      IsRecording "newTrace" [] newTrace ∧ Stmt.ProperList reread body ∧
      ∀ m : Machine, m.store = Store.empty.newGlobals.2 →
        m.globals = Store.empty.newGlobals.1 → m.config.instrument = standard.options →
        (∀ callee args s, m.gate callee (.native .require) args s = .ok ()) →
        m.run (Machine.runProgram budget p) = Machine.run { m with store := s }
          (remainder budget Store.empty.newGlobals.1 (.expr pos newTrace :: body)) := by
  obtain @⟨exp, cb, pos, newTrace, body, builder, callbacks, start, proper⟩ := hp
  obtain ⟨t, gs, hhoist, harrays, hobjects, hscopes, hkeys, hhoists⟩ :=
    exists_hoist Store.empty.newGlobals.1 rfl body
      (show Store.empty.newGlobals.2.scopes = #[globalFields] from rfl) (by decide)
  have hgs : ∀ field ∈ gs, (Realm.instrumented t.identities).Binds field.1 field.2.value := by
    intro field hfield
    refine (hhoists field.1).binds proper (fun x hx => ?_) (Fields.get?_of_mem hkeys hfield)
    exact binds_globals (Fields.mem_of_get? hx)
  have hget : gs.get? "require" = some ⟨.native .require, true⟩ := by
    rcases hhoists "require" with ⟨hsame, -⟩ | ⟨_, pos, params, fbody, hmem, -⟩
    · exact hsame
    · exact absurd (by simp [hmem]) (hrequire pos params fbody)
  have hlookup : t.lookup? Store.empty.newGlobals.1 "require" = some (.native .require) := by
    rw [Store.lookup?, newGlobals_empty, Store.find?, Store.bindings, hscopes]
    simp [hget]
  have hfirst (m : Machine) (hstore : m.store = Store.empty.newGlobals.2) :
      m.run (hoist Store.empty.newGlobals.1 (exp :: cb :: .expr pos newTrace :: body)) =
        (.ok ⟨⟩, { m with store := t }) := by
    rw [← hhoist m hstore]
    cases builder
    cases callbacks
    rfl
  refine ⟨t.withModules Store.empty.newGlobals.1, t.identities, pos, newTrace, body,
    reaches_withModules rfl harrays hobjects hscopes hgs, lookup?_withModules rfl hobjects hscopes,
    start, proper, fun m hstore hglobals hoptions hgate => ?_⟩
  have himports := run_imports (m := { m with store := t }) applies_callFrom hoptions hgate hlookup
    builder callbacks (.expr pos newTrace :: body)
  conv_lhs =>
    rw [runProgram_eq, Machine.run_bind, Machine.run_get]
    dsimp only
    rw [hglobals]
  rw [Stmt.execBlock, bind_assoc, Machine.run_bind_of_ok (hfirst m hstore), remainder,
    Machine.run_bind, Machine.run_bind, himports]

/-- A run of a program that has its modules. -/
theorem passes_run (hm : m.Prepared refusal) {p : Program} (hp : IsInstrumented reread p)
    (hrequire : ∀ pos params fbody, Stmt.function pos "require" params fbody ∉ p) {budget : Nat}
    {v : Value} (hrun : m.run (do Machine.reset; Machine.runProgram budget p) = (.ok v, m')) :
    ∃ identity, m'.Guarded (.instrumented identity) refusal ∧
      (m.plain refusal).run (do Machine.reset; Machine.runProgram budget p) =
        (.ok v, m'.plain refusal) := by
  obtain ⟨a, ha, hreset, hreset'⟩ := hm.exists_reset
  obtain ⟨s, identity, pos, newTrace, body, hs, -, hstart, hbody, hmodules⟩ :=
    exists_modules hp hrequire budget
  have hgate : ∀ callee args s, m.gate callee (.native .require) args s = .ok () := by
    intro callee args s
    rw [hm.gate]
    rfl
  rw [Machine.run_bind_of_ok hreset, hmodules (m.renewed a) rfl rfl hm.options hgate] at hrun
  have hguarded : Machine.Guarded (.instrumented identity) refusal
      { m.renewed a with store := s } :=
    ⟨hm.gate, hm.options, hs, ha, fun _ htask => absurd htask List.not_mem_nil,
      fun _ hl => absurd hl (Option.not_mem_none _)⟩
  have hrest : Stmt.ProperList reread (.expr pos newTrace :: body) :=
    ⟨.inl (.record (by decide) (List.forall_mem_nil _) hstart), hbody⟩
  obtain ⟨⟨hm', -⟩, hplain⟩ := passes_remainder budget _ hrest _ v m' hguarded hrun
  refine ⟨identity, hm', ?_⟩
  rw [Machine.run_bind_of_ok hreset',
    hmodules ((m.renewed a).plain refusal) rfl rfl hm.options fun _ _ _ => rfl]
  exact hplain

end TraceLoom
