import TraceLoom.Proofs.Execution.Chronicle
import TraceLoom.Proofs.Execution.Passages
import TraceLoom.Proofs.Host.Again

/-!
Sessions that do the same again.  The first pass records plain traces only, and starts with a new
trace; so an adapter that has recorded all of it already gives the same replies once more, and its
trace stays as it is.
-/

namespace TraceLoom

open Script Instrument Running

/-! ## Calls of a session as steps -/

namespace Session

/-- A step together with the lines that it writes. -/
def noting (x : Running TraceLoom.Outcome) : Running (Outcome TraceLoom.Outcome) := do
  let result ← x
  let output ← modifyGet Machine.takeLines
  return ⟨result, output⟩

def Call.step (budget : Nat) (p : Program) : Call → Running (Outcome TraceLoom.Outcome)
  | .run => noting do
    Machine.reset
    (TraceLoom.Call.run p).step budget
  | .request body => noting ((TraceLoom.Call.request body).step budget)

def steps (budget : Nat) (p : Program) : List Call → Running (List (Outcome TraceLoom.Outcome))
  | [] => return []
  | c :: calls => do
    let outcome ← c.step budget p
    let outcomes ← steps budget p calls
    return outcome :: outcomes

variable {s : Session} {budget : Nat}

theorem run_noting {m : Machine} (x : Running TraceLoom.Outcome) :
    m.run (noting x) = match m.run x with
      | (.ok r, n) => (.ok ⟨r, n.lines⟩, n.takeLines.2)
      | (.error e, n) => (.error e, n) := by
  rw [noting, Machine.run_bind]
  rcases m.run x with ⟨_ | r, n⟩ <;> rfl

theorem run_map {α β : Type} {m : Machine} (x : Running α) (f : α → β) :
    m.run (f <$> x) = ((m.run x).1.map f, (m.run x).2) := by
  rw [map_eq_pure_bind, Machine.run_bind]
  rcases m.run x with ⟨_ | r, n⟩ <;> rfl

theorem step_run (p : Program) : Call.step budget p .run = noting (Outcome.value <$> do
    Machine.reset
    Machine.runProgram budget p) := by
  rw [Call.step, TraceLoom.Call.step, map_bind]

theorem call_eq (s : Session) (budget : Nat) (c : Call) :
    (s.call budget c).1 = (s.machine.run (c.step budget s.program)).1 ∧
      (s.call budget c).2.machine = (s.machine.run (c.step budget s.program)).2 ∧
      (s.call budget c).2.program = s.program := by
  cases c with
  | run =>
      rw [step_run, run_noting, run_map, call, Session.run, perform]
      rcases s.machine.run (do Machine.reset; Machine.runProgram budget s.program) with ⟨_ | v, n⟩
      · exact ⟨rfl, rfl, rfl⟩
      · exact ⟨rfl, rfl, rfl⟩
  | request body =>
      rw [Call.step, TraceLoom.Call.step, run_noting, run_map, call, Session.request, perform]
      rcases s.machine.run (Machine.request budget body) with ⟨_ | v, n⟩
      · exact ⟨rfl, rfl, rfl⟩
      · exact ⟨rfl, rfl, rfl⟩

theorem callAll_eq (s : Session) (budget : Nat) (calls : List Call) :
    (s.callAll budget calls).1 = (s.machine.run (steps budget s.program calls)).1 ∧
      (s.callAll budget calls).2.machine = (s.machine.run (steps budget s.program calls)).2 ∧
      (s.callAll budget calls).2.program = s.program := by
  induction calls generalizing s with
  | nil => exact ⟨rfl, rfl, rfl⟩
  | cons c calls ih =>
      obtain ⟨hresult, hmachine, hprogram⟩ := s.call_eq budget c
      rw [callAll, steps, Machine.run_bind]
      generalize s.call budget c = called at hresult hmachine hprogram
      obtain ⟨result, s'⟩ := called
      rcases hrun : s.machine.run (c.step budget s.program) with ⟨_ | o, n⟩
      · rw [hrun] at hresult hmachine
        obtain rfl := hresult
        exact ⟨rfl, hmachine, hprogram⟩
      · rw [hrun] at hresult hmachine
        obtain rfl := hresult
        dsimp only at hmachine hprogram ⊢
        subst hmachine
        obtain ⟨hresult', hmachine', hprogram'⟩ := ih s'
        rw [hprogram] at hresult' hmachine' hprogram'
        rw [hresult', hmachine', hprogram', Machine.run_bind]
        rcases s'.machine.run (steps budget s.program calls) with ⟨_ | os, k⟩ <;> exact ⟨rfl, rfl, rfl⟩

end Session

/-! ## Passing the stricter gate -/

namespace Session

section

variable {refusal : EvalError} {m m' : Machine} {budget : Nat} {p : Program}

theorem run_noting_eq_ok_iff {x : Running TraceLoom.Outcome} {o : Outcome TraceLoom.Outcome} :
    m.run (noting x) = (.ok o, m') ↔
      ∃ n, m.run x = (.ok o.result, n) ∧ o.output = n.lines ∧ m' = n.takeLines.2 := by
  rw [run_noting]
  obtain ⟨result, output⟩ := o
  rcases m.run x with ⟨e | r, n⟩
  · simp
  · simp only [Prod.mk.injEq, Except.ok.injEq, Outcome.mk.injEq]
    constructor
    · rintro ⟨⟨rfl, rfl⟩, rfl⟩
      exact ⟨n, ⟨rfl, rfl⟩, rfl, rfl⟩
    · rintro ⟨_, ⟨rfl, rfl⟩, rfl, rfl⟩
      exact ⟨⟨rfl, rfl⟩, rfl⟩

theorem run_map_eq_ok_iff {α β : Type} {x : Running α} {f : α → β} {b : β} :
    m.run (f <$> x) = (.ok b, m') ↔ ∃ a, m.run x = (.ok a, m') ∧ f a = b := by
  rw [run_map]
  rcases m.run x with ⟨e | a, n⟩
  · simp [Except.map]
  · simp only [Except.map, Prod.mk.injEq, Except.ok.injEq]
    exact ⟨fun ⟨hb, hn⟩ => ⟨a, ⟨rfl, hn⟩, hb⟩, fun ⟨_, ⟨ha, hn⟩, hb⟩ => ⟨ha ▸ hb, hn⟩⟩

theorem passes_firstCall (hp : IsInstrumented reread p)
    (hrequire : ∀ pos params fbody, Stmt.function pos "require" params fbody ∉ p)
    (hm : m.Prepared refusal) {o : Outcome TraceLoom.Outcome}
    (hrun : m.run (Call.step budget p .run) = (.ok o, m')) :
    ∃ identity, m'.Guarded (.instrumented identity) refusal ∧
      (m.plain refusal).run (Call.step budget p .run) = (.ok o, m'.plain refusal) := by
  rw [step_run] at hrun ⊢
  obtain ⟨n, hvalue, houtput, rfl⟩ := run_noting_eq_ok_iff.mp hrun
  obtain ⟨v, hprogram, hv⟩ := run_map_eq_ok_iff.mp hvalue
  obtain ⟨identity, hn, hplain⟩ := passes_run hm hp hrequire hprogram
  exact ⟨identity, ⟨hn.gate, hn.options, hn.store, hn.adapter, hn.tasks, hn.listener⟩,
    run_noting_eq_ok_iff.mpr ⟨_, run_map_eq_ok_iff.mpr ⟨v, hplain, hv⟩, houtput, rfl⟩⟩

theorem passes_nextCall (hp : IsInstrumented reread p)
    (hrequire : ∀ pos params fbody, Stmt.function pos "require" params fbody ∉ p) {identity : Nat}
    (hm : m.Guarded (.instrumented identity) refusal) {c : Call} {o : Outcome TraceLoom.Outcome}
    (hrun : m.run (c.step budget p) = (.ok o, m')) :
    ∃ identity, m'.Guarded (.instrumented identity) refusal ∧
      (m.plain refusal).run (c.step budget p) = (.ok o, m'.plain refusal) := by
  cases c with
  | run => exact passes_firstCall hp hrequire hm.prepared hrun
  | request body =>
      obtain ⟨n, hvalue, houtput, rfl⟩ := run_noting_eq_ok_iff.mp hrun
      obtain ⟨v, hanswer, hv⟩ := run_map_eq_ok_iff.mp hvalue
      obtain ⟨⟨hn, -⟩, hplain⟩ := passes_request budget body m v n hm hanswer
      exact ⟨identity, ⟨hn.gate, hn.options, hn.store, hn.adapter, hn.tasks, hn.listener⟩,
        run_noting_eq_ok_iff.mpr ⟨_, run_map_eq_ok_iff.mpr ⟨v, hplain, hv⟩, houtput, rfl⟩⟩

theorem run_steps_cons_eq_ok_iff {c : Call} {calls : List Call}
    {outcomes : List (Outcome TraceLoom.Outcome)} :
    m.run (steps budget p (c :: calls)) = (.ok outcomes, m') ↔ ∃ o n rest,
      m.run (c.step budget p) = (.ok o, n) ∧ n.run (steps budget p calls) = (.ok rest, m') ∧
        outcomes = o :: rest := by
  rw [steps]
  constructor
  · intro h
    obtain ⟨o, n, hcall, h⟩ := Machine.exists_of_run_bind h
    obtain ⟨rest, k, hrest, h⟩ := Machine.exists_of_run_bind h
    cases h
    exact ⟨o, n, rest, hcall, hrest, rfl⟩
  · rintro ⟨o, n, rest, hcall, hrest, rfl⟩
    rw [Machine.run_bind_of_ok hcall, Machine.run_bind_of_ok hrest]
    rfl

/-- Calls that succeed while only inserted calls of the recorder pass, do so as well if these have
to record plain traces. -/
theorem passes_steps (hp : IsInstrumented reread p)
    (hrequire : ∀ pos params fbody, Stmt.function pos "require" params fbody ∉ p)
    (hm : m.Prepared refusal) {calls : List Call} {outcomes : List (Outcome TraceLoom.Outcome)}
    (hrun : m.run (steps budget p (.run :: calls)) = (.ok outcomes, m')) :
    (m.plain refusal).run (steps budget p (.run :: calls)) = (.ok outcomes, m'.plain refusal) := by
  have hrest {calls : List Call} : ∀ {identity : Nat} {m : Machine}
      {outcomes : List (Outcome TraceLoom.Outcome)},
      m.Guarded (.instrumented identity) refusal →
      m.run (steps budget p calls) = (.ok outcomes, m') →
      (m.plain refusal).run (steps budget p calls) = (.ok outcomes, m'.plain refusal) := by
    induction calls with
    | nil =>
        intro _ _ _ _ hrun
        cases hrun
        rfl
    | cons c calls ih =>
        intro _ _ _ hm hrun
        obtain ⟨o, n, rest, hcall, hcalls, rfl⟩ := run_steps_cons_eq_ok_iff.mp hrun
        obtain ⟨_, hn, hplain⟩ := passes_nextCall hp hrequire hm hcall
        exact run_steps_cons_eq_ok_iff.mpr ⟨o, _, rest, hplain, ih hn hcalls, rfl⟩
  obtain ⟨o, n, rest, hcall, hcalls, rfl⟩ := run_steps_cons_eq_ok_iff.mp hrun
  obtain ⟨_, hn, hplain⟩ := passes_firstCall hp hrequire hm hcall
  exact run_steps_cons_eq_ok_iff.mpr ⟨o, _, rest, hplain, hrest hn hcalls, rfl⟩

end

end Session

/-! ## What is told of them -/

/-- A move that a gate lets through. -/
def Move.PassesBy (g : Gate) : Move → Prop
  | .operation op => g.Lets op
  | .trace => g.Shows
  | _ => True

theorem Terms.Allows.passesBy {T : Terms} {move : Move} (h : T.Allows move) :
    move.PassesBy T.gate := by
  cases move <;> first | exact h | trivial

/-- A step is told by a log, whose moves a gate lets through. -/
structure Recounts {α : Type} (g : Gate) (q : Side) (s : Scene) (x : Running α) (log : Log)
    (s' : Scene) (r : Except EvalError α) (q' : Side) : Prop where
  tells : Tells g q s (fun _ => x) log s' r q'
  passes : ∀ entry ∈ log, entry.1.PassesBy g
  config : q'.config = q.config
  waiting : ∀ i ∈ q'.waiting, i < s'.callbacks.length

/-- A step that begins with certain moves, and whose moves a gate lets through. -/
def Recounted {α : Type} (g : Gate) (q : Side) (s : Scene) (first : Log) (x : Running α) : Prop :=
  ∃ log s' r q', first <+: log ∧ Recounts g q s x log s' r q'

variable {α β : Type} {g : Gate} {q q' : Side} {s s' : Scene} {x : Running α} {budget : Nat}
  {first : Log}

theorem Recounted.bind {f : α → Running β} (hx : Recounted g q s first x)
    (hf : ∀ a q' s', (∀ i ∈ q'.waiting, i < s'.callbacks.length) → Recounted g q' s' [] (f a)) :
    Recounted g q s first (x >>= f) := by
  obtain ⟨log, s', r, q', hfirst, h⟩ := hx
  cases r with
  | error e =>
      refine ⟨log, s', .error e, q', hfirst, h.tells.fails fun _ _ hrun => ?_, h.passes, h.config,
        h.waiting⟩
      rw [Machine.run_bind, hrun]
  | ok a =>
      obtain ⟨log', s'', r', q'', -, h'⟩ := hf a q' s' h.waiting
      exact ⟨log ++ log', s'', r', q'', hfirst.trans (List.prefix_append ..),
        h.tells.andThen h'.tells fun _ _ hrun => Machine.run_bind_of_ok hrun f,
        List.forall_mem_append.mpr ⟨h.passes, h'.passes⟩, h'.config.trans h.config, h'.waiting⟩

/-- A step without moves. -/
theorem recounted_silent {r : Except EvalError α} {p : Side}
    (h : ∀ (t : Scene) (g : Gate), (q.under g t).run x = (r, p.under g t))
    (hconfig : p.config = q.config) (hwaiting : ∀ i ∈ p.waiting, i < s.callbacks.length) :
    Recounted g q s [] x :=
  ⟨[], s, r, p, List.nil_prefix, .silent fun _ _ => h _ _, List.forall_mem_nil _, hconfig, hwaiting⟩

theorem recounted_pure (hwaiting : ∀ i ∈ q.waiting, i < s.callbacks.length) (a : α) :
    Recounted g q s [] (pure a) :=
  recounted_silent (fun _ _ => rfl) rfl hwaiting

/-- A step that keeps to the terms. -/
theorem Accounts.recounted {T : Terms} (hT : T.gate = g) (hconfig : T.config = q.config)
    {Q : α → Side → Prop} (h : Accounts T q s (fun _ => x) Q) : Recounted g q s [] x := by
  obtain ⟨log, s', r, q', haccount, -⟩ := h
  subst hT
  exact ⟨log, s', r, q', List.nil_prefix, haccount.toTells,
    fun entry hentry => (haccount.allowed entry hentry).passesBy,
    haccount.fits.config.trans hconfig, fun i hi => (haccount.fits.waiting i hi).1⟩

theorem recounted_call (hwaiting : ∀ i ∈ q.waiting, i < s.callbacks.length) (call : Call) :
    Recounted g q s [] (call.step budget) := by
  obtain ⟨log, s', r, q', htells, hfits, hconduct⟩ := call.exists_conduct g hwaiting budget
  have hallows {log : Log} (h : ∀ entry ∈ log, (q.terms g s).Allows entry.1) :
      ∀ entry ∈ log, entry.1.PassesBy g := fun entry hentry => (h entry hentry).passesBy
  have hpasses : ∀ entry ∈ log, entry.1.PassesBy g := by
    cases hconduct with
    | reset => exact List.forall_mem_map.mpr fun _ _ => trivial
    | run allowed done => exact hallows allowed
    | unheard => exact List.forall_mem_nil _
    | failed listener allowed =>
        exact List.forall_mem_cons.mpr ⟨trivial, List.forall_mem_cons.mpr ⟨trivial, hallows allowed⟩⟩
    | answered listener allowed done =>
        exact List.forall_mem_cons.mpr ⟨trivial, List.forall_mem_cons.mpr ⟨trivial,
          List.forall_mem_append.mpr ⟨hallows allowed, List.forall_mem_singleton.mpr trivial⟩⟩⟩
  refine ⟨log, s', r, q', List.nil_prefix, htells, hpasses, hfits.config.trans ?_,
    fun i hi => (hfits.waiting i hi).1⟩
  cases call <;> rfl

namespace Session

theorem recounted_noting {x : Running TraceLoom.Outcome} (hx : Recounted g q s first x) :
    Recounted g q s first (noting x) :=
  hx.bind fun _ q' _ hwaiting => (recounted_silent (x := modifyGet Machine.takeLines)
    (r := .ok q'.output.reverse) (p := { q' with output := [] }) (fun _ _ => rfl) rfl hwaiting).bind
    fun _ _ _ hwaiting => recounted_pure hwaiting _

theorem recounted_steps (hwaiting : ∀ i ∈ q.waiting, i < s.callbacks.length) (p : Program)
    (calls : List Call) : Recounted g q s [] (steps budget p calls) := by
  induction calls generalizing q s with
  | nil => exact recounted_pure hwaiting _
  | cons c calls ih =>
      refine Recounted.bind ?_ fun _ q' s' hwaiting => (ih hwaiting).bind
        fun _ q' s' hwaiting => recounted_pure hwaiting _
      cases c with
      | run =>
          have hreset : Recounted g q s [] Machine.reset := by
            obtain ⟨s', hreset⟩ := tells_reset g q s hwaiting
            exact ⟨_, s', _, q.fresh, List.nil_prefix, hreset,
              List.forall_mem_map.mpr fun _ _ => trivial, rfl, nofun⟩
          exact recounted_noting (hreset.bind fun _ q' s' hwaiting => recounted_call hwaiting _)
      | request body => exact recounted_noting (recounted_call hwaiting _)

end Session

/-! ## The start of a trace -/

/-- The statement that starts a trace asks the recorder to. -/
theorem run_newTrace {identity : Nat} {m : Machine} {env : Environment}
    {call : Expr → Value → List Value → Running Value} (happlies : Applies call)
    (hstore : m.store.Reaches (.instrumented identity))
    (hlookup : m.store.lookup? env standard.options.callbacksBinding = some (.object callbacksPlace))
    (hgate : ∀ callee s, m.gate callee (.native (.trace "newTrace")) [] s = .ok ())
    {e : Expr} (hstart : IsRecording "newTrace" [] e) {pos : Position} :
    m.run ((Stmt.expr pos e).exec call env) =
      m.run (Native.record "newTrace" [] >>= fun _ => pure .next) := by
  obtain @⟨cpos, mpos, tpos, npos⟩ := hstart
  have hoperations : callbacksFields.get? "trace" = some (.object operationsPlace) := by
    simp [callbacksFields, Fields.get?, Event.all, Event.name]
  have hnewTrace : operationFields.get? "newTrace" = some (.native (.trace "newTrace")) := by
    rw [operationFields, Fields.get?_map_name _ (by decide)]
  change m.run (((readName env standard.options.callbacksBinding >>= fun v =>
    Running.read fun s => s.property v "trace") >>= _) >>= _) = _
  rw [Machine.run_bind, Machine.run_bind, Machine.run_bind, run_readName hlookup]
  dsimp only
  rw [Machine.run_read, Store.property, hstore.properties_kept callbacksPlace rfl,
    hoperations]
  dsimp only [Option.getD_some]
  rw [Machine.run_bind, Machine.run_read, Store.property,
    hstore.properties_kept operationsPlace rfl, hnewTrace]
  dsimp only [Option.getD_some]
  rw [Machine.run_bind, show m.run (Expr.evalList call env []) = (.ok [], m) from rfl]
  dsimp only
  rw [callMethod, if_pos (show Value.isCallable (.native (.trace "newTrace")) = true from rfl),
    run_call_record happlies m (hgate ..), Machine.run_bind]

/-- A new trace is started wherever that is the reply. -/
theorem perform_restart_of_ok {t : Scene} (h : (t.perform (.operation .restart)).1 = .ok .done)
    {g : Gate} (q : Side) :
    (q.under g t).run (Native.record "newTrace" [] >>= fun _ => pure Flow.next) =
        (.ok .next, q.under g (t.perform (.operation .restart)).2) ∧
      (t.perform (.operation .restart)).2.visits = t.visits := by
  cases hr : t.adapter.recorder with
  | none =>
      have hrefused : t.adapter.run (Adapter.record Operation.restart.perform) =
          (.error .noOpenBlock, t.adapter) := by
        rw [Adapter.record, Adapter.run_bind, Adapter.run_get]
        dsimp only
        rw [hr]
        rfl
      rw [Scene.perform, Scene.ask, hrefused] at h
      cases h
  | some r =>
      rw [Scene.perform, Scene.ask, Adapter.run_record hr] at h ⊢
      rcases hrun : Recording.run Operation.restart.perform r with ⟨e | out, r'⟩
      · rw [hrun] at h
        cases h
      · rw [hrun] at h
        refine ⟨?_, rfl⟩
        rw [Machine.run_bind, run_record _ (by decide), show (q.under g t).adapter = t.adapter from rfl,
          hr]
        dsimp only
        rw [show Operation.ofArguments ⟨"newTrace", [], (q.under g t).store⟩ = .ok .restart from rfl,
          Machine.run_bind, Machine.run_ofExcept]
        dsimp only
        rw [Machine.run_bind, Machine.run_adapting, show (q.under g t).adapter = t.adapter from rfl,
          Adapter.run_record hr, hrun]
        cases out with
        | done | context => rfl
        | args ts => cases h

/-- What is left of a run starts a trace. -/
theorem recounted_remainder {identity : Nat} {env : Environment} {pos : Position} {e : Expr}
    {body : Program} (hg : ∀ callee s, g callee (.native (.trace "newTrace")) [] s = .ok ())
    (hstore : q.store.Reaches (.instrumented identity))
    (hlookup : q.store.lookup? env standard.options.callbacksBinding = some (.object callbacksPlace))
    (hstart : IsRecording "newTrace" [] e)
    (hfirst : (s.perform (.operation .restart)).1 = .ok .done)
    (hwaiting : ∀ i ∈ q.waiting, i < s.callbacks.length) :
    Recounted g q s [(.operation .restart, .ok .done)]
      (remainder budget env (.expr pos e :: body)) := by
  have hmove := Tells.move (g := g) (q := q) (s := s) (p := q) (r := .ok Flow.next)
    (x := fun _ => Native.record "newTrace" [] >>= fun _ => pure Flow.next) (.operation .restart)
    (fun {t g'} _ ht => perform_restart_of_ok (ht.trans hfirst) q) fun _ => by rw [hfirst]; rfl
  rw [hfirst] at hmove
  have hbegin : Tells g q s
      (fun _ => (Stmt.expr pos e).exec (fun callee => callFrom (some callee)) env)
      [(.operation .restart, .ok .done)] (s.perform (.operation .restart)).2 (.ok Flow.next) q := by
    refine ⟨hmove.leads, fun {t t' g'} hlevel hleads hserves => ?_, hmove.strict⟩
    rw [run_newTrace applies_callFrom hstore hlookup ?_ hstart]
    · exact hmove.run hlevel hleads hserves
    · intro callee s
      rcases hserves with rfl | ⟨-, hwithin⟩
      · exact hg callee s
      · exact hwithin _ _ _ _ (hg callee s)
  have hwaiting' : ∀ i ∈ q.waiting, i < (s.perform (.operation .restart)).2.callbacks.length :=
    fun i hi => Nat.lt_of_lt_of_le (hwaiting i hi)
      (s.leads_perform (.operation .restart)).callbacks_isPrefix.length_le
  have hfits {q : Side} {s : Scene} (hwaiting : ∀ i ∈ q.waiting, i < s.callbacks.length) :
      (q.terms g s).Fits q s := Side.fits_terms g List.prefix_rfl hwaiting
  have hrest : Recounted g q (s.perform (.operation .restart)).2 [] (remainder budget env body) := by
    refine Recounted.bind (Accounts.recounted rfl rfl ((pervasive_keeps (q.terms g _)).execList
      (pervasive_keeps _).callsWithin_callFrom env body (Stmt.properList_all body) q _
      (hfits hwaiting'))) fun flow q₁ s₁ hwaiting₁ => ?_
    have htop : Recounted g q₁ s₁ [] (topValue flow) := by
      cases flow with
      | next | returnWith v => exact recounted_pure hwaiting₁ _
      | breakTo label =>
          exact recounted_silent (r := .error (.labelNotOpen (labelText label))) (fun _ _ => rfl) rfl
            hwaiting₁
    exact htop.bind fun v q₂ s₂ hwaiting₂ =>
      (accounts_drain (hfits hwaiting₂) budget budget).recounted rfl rfl |>.bind
        fun _ q₃ s₃ hwaiting₃ => recounted_pure hwaiting₃ v
  obtain ⟨log, s', r, q', -, h⟩ := hrest
  refine ⟨(.operation .restart, .ok .done) :: log, s', r, q', ⟨log, rfl⟩,
    hbegin.andThen h.tells fun _ _ hrun => ?_, List.forall_mem_cons.mpr ⟨?_, h.passes⟩, h.config,
    h.waiting⟩
  · rw [remainder, remainder, Machine.run_bind, Machine.run_bind, run_execList_cons hrun]
  · exact ⟨none, "newTrace", [], Store.empty, hg _ _, by decide, rfl⟩

theorem plainGate_newTrace (refusal : EvalError) (callee : Option Expr) (s : Store) :
    plainGate refusal callee (.native (.trace "newTrace")) [] s = .ok () := by
  rw [plainGate, if_neg (by decide)]
  exact if_pos (List.forall_mem_nil _)

namespace Session

/-- A run of new variables, and calls after it. -/
def opening (budget : Nat) (p : Program) (calls : List Call) :
    Running (List (Outcome TraceLoom.Outcome)) := do
  let outcome ← noting ((TraceLoom.Call.run p).step budget)
  let outcomes ← steps budget p calls
  return outcome :: outcomes

theorem run_steps_run {m n : Machine} (h : m.run Machine.reset = (.ok (), n)) (p : Program)
    (calls : List Call) : m.run (steps budget p (.run :: calls)) = n.run (opening budget p calls) := by
  have hstep : m.run (Call.step budget p .run) = n.run (noting ((TraceLoom.Call.run p).step budget)) := by
    rw [Call.step, run_noting, run_noting, Machine.run_bind_of_ok h]
  rw [steps, opening, Machine.run_bind, Machine.run_bind, hstep]

/-- A session of an instrumented program begins with a new trace. -/
theorem recounted_opening (budget : Nat) {config : Config}
    (hconfig : config.instrument = standard.options) (refusal : EvalError)
    (hfirst : (s.perform (.operation .restart)).1 = .ok .done) {p : Program}
    (hp : IsInstrumented reread p)
    (hrequire : ∀ pos params fbody, Stmt.function pos "require" params fbody ∉ p)
    (calls : List Call) :
    Recounted (plainGate refusal) (.new config) s [(.operation .restart, .ok .done)]
      (opening budget p calls) := by
  obtain ⟨t, identity, pos, e, body, ht, hlookup, hstart, -, hmodules⟩ :=
    exists_modules hp hrequire budget
  have hremainder : Recounted (plainGate refusal) { Side.new config with store := t } s
      [(.operation .restart, .ok .done)]
      (remainder budget Store.empty.newGlobals.1 (.expr pos e :: body)) :=
    recounted_remainder (plainGate_newTrace refusal) ht hlookup hstart hfirst nofun
  obtain ⟨log, s', r, q', hlog, h⟩ := hremainder
  have hrun : Recounted (plainGate refusal) (.new config) s [(.operation .restart, .ok .done)]
      (Machine.runProgram budget p) := by
    refine ⟨log, s', r, q', hlog, ⟨h.tells.leads, fun {t₁ t₂ g'} hlevel hleads hserves => ?_,
      h.tells.strict⟩, h.passes, h.config, h.waiting⟩
    rw [hmodules _ rfl rfl hconfig fun callee args s => ?_]
    · exact h.tells.run hlevel hleads hserves
    · rcases hserves with rfl | ⟨-, hwithin⟩
      · rfl
      · exact hwithin _ _ _ _ rfl
  have hcall : Recounted (plainGate refusal) (.new config) s [(.operation .restart, .ok .done)]
      ((TraceLoom.Call.run p).step budget) := by
    rw [TraceLoom.Call.step, map_eq_pure_bind]
    exact hrun.bind fun _ _ _ hwaiting => recounted_pure hwaiting _
  exact (recounted_noting hcall).bind fun _ _ _ hwaiting => (recounted_steps hwaiting p calls).bind
    fun _ _ _ hwaiting => recounted_pure hwaiting _

end Session

/-! ## Once more -/

theorem planned_of_ofArguments {a : Arguments} {op : Operation} (h : Operation.ofArguments a = .ok op)
    (c : Context) : (op.plan? c).isSome = true := by
  unfold Operation.ofArguments at h
  split at h
  case h_1 | h_2 | h_9 | h_15 =>
    cases h
    rfl
  case h_6 | h_7 | h_8 | h_10 | h_14 =>
    obtain ⟨_, -, ⟨⟩⟩ := exists_of_bind h
    rfl
  case h_16 => cases h
  all_goals
    obtain ⟨_, -, h⟩ := exists_of_bind h
    obtain ⟨_, -, ⟨⟩⟩ := exists_of_bind h
    rfl

theorem Move.PassesBy.isPlain {refusal : EvalError} {move : Move}
    (h : move.PassesBy (plainGate refusal)) : move.IsPlain := by
  cases move with
  | operation op =>
      obtain ⟨callee, name, args, s, hgate, hname, hop⟩ := h
      rw [plainGate, if_neg hname, hop] at hgate
      dsimp only at hgate
      split at hgate
      · exact ⟨‹_›, planned_of_ofArguments hop⟩
      · cases hgate
  | trace =>
      obtain ⟨callee, args, s, hgate⟩ := h
      cases hgate
  | _ => trivial

/-- What is told of a step that only records plain traces, and succeeds, can be told again. -/
theorem Recounts.isPlain {refusal : EvalError} {a : α} {log : Log}
    (h : Recounts (plainGate refusal) q s x log s' (.ok a) q') : log.IsPlain :=
  fun entry hentry => ⟨(h.passes entry hentry).isPlain, h.tells.strict rfl entry hentry⟩

namespace Scene

/-- Giving up callbacks leaves the trace as it is. -/
theorem Leads.root_of_discards {s t : Scene} {is : List Nat}
    (his : ∀ i ∈ is, i < s.callbacks.length) (h : s.Leads (discards is) t) {r : Recorder}
    (hr : s.adapter.recorder = some r) : ∃ r', t.adapter.recorder = some r' ∧ r'.root = r.root := by
  induction is generalizing s r with
  | nil =>
      obtain rfl : t = s := h
      exact ⟨r, hr, rfl⟩
  | cons i is ih =>
      obtain ⟨hi, his⟩ := List.forall_mem_cons.mp his
      obtain ⟨-, hrest⟩ := h
      rw [perform_discard hi] at hrest
      cases hid : (s.callback i).context with
      | some id =>
          rw [Adapter.run_discard hr hid] at hrest
          obtain ⟨r', hr', hroot⟩ := ih (s := { s with adapter := { s.adapter with
            recorder := some (Recording.run (Recorder.release id) r).2 } }) his hrest rfl
          exact ⟨r', hr', hroot.trans (Operation.root_release id r)⟩
      | none =>
          have hrun : s.adapter.run (Adapter.discard (s.callback i)) = (.ok (), s.adapter) := by
            rw [Adapter.discard, Adapter.run_bind, Adapter.run_get]
            dsimp only
            rw [hr, hid]
            rfl
          rw [hrun] at hrest
          exact ih his hrest hr

theorem isPlain_discards (is : List Nat) : (discards is).IsPlain :=
  List.forall_mem_map.mpr fun _ _ => ⟨trivial, rfl⟩

end Scene

/-- What is told of a step that succeeds holds as well where every call passes. -/
theorem serves_open (g : Gate) (config : Config) (a : Adapter) (v : α) :
    g.Serves (.ok v) (Machine.new config a).gate :=
  .inr ⟨rfl, fun _ _ _ _ _ => rfl⟩

/-- What a step asks of a new adapter, it can ask of it again when it is done.  The step comes to
the same, and the trace stays as it is. -/
theorem Recounts.again {refusal : EvalError} {config : Config} {network : Network} {log : Log} {a : α}
    (h : Recounts (plainGate refusal) (.new config) (.new (.new (some .new) network)) x log s' (.ok a)
      q') (hfirst : log.head? = some (.operation .restart, .ok .done)) {t : Scene}
    (ht : s'.Leads (discards q'.waiting) t) :
    ∃ (r b b' : Recorder) (t' : Scene), s'.adapter.recorder = some r ∧ b.root = r.root ∧
      (Machine.new config t.adapter).run x = (.ok a, q'.under (Machine.new config t.adapter).gate t') ∧
      t'.adapter.recorder = some b' ∧ b'.root = b.root := by
  have hplain := h.isPlain
  obtain ⟨r, hr, -⟩ := Scene.inUse_new.leads (m := 0) (k := 0) hplain h.tells.leads
  have hall : Log.IsPlain (log ++ discards q'.waiting) :=
    List.forall_mem_append.mpr ⟨hplain, Scene.isPlain_discards _⟩
  have hleads : (Scene.new (.new (some .new) network)).Leads (log ++ discards q'.waiting) t :=
    Scene.leads_append.mpr ⟨s', h.tells.leads, ht⟩
  obtain ⟨b, hb, -⟩ := Scene.inUse_new.leads (m := 0) (k := 0) hall hleads
  have hpoised := Scene.poised_new.leads Scene.inUse_new hall hleads
  obtain ⟨b₁, hb₁, hroot⟩ := ht.root_of_discards h.waiting hr.recorder
  obtain rfl : b = b₁ := Option.some.inj (hb.recorder.symm.trans hb₁)
  -- nothing runs any more, so what is active is the program's own context
  have hvisits : t.visits = [] :=
    ((run_discards (g := plainGate refusal) (Side.new config) h.waiting ht).2).trans
      (h.tells.run (.refl _) h.tells.leads (.inl rfl)).2
  have hwhere : t.adapter.whereabouts = Scene.outside :=
    (Scene.home_of_visits_eq_nil hvisits).symm.trans hpoised.home
  have hready : b.Ready := by
    refine ⟨hb.usable.sound, hb.usable.failure, ?_⟩
    have hactive := congrArg Prod.fst hwhere
    rw [Adapter.whereabouts, hb.recorder] at hactive
    exact Option.some.inj hactive
  obtain ⟨t', b', hagain, hb', hroot'⟩ := Scene.leads_again hplain hfirst h.tells.leads hr.recorder
    hb.recorder hready ⟨hwhere, hpoised.pending, hpoised.responses⟩ hleads.routes
    (by rw [hroot]; exact .refl hr.usable.sound.tidy.wellFormed)
  have hlevel : (Scene.new (.new (some .new) network)).Level (.new t.adapter) := ⟨rfl, rfl⟩
  obtain ⟨hrun, -⟩ := h.tells.run hlevel hagain (serves_open _ config t.adapter a)
  exact ⟨r, b, b', t', hr.recorder, hroot, hrun, hb', hroot'⟩

theorem Recorder.inUse_new : Recorder.new.InUse 0 :=
  ⟨sound_new, plainPending_new, rfl, Nat.zero_le _, own_rootContext⟩

theorem Machine.prepared_new (refusal : EvalError) {config : Config}
    (hconfig : config.instrument = standard.options) (network : Network) :
    Machine.Prepared refusal
      { Machine.new config (.new (some .new) network) with gate := recorderGate refusal } where
  gate := rfl
  options := hconfig
  adapter := ⟨.new, rfl, Recorder.inUse_new⟩
  tasks _ htask := absurd htask List.not_mem_nil
  listener _ hl := absurd hl (Option.not_mem_none _)

theorem Side.run_reset_new (config : Config) (g : Gate) (a : Adapter) :
    ((Side.new config).under g (.new a)).run Machine.reset =
      (.ok (), (Side.new config).under g (.new a)) := rfl

namespace Session

variable {network : Network} {p : Program} {calls : List Call}
  {outcomes : List (Outcome TraceLoom.Outcome)}

/-- A program that has its modules does the same once more. -/
theorem run_steps_again {config : Config} (hconfig : config.instrument = standard.options)
    (hp : IsInstrumented reread p)
    (hrequire : ∀ pos params fbody, Stmt.function pos "require" params fbody ∉ p)
    {refusal : EvalError} {m n : Machine}
    (hrun : (Machine.new config (.new (some .new) network)).run (steps budget p (.run :: calls)) =
      (.ok outcomes, m))
    (hguarded : Machine.run
      { Machine.new config (.new (some .new) network) with gate := recorderGate refusal }
      (steps budget p (.run :: calls)) = (.ok outcomes, n)) (houtput : m.output = []) :
    ∃ (m' : Machine) (r r' : Recorder), m.run (steps budget p (.run :: calls)) = (.ok outcomes, m') ∧
      m.adapter.recorder = some r ∧ m'.adapter.recorder = some r' ∧ r'.root = r.root := by
  have hreset (g : Gate) : ((Side.new config).under g (.new (.new (some .new) network))).run
      (steps budget p (.run :: calls)) = ((Side.new config).under g (.new (.new (some .new) network))).run
        (opening budget p calls) := run_steps_run (Side.run_reset_new config g _) p calls
  have hplain := passes_steps hp hrequire (Machine.prepared_new refusal hconfig network) hguarded
  obtain ⟨log, s', r, q', hfirst, h⟩ := recounted_opening budget
    (s := .new (.new (some .new) network)) hconfig refusal
    (by rw [Scene.perform_restart rfl Recorder.ready_new]) hp hrequire calls
  -- the first pass, as it would be if only plain traces could be recorded
  obtain ⟨hplain', -⟩ := h.tells.run (.refl _) h.tells.leads (.inl rfl)
  obtain rfl : r = .ok outcomes :=
    congrArg Prod.fst (hplain'.symm.trans ((hreset (plainGate refusal)).symm.trans hplain))
  obtain ⟨hopen, -⟩ := h.tells.run (.refl _) h.tells.leads
    (serves_open _ config (.new (some .new) network) outcomes)
  obtain rfl : m = q'.under _ s' :=
    congrArg Prod.snd (hrun.symm.trans ((hreset _).trans hopen))
  -- the second one, which first gives up what waits
  obtain ⟨t, ht⟩ := tells_reset (Machine.new config (.new (some .new) network)).gate q' s' h.waiting
  have hfresh : q'.fresh = .new config := by
    rw [Side.fresh, Side.new, h.config, show q'.output = [] from houtput]
    rfl
  obtain ⟨r, b, b', t', hr, hroot, hagain, hb', hroot'⟩ := h.again (by
    obtain ⟨rest, rfl⟩ := hfirst
    rfl) ht.leads
  obtain ⟨hclear, -⟩ := ht.run (.refl _) ht.leads (.inl rfl)
  rw [hfresh] at hclear
  refine ⟨_, r, b', (run_steps_run hclear p calls).trans hagain, hr, hb', hroot'.trans hroot⟩

variable {s : Session}

/-- The session in which only inserted calls of the recorder pass. -/
def guarded (s : Session) (refusal : EvalError) : Session :=
  { s with machine := { s.machine with gate := recorderGate refusal } }

/-- Only inserted code calls operations of the recorder: it makes no difference when every other
call of them is answered with an error of the recorder. -/
def RecordsByInsertion (s : Session) (budget : Nat) (calls : List Call) : Prop :=
  ∃ t, ((s.guarded (.trace t)).callAll budget calls).1 = (s.callAll budget calls).1

/-- The calls succeed once more, with the same outcomes, and the trace stays as it is. -/
def Repeats (s : Session) (budget : Nat) (calls : List Call)
    (outcomes : List (Outcome TraceLoom.Outcome)) : Prop :=
  (s.callAll budget calls).1 = .ok outcomes ∧ (s.callAll budget calls).2.trace = s.trace

theorem repeats_of_instrumented {config : Config} (hconfig : config.instrument = standard.options)
    (hmachine : s.machine = .new config (.new (some .new) network))
    (hp : IsInstrumented reread s.program)
    (hrequire : ∀ pos params fbody, Stmt.function pos "require" params fbody ∉ s.program)
    (hok : (s.callAll budget (.run :: calls)).1 = .ok outcomes)
    (hinserted : s.RecordsByInsertion budget (.run :: calls)) :
    (s.callAll budget (.run :: calls)).2.Repeats budget (.run :: calls) outcomes := by
  obtain ⟨t, hinserted⟩ := hinserted
  rw [hok] at hinserted
  have hidle : (s.callAll budget (.run :: calls)).2.Idle :=
    idle_callAll ⟨by rw [hmachine]; rfl, by rw [hmachine]; rfl⟩ hok
  obtain ⟨hresult, hmachine', hprogram⟩ := s.callAll_eq budget (.run :: calls)
  obtain ⟨hguarded, -, -⟩ := (s.guarded (.trace t)).callAll_eq budget (.run :: calls)
  rw [hinserted, guarded, hmachine] at hguarded
  rw [hok, hmachine] at hresult
  rw [hmachine] at hmachine'
  generalize (s.callAll budget (.run :: calls)).2 = s' at hidle hmachine' hprogram ⊢
  have hfirst : (Machine.new config (.new (some .new) network)).run
      (steps budget s.program (.run :: calls)) = (.ok outcomes, s'.machine) :=
    Prod.ext hresult.symm hmachine'.symm
  obtain ⟨m, r, r', hagain, hr, hr', hroot⟩ := run_steps_again hconfig hp hrequire hfirst
    (Prod.ext hguarded.symm rfl) hidle.output
  obtain ⟨hresult', hmachine'', -⟩ := s'.callAll_eq budget (.run :: calls)
  rw [hprogram, hagain] at hresult' hmachine''
  refine ⟨hresult', ?_⟩
  rw [trace, trace, recorder, recorder, hmachine'', hr', hr]
  exact congrArg (fun root => some (Trace.block root)) hroot

end Session

end TraceLoom
