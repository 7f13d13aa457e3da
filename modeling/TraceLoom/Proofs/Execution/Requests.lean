import TraceLoom.Execution.Run
import TraceLoom.Proofs.Execution.Programs

/-!
Requests and waiting callbacks.  Between two of them both machines rest: no callback runs, and the
recorder is in the context of the program itself.
-/

namespace TraceLoom

open Script Instrument Running

variable {P : Expectation} {W W' : World} {m m' n n' : Machine} {env env' : Environment}

/-! ## Machines at rest -/

/-- The recorder is in the context of the program itself. -/
def Machine.AtRoot (m : Machine) : Prop :=
  ∃ r, m.adapter.recorder = some r ∧ r.active = Recorder.rootContext

theorem Machine.AtRoot.stays {held : List ContextId} (h : m.AtRoot) (hstays : m.Stays held n) :
    n.AtRoot := by
  obtain ⟨r, hr, hactive⟩ := h
  obtain ⟨r', hr', hholds, -⟩ := hstays r hr
  exact ⟨r', hr', hholds.active.trans hactive⟩

/-- Corresponding machines between the callbacks that they run. -/
structure Resting (P : Expectation) (W : World) (m m' : Machine) : Prop where
  rel : MachineRel P W m m'
  ready : W.Ready
  held : W.held = []
  root : m'.AtRoot

theorem Resting.next (h : Resting P W m m') (hle : W ≤ W') (hrel : MachineRel P W' n n')
    (hstays : m'.Stays W.held n') : Resting P W' n n' :=
  ⟨hrel, h.ready.mono hle, hle.held.trans h.held, h.root.stays hstays⟩

/-- The context of a callback can be entered while the machines rest. -/
theorem Resting.enterable (h : Resting P W m m') {id : ContextId} {isRepeating : Bool}
    (hadapter : n'.adapter.recorder = m'.adapter.recorder) (hid : id ∈ m'.registered)
    (hreleased : isRepeating = false → id ∉ n'.registered) : Enterable W n' isRepeating id := by
  obtain ⟨r, hr, htracks⟩ := h.rel.tracks
  obtain ⟨_, hr₁, hactive⟩ := h.root
  obtain rfl := Option.some.inj (hr.symm.trans hr₁)
  have hroot : id ≠ Recorder.rootContext := fun heq => htracks.root (heq ▸ hid)
  refine ⟨hroot, by simp [h.held], hreleased, fun r' hr' => ?_⟩
  obtain rfl := Option.some.inj (hr.symm.trans (hadapter ▸ hr'))
  exact ⟨fun heq => hroot (heq.trans hactive), htracks.live id (List.mem_append_left _ hid)⟩

/-- A callback is called with an argument, and the machines rest again. -/
theorem sim_callback (hrel : MachineRel P W m m') (hW : W.Ready) {x y : Registration}
    (hxy : RegistrationRel x y) {id : ContextId} (hid : y.context = some id)
    (henterable : Enterable W m' y.event.isRepeating id) (conversation : Option ConversationId)
    {callback callback' arg arg' : Value} (hcallback : ValueRel P W callback callback')
    (harg : ValueRel P W arg arg') :
    Sim P W m m' (fire x conversation (call callback [arg]))
      (fire y conversation (call callback' [arg'])) fun _ _ _ _ => True := by
  refine (sim_fire hrel hxy hid henterable conversation fun {n n' previous} hrel₁ hopen => ?_).imp
    fun _ _ => trivial
  refine (sim_callFrom hrel₁ (hW.withHeld _) hopen rfl (hcallback.withHeld _)
    (.cons (harg.withHeld _) .nil)).imp fun _ hreturned hstrict => ?_
  exact (hreturned.2 hstrict).ne_nil

/-! ## Waiting callbacks -/

/-- The first callback leaves the queue. -/
theorem Resting.dequeue (h : Resting P W m m') {task task' : Task} {tasks tasks' : Queue Task}
    (hm : m.tasks.toList = task :: tasks.toList) (hm' : m'.tasks.toList = task' :: tasks'.toList) :
    ∃ id, TaskRel P W task task' ∧ task'.registration.context = some id ∧
      Resting P W { m with tasks } { m' with tasks := tasks' } ∧
      Enterable W { m' with tasks := tasks' } task'.registration.event.isRepeating id := by
  have htasks := h.rel.tasks
  rw [hm, hm'] at htasks
  obtain ⟨htask, hrest⟩ := List.forall₂_cons.mp htasks
  obtain ⟨id, hid⟩ := Option.isSome_iff_exists.mp htask.registration.context
  have hregistered : m'.registered = id :: Machine.registered { m' with tasks := tasks' } := by
    simp [Machine.registered, hm', hid]
  obtain ⟨r, hr, htracks⟩ := h.rel.tracks
  rw [hregistered] at htracks
  obtain ⟨hfresh, hdistinct⟩ := List.nodup_cons.mp htracks.distinct
  have hrel : MachineRel P W { m with tasks } { m' with tasks := tasks' } :=
    { h.rel with
      tracks := ⟨r, hr, htracks.sound, htracks.pending, hdistinct,
        fun hroot => htracks.root (List.mem_cons_of_mem _ hroot),
        fun other hother => htracks.live other (List.mem_cons_of_mem _ hother)⟩
      tasks := hrest }
  exact ⟨id, htask, hid, ⟨hrel, h.ready, h.held, h.root⟩,
    h.enterable rfl (hregistered ▸ List.mem_cons_self) fun _ => hfresh⟩

theorem stays_dequeue {tasks : Queue Task} {task : Task} {held : List ContextId}
    (h : m'.tasks.toList = task :: tasks.toList) :
    m'.Stays held { m' with tasks } := by
  intro r hr
  refine ⟨r, hr, .refl r, fun id _ hid => ?_⟩
  simp only [Machine.registered, h, List.mem_append, List.mem_filterMap] at hid ⊢
  rcases hid with ⟨other, hother, hid⟩ | hlistener
  · exact .inl ⟨other, List.mem_cons_of_mem _ hother, hid⟩
  · exact .inr hlistener

/-- Callbacks wait on both sides, or on neither. -/
theorem MachineRel.pop?_tasks (hrel : MachineRel P W m m') :
    (m.tasks.pop? = none ∧ m'.tasks.pop? = none) ∨
      ∃ first first', m.tasks.pop? = some first ∧ m'.tasks.pop? = some first' := by
  have hlength := hrel.tasks.length_eq
  cases hm : m.tasks.pop? with
  | none =>
      rw [Queue.pop?_eq_none_iff.mp hm] at hlength
      exact .inl ⟨rfl, Queue.pop?_eq_none_iff.mpr (List.length_eq_zero_iff.mp hlength.symm)⟩
  | some first =>
      cases hm' : m'.tasks.pop? with
      | none =>
          rw [Queue.pop?_eq_none_iff.mp hm', Queue.toList_of_pop? hm] at hlength
          cases hlength
      | some first' => exact .inr ⟨first, first', rfl, rfl⟩

/-- Both machines run the callbacks that wait, in order, and those that these queue. -/
theorem sim_drain (limit remaining : Nat) (h : Resting P W m m') :
    Sim P W m m' (Running.drain limit remaining) (Running.drain limit remaining)
      fun _ _ _ _ => True := by
  induction remaining generalizing W m m' with
  | zero =>
      refine .get_bind ?_
      obtain ⟨hm, hm'⟩ | ⟨_, _, hm, hm'⟩ := h.rel.pop?_tasks
      · rw [hm, hm']
        exact .pure h.rel trivial
      · rw [hm, hm']
        exact .throw h.rel nofun
  | succ remaining ih =>
      refine .get_bind ?_
      obtain ⟨hm, hm'⟩ | ⟨⟨task, tasks⟩, ⟨task', tasks'⟩, hm, hm'⟩ := h.rel.pop?_tasks
      · rw [hm, hm']
        exact .pure h.rel trivial
      · rw [hm, hm']
        have htasks' := Queue.toList_of_pop? hm'
        obtain ⟨id, htask, hid, hresting, henterable⟩ := h.dequeue (Queue.toList_of_pop? hm) htasks'
        refine .of_stays (m.run_bind _ _) (m'.run_bind _ _) (stays_dequeue htasks') ?_
        refine (sim_callback hresting.rel hresting.ready htask.registration hid henterable none
          htask.callback htask.arg).bind fun hle hrel hstays _ => ?_
        exact ih (hresting.next hle hrel hstays)

/-! ## Programs -/

/-- A program and the instrumented program have the same result, also of what they queue. -/
theorem sim_runProgram (budget : Nat) {p q : Program} (hrel : MachineRel P W m m')
    (hheld : W.held = []) (hroot : m'.AtRoot)
    (hrequire : m'.store.lookup? m'.globals "require" = some (.native .require))
    (hfits : P.Fits p) (hdeclared : "require" ∉ declaredIn p)
    (hinstrument : instrument .default .default p = .ok q) :
    ∃ W₁, W ≤ W₁ ∧ W₁.Ready ∧
      Sim P W₁ m m' (Machine.runProgram budget p) (Machine.runProgram budget q)
        fun _ v v' _ => v' = v := by
  obtain ⟨W₁, hle, hready, hsim⟩ := sim_program hrel hrequire hfits hdeclared hinstrument
  refine ⟨W₁, hle, hready, .get_bind (hsim.bind ?_)⟩
  rintro W₂ n n' _ _ hle₂ hrel₂ hstays ⟨rfl, rfl⟩
  have hresting : Resting P W₂ n n' := ⟨hrel₂, hready.mono hle₂,
    hle₂.held.trans (hle.held.trans hheld), hroot.stays hstays⟩
  exact (sim_drain budget budget hresting).bind fun _ hrel₃ _ _ => .pure hrel₃ rfl

/-! ## Requests -/

/-- What does not concern the recorder is done alike. -/
theorem sim_adapter {α : Type} (f : Adapter → α × Adapter)
    (hf : ∀ a : Adapter, f { a with recorder := none } = ((f a).1, { (f a).2 with recorder := none }))
    (hrecorder : ∀ a : Adapter, (f a).2.recorder = a.recorder) (hrel : MachineRel P W m m') :
    Sim P W m m' (modifyGet fun m => ((f m.adapter).1, { m with adapter := (f m.adapter).2 }))
      (modifyGet fun m => ((f m.adapter).1, { m with adapter := (f m.adapter).2 }))
      fun W' a b n' => W' = W ∧ b = a ∧ n' = { m' with adapter := (f m'.adapter).2 } := by
  have hleft : f m.adapter = ((f m'.adapter).1, { (f m'.adapter).2 with recorder := none }) := by
    rw [hrel.adapter, hf]
  have htracks : ∃ r, (f m'.adapter).2.recorder = some r ∧ r.Tracks m'.registered W.held := by
    rw [hrecorder]
    exact hrel.tracks
  have hrel' : MachineRel P (W.withHeld W.held) { m with adapter := (f m.adapter).2 }
      { m' with adapter := (f m'.adapter).2 } := hrel.withAdapters (by rw [hleft]) htracks
  exact .ok (m.run_modifyGet _) (m'.run_modifyGet _) (World.le_refl W) hrel'
    (fun r hr => ⟨r, (hrecorder _).trans hr, .refl r, fun _ _ hid => hid⟩)
    ⟨rfl, by rw [hleft], rfl⟩

/-- A request has the same answer on both sides. -/
theorem sim_request (budget : Nat) (body : Json) (h : Resting P W m m') :
    Sim P W m m' (Machine.request budget body) (Machine.request budget body)
      fun _ answer answer' _ => answer' = answer := by
  refine .get_bind ?_
  have hlistener := h.rel.listener
  generalize hm : m.listener = x, hm' : m'.listener = y at hlistener
  cases hlistener with
  | none => exact .throw h.rel nofun
  | some hxy =>
      rename_i listener listener'
      obtain ⟨id, hid⟩ := Option.isSome_iff_exists.mp hxy.registration.context
      have hmem : id ∈ m'.registered := by simp [Machine.registered, hm', hid]
      have henterable : Enterable W m' listener'.registration.event.isRepeating id := by
        rw [hxy.event]
        refine h.enterable rfl hmem fun hreleased => ?_
        cases hreleased
      refine (sim_adapter Adapter.openConversation (fun _ => rfl) (fun _ => rfl) h.rel).bind ?_
      rintro W₁ n n' _ conversation hle hrel hstays ⟨rfl, rfl, hn'⟩
      refine (Sim.make hrel (hrel.store.ofJson body)).bind ?_
      rintro W₂ k k' arg arg' hle₂ hrel₂ hstays₂ ⟨harg, hk'⟩
      have henterable₂ := henterable.keep (n := k') hle₂ (by rw [hk', hn']; rfl) (by rw [hk', hn']; rfl)
      refine (sim_callback hrel₂ (h.ready.mono hle₂) hxy.registration hid henterable₂ _
        (hxy.callback.mono hle₂) harg).bind fun {W₃ l l' _ _} hle₃ hrel₃ hstays₃ _ => ?_
      have hresting := ((h.next hle hrel hstays).next hle₂ hrel₂ hstays₂).next hle₃ hrel₃ hstays₃
      refine (sim_drain budget budget hresting).bind fun _ hrel₄ _ _ => ?_
      exact (sim_adapter (fun a => a.takeResponse conversation) (fun _ => rfl) (fun _ => rfl)
        hrel₄).imp fun _ hanswer => hanswer.2.1

end TraceLoom
