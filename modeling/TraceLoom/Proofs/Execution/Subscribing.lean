import TraceLoom.Proofs.Execution.Registering

/-!
What becomes of a registered callback: it is queued, listens, runs at once with an answer, or is
given up.  With that, every native function that a program calls means the same on both sides.
-/

namespace TraceLoom

open Script Instrument Running

variable {P : Expectation} {W W' : World} {m m' n n' : Machine} {s t : Store} {id : ContextId}

/-! ## A context at hand -/

namespace Recorder

variable {callbacks more held : List ContextId} {r : Recorder}

/-- One more callback waits. -/
theorem Tracks.insert (h : r.Tracks (callbacks ++ more) held) (hroot : id ≠ rootContext)
    (hid : id ∉ callbacks ++ more) (hlive : ∃ c, r.context? id = some c) :
    r.Tracks (callbacks ++ id :: more) held := by
  have hmem {other : ContextId} :
      other ∈ callbacks ++ id :: more ↔ other = id ∨ other ∈ callbacks ++ more := by
    simp only [List.mem_append, List.mem_cons]
    tauto
  refine ⟨h.sound, h.pending, List.nodup_middle.mpr (List.nodup_cons.mpr ⟨hid, h.distinct⟩),
    fun hmore => ?_, fun other hother => ?_⟩
  · rcases hmem.mp hmore with heq | hold
    · exact hroot heq.symm
    · exact h.root hold
  · rcases List.mem_append.mp hother with hcallback | hheld
    · rcases hmem.mp hcallback with rfl | hold
      · exact hlive
      · exact h.live other (List.mem_append_left _ hold)
    · exact h.live other (List.mem_append_right _ hheld)

theorem frames_without (hactive : id ≠ r.active) : (r.without id).frames = r.frames := by
  rw [frames, frames, context?_without, if_neg]
  · rfl
  · exact hactive.symm

end Recorder

theorem Enterable.keep {isRepeating : Bool} (h : Enterable W m isRepeating id) (hle : W ≤ W')
    (hrecorder : n.adapter.recorder = m.adapter.recorder) (hregistered : n.registered = m.registered) :
    Enterable W' n isRepeating id :=
  ⟨h.root, hle.held ▸ h.held, fun hrepeating => hregistered ▸ h.released hrepeating,
    fun r hr => h.live r (hrecorder ▸ hr)⟩

/-- A callback has been registered; its context is at hand. -/
structure Waiting (P : Expectation) (m : Machine) (id : ContextId) (W : World) (n : Machine) :
    Prop where
  frames : P.strict → Advances m.frames n.frames
  enterable : Enterable W n false id

theorem Waiting.keep {k : Machine} (h : Waiting P m id W n) (hle : W ≤ W')
    (hrecorder : k.adapter.recorder = n.adapter.recorder) (hregistered : k.registered = n.registered) :
    Waiting P m id W' k := by
  have hframes : k.frames = n.frames := by rw [Machine.frames, Machine.frames, hrecorder]
  exact ⟨fun hstrict => hframes ▸ h.frames hstrict, h.enterable.keep hle hrecorder hregistered⟩

/-- One more callback waits in the first machine and in the second one. -/
theorem MachineRel.insert (hrel : MachineRel P W m m') (hid : Enterable W m' false id)
    {before after : List ContextId} (hbefore : m'.registered = before ++ after)
    {tasks tasks' : Queue Task} {listener listener' : Option Listener}
    (htasks : List.Forall₂ (TaskRel P W) tasks.toList tasks'.toList)
    (hlistener : Option.Rel (ListenerRel P W) listener listener')
    (hafter : Machine.registered { m' with tasks := tasks', listener := listener' } =
      before ++ id :: after) :
    MachineRel P W { m with tasks, listener } { m' with tasks := tasks', listener := listener' } ∧
      m'.Stays W.held { m' with tasks := tasks', listener := listener' } := by
  obtain ⟨r, hr, htracks⟩ := hrel.tracks
  obtain ⟨hne, hlive⟩ := hid.live r hr
  have hreleased : id ∉ before ++ after := hbefore ▸ hid.released rfl
  rw [hbefore] at htracks
  refine ⟨{ hrel with
    tracks := ⟨r, hr, hafter ▸ htracks.insert hid.root hreleased hlive⟩
    tasks := htasks
    listener := hlistener }, fun r' hr' => ?_⟩
  obtain rfl := Option.some.inj (hr.symm.trans hr')
  refine ⟨r, hr, .refl r, fun other hother hmem => ?_⟩
  rw [hafter] at hmem
  rw [hbefore]
  have hother' : other ≠ id := by
    rcases List.mem_cons.mp hother with rfl | hheld
    · exact hne.symm
    · exact ne_of_mem_of_not_mem hheld hid.held
  simp only [List.mem_append, List.mem_cons] at hmem ⊢
  tauto

theorem MachineRel.isListening_eq (hrel : MachineRel P W m m') :
    m'.isListening = m.isListening := by
  have hlistener := hrel.listener
  unfold Machine.isListening
  generalize m.listener = l, m'.listener = l' at hlistener
  cases hlistener <;> rfl

/-- A registered callback is queued. -/
theorem sim_enqueue (hrel : MachineRel P W m m') {x y : Task} (hxy : TaskRel P W x y)
    (hid : y.registration.context = some id) (henterable : Enterable W m' false id) :
    Sim P W m m' (Native.enqueue x) (Native.enqueue y) fun _ _ _ n' => n'.frames = m'.frames := by
  have htasks : List.Forall₂ (TaskRel P W) (m.tasks.push x).toList (m'.tasks.push y).toList := by
    rw [Queue.toList_push, Queue.toList_push]
    exact List.rel_append hrel.tasks (.cons hxy .nil)
  obtain ⟨hrel', hstays⟩ := hrel.insert henterable rfl htasks hrel.listener
    (by simp [Machine.registered, List.filterMap_append, hid])
  exact .ok (m.run_modify _) (m'.run_modify _) (World.le_refl W) hrel' hstays rfl

/-- A registered callback listens. -/
theorem sim_setListener (hrel : MachineRel P W m m') (hnone : m'.listener = none) {x y : Listener}
    (hxy : ListenerRel P W x y) (hid : y.registration.context = some id)
    (henterable : Enterable W m' false id) :
    Sim P W m m' (modify fun m : Machine => { m with listener := some x } : Running Unit)
      (modify fun m : Machine => { m with listener := some y } : Running Unit)
      fun _ _ _ n' => n'.frames = m'.frames := by
  have hbefore : m'.registered = m'.tasks.toList.filterMap (·.registration.context) ++ [] := by
    simp [Machine.registered, hnone]
  obtain ⟨hrel', hstays⟩ := hrel.insert henterable hbefore hrel.tasks (.some hxy)
    (by simp [Machine.registered, hid])
  exact .ok (m.run_modify _) (m'.run_modify _) (World.le_refl W) hrel' hstays rfl

/-- A registered callback is given up. -/
theorem sim_discard (hrel : MachineRel P W m m') (x : Registration) {y : Registration}
    (hid : y.context = some id) (henterable : Enterable W m' false id) :
    Sim P W m m' (adapting (Adapter.discard x)) (adapting (Adapter.discard y))
      fun _ _ _ n' => n'.frames = m'.frames := by
  obtain ⟨r, hr, htracks⟩ := hrel.tracks
  obtain ⟨hne, -⟩ := henterable.live r hr
  have hleft : m.run (adapting (Adapter.discard x)) = (.ok (), m) := by
    have hnone : m.adapter.recorder = none := by rw [hrel.adapter]
    rw [Machine.run_adapting, Adapter.discard, Adapter.run_bind, Adapter.run_get]
    dsimp only
    rw [hnone]
    rfl
  have hright : m'.run (adapting (Adapter.discard y)) = (.ok (), m'.withRecorder (r.without id)) := by
    rw [Machine.run_adapting, Adapter.discard, Adapter.run_bind, Adapter.run_get]
    dsimp only
    rw [hr, hid]
    dsimp only
    rw [Adapter.run_record hr, Recorder.run_release_of_ne henterable.root hne]
    rfl
  have hout : id ∉ m'.registered ++ W.held := fun hmem =>
    (List.mem_append.mp hmem).elim (henterable.released rfl) henterable.held
  refine .ok hleft hright (World.le_refl W)
    (hrel.withRecorder (htracks.without henterable.root hne hout))
    (Machine.stays_withRecorder hr (Recorder.holds_without henterable.held)) ?_
  rw [Machine.frames_eq hr, Machine.frames_eq (m := m'.withRecorder (r.without id)) rfl]
  exact Recorder.frames_without hne

/-! ## Requests to the network -/

theorem StoreRel.request (h : StoreRel P W s t) (event : Event) {v v' : Value}
    (hv : ValueRel P W v v') : ResultRel (fun x y => y = x) (s.request event v) (t.request event v') := by
  have hmismatch := hv.describe_eq
  cases hv with
  | string url => exact .ok rfl
  | object hab =>
      have hproperties := h.properties hab
      have hbody := hproperties.get? "body"
      have hurl := hproperties.get? "url"
      unfold Store.request
      dsimp only
      generalize (s.properties _).get? "url" = x, (t.properties _).get? "url" = y at hurl ⊢
      cases hurl with
      | none => exact .error nofun
      | some hx =>
          cases hx with
          | string url =>
              refine .ok ?_
              generalize (s.properties _).get? "body" = x, (t.properties _).get? "body" = y at hbody ⊢
              cases hbody with
              | none => simp only [Option.map_none]
              | some hx => simp only [Option.map_some, h.toJson_eq hx]
          | _ => exact .error nofun
  | _ =>
      change ResultRel _ (.error (.typeError event.name "a URL or request object" _))
        (.error (.typeError event.name "a URL or request object" _))
      rw [hmismatch]
      exact .error nofun

theorem Adapter.fetch_withoutRecorder (a : Adapter) (event : Event) (url : String)
    (body : Option Json) :
    ({ a with recorder := none } : Adapter).fetch event url body =
      ((a.fetch event url body).1, { (a.fetch event url body).2 with recorder := none }) ∧
      (a.fetch event url body).2.recorder = a.recorder := by
  unfold Adapter.fetch
  split
  · cases Network.dataUrl? url <;> exact ⟨rfl, rfl⟩
  · exact ⟨rfl, rfl⟩

theorem sim_fetch (hrel : MachineRel P W m m') (event : Event) (url : String) (body : Option Json) :
    Sim P W m m' (Native.fetch event url body) (Native.fetch event url body)
      fun W' a b n' => W' = W ∧ b = a ∧ n'.adapter.recorder = m'.adapter.recorder ∧
        n'.registered = m'.registered := by
  obtain ⟨hfetch, hrecorder⟩ := m'.adapter.fetch_withoutRecorder event url body
  have hleft : m.run (Native.fetch event url body) = (.ok (m'.adapter.fetch event url body).1,
      { m with adapter := { (m'.adapter.fetch event url body).2 with recorder := none } }) := by
    have hrun : m.run (Native.fetch event url body) = (.ok (m.adapter.fetch event url body).1,
      { m with adapter := (m.adapter.fetch event url body).2 }) := rfl
    rw [hrun, hrel.adapter, hfetch]
  have hright : m'.run (Native.fetch event url body) = (.ok (m'.adapter.fetch event url body).1,
      { m' with adapter := (m'.adapter.fetch event url body).2 }) := rfl
  obtain ⟨r, hr, htracks⟩ := hrel.tracks
  have hr' : (m'.adapter.fetch event url body).2.recorder = some r := hrecorder.trans hr
  refine .ok hleft hright (World.le_refl W) { hrel with adapter := rfl, tracks := ⟨r, hr', htracks⟩ }
    (fun r₀ hr₀ => ?_) ⟨rfl, rfl, hrecorder, rfl⟩
  obtain rfl := Option.some.inj (hr.symm.trans hr₀)
  exact ⟨r, hr', .refl r, fun _ _ hmem => hmem⟩

/-! ## Native functions -/

/-- Corresponding results of a native function.  A callback that is to run at once has its context
at hand. -/
inductive PerformedRel (P : Expectation) (m : Machine) (W : World) :
    Native.Result → Native.Result → Machine → Prop
  | value {v v' : Value} {n : Machine} (hv : ValueRel P W v v')
      (hframes : P.strict → Advances m.frames n.frames) :
      PerformedRel P m W (.value v) (.value v') n
  | answered {x y : Registration} {callback callback' answer answer' : Value} {id : ContextId}
      {n : Machine} (hxy : RegistrationRel x y) (hid : y.context = some id)
      (honce : y.event.isRepeating = false) (hwaiting : Waiting P m id W n)
      (hcallback : ValueRel P W callback callback') (hanswer : ValueRel P W answer answer') :
      PerformedRel P m W (.answered x callback answer) (.answered y callback' answer') n

/-- The callback of a request is queued, for what the request gave. -/
theorem sim_queued (hrel : MachineRel P W n n') {x y : Registration} (hxy : RegistrationRel x y)
    (hid : y.context = some id) (hwaiting : Waiting P m' id W n') {callback callback' : Value}
    (hcallback : ValueRel P W callback callback') {arg arg' : Value} (harg : ValueRel P W arg arg') :
    Sim P W n n'
      (do Native.enqueue ⟨x, callback, arg⟩; return .value .undefined)
      (do Native.enqueue ⟨y, callback', arg'⟩; return .value .undefined)
      (PerformedRel P m') := by
  refine (sim_enqueue hrel ⟨hxy, hcallback, harg⟩ hid hwaiting.enterable).bind
    fun _ hrel' _ hframes => ?_
  exact .pure hrel' (.value .undefined fun hstrict => hframes ▸ hwaiting.frames hstrict)

/-- Both machines pass on corresponding results. -/
theorem Sim.ofResult {α β : Type} {r : α → β → Prop} {x : Except EvalError α}
    {y : Except EvalError β} (hrel : MachineRel P W m m') (h : ResultRel r x y) :
    Sim P W m m' (MonadExcept.ofExcept x) (MonadExcept.ofExcept y) fun W' a b n' =>
      W' = W ∧ r a b ∧ n' = m' := by
  cases h with
  | ok h => exact .pure hrel ⟨rfl, h, rfl⟩
  | error h => exact .throw hrel h

theorem Registered.waiting {event : Event} {x y : Registration}
    (h : Registered P W m' event W' x y n') : ∃ id, y.context = some id ∧ Waiting P m' id W n' := by
  obtain ⟨id, hid, henterable⟩ := h.context
  exact ⟨id, hid, h.frames, henterable⟩

/-- Sends a request for which a callback was registered.  The callback runs at once or is queued. -/
def awaitAnswer (event : Event) (registration : Registration) (callback target : Value) :
    Running Native.Result := do
  let (url, body) ← read fun s => s.request event target
  match ← Native.fetch event url body with
  | .ok response =>
    let value ← make (Store.ofJson response)
    if url.startsWith "data:" then return .answered registration callback value
    Native.enqueue ⟨registration, callback, value⟩
  | .error error =>
    if url.startsWith "data:" then throw (.host error)
    Native.enqueue ⟨registration, callback, .undefined⟩
  return .value .undefined

theorem subscribe_of_isRequest {event : Event} (h : event.isRequest = true) (values : List Value) :
    Native.subscribe event values = (do
      let a ← Native.arguments event.name values
      let callback ← MonadExcept.ofExcept a.callback
      let registration ← adapting (Adapter.register event)
      awaitAnswer event registration callback (a.value 0)) := by
  cases event <;> first | rfl | cases h

theorem sim_awaitAnswer (hrel : MachineRel P W n n') {event : Event} {x y : Registration}
    (hxy : RegistrationRel x y) (hid : y.context = some id) (honce : y.event.isRepeating = false)
    (hwaiting : Waiting P m' id W n') {callback callback' target target' : Value}
    (hcallback : ValueRel P W callback callback') (htarget : ValueRel P W target target') :
    Sim P W n n' (awaitAnswer event x callback target) (awaitAnswer event y callback' target')
      (PerformedRel P m') := by
  refine (Sim.read hrel (hrel.store.request event htarget)).bind ?_
  rintro _ _ _ ⟨url, body⟩ _ - hrel₁ - ⟨rfl, rfl, rfl⟩
  refine (sim_fetch hrel₁ event url body).bind ?_
  rintro _ _ n₂ _ answer - hrel₂ - ⟨rfl, rfl, hrecorder, hregistered⟩
  have hwaiting₂ := hwaiting.keep (World.le_refl _) hrecorder hregistered
  cases answer with
  | ok response =>
      refine (Sim.make (r := ValueRel P) hrel₂ (hrel₂.store.ofJson response)).bind ?_
      rintro W₃ _ _ value value' hle hrel₃ - ⟨hvalue, rfl⟩
      have hwaiting₃ := hwaiting₂.keep (k := { n₂ with store := (n₂.store.ofJson response).2 }) hle rfl rfl
      split
      · exact .pure hrel₃ (.answered hxy hid honce hwaiting₃ (hcallback.mono hle) hvalue)
      · exact sim_queued hrel₃ hxy hid hwaiting₃ (hcallback.mono hle) hvalue
  | error error =>
      dsimp only
      split
      · exact .throw hrel₂ nofun
      · exact sim_queued hrel₂ hxy hid hwaiting₂ hcallback .undefined

theorem sim_subscribe (hrel : MachineRel P W m m') (hopen : P.strict → m'.frames ≠ [])
    (event : Event) {vs ws : List Value} (hvs : List.Forall₂ (ValueRel P W) vs ws) :
    Sim P W m m' (Native.subscribe event vs) (Native.subscribe event ws) (PerformedRel P m') := by
  have hregister {next next' : Arguments → Value → Registration → Running Native.Result}
      (hnext : ∀ {n n' : Machine} {a a' : Arguments} {x y : Registration} {v v' : Value},
        MachineRel P W n n' → ArgumentsRel P W a a' → Registered P W m' event W x y n' →
        ValueRel P W v v' → Sim P W n n' (next a v x) (next' a' v' y) (PerformedRel P m')) :
      Sim P W m m' (do
          let a ← Native.arguments event.name vs
          let callback ← MonadExcept.ofExcept a.callback
          let registration ← adapting (Adapter.register event)
          next a callback registration)
        (do
          let a ← Native.arguments event.name ws
          let callback ← MonadExcept.ofExcept a.callback
          let registration ← adapting (Adapter.register event)
          next' a callback registration)
        (PerformedRel P m') := by
    refine (Sim.arguments hrel event.name hvs).bind ?_
    rintro _ _ _ a a' - hrel₁ - ⟨rfl, hargs, rfl⟩
    refine (Sim.ofResult hrel₁ hargs.callback).bind ?_
    rintro _ _ _ callback callback' - hrel₂ - ⟨rfl, hcallback, rfl⟩
    refine (sim_register hrel₂ hopen event).bind fun _ hrel₃ _ hregistered => ?_
    obtain rfl := hregistered.world
    exact hnext hrel₃ hargs hregistered hcallback
  by_cases hrequest : event.isRequest = true
  · rw [subscribe_of_isRequest hrequest, subscribe_of_isRequest hrequest]
    refine hregister fun hrel₁ hargs hregistered hcallback => ?_
    obtain ⟨id, hid, hwaiting⟩ := hregistered.waiting
    refine sim_awaitAnswer hrel₁ hregistered.registration hid ?_ hwaiting hcallback (hargs.value 0)
    rw [hregistered.event]
    cases event <;> first | rfl | cases hrequest
  · cases event
    case get | post | put | delete => exact absurd rfl hrequest
    case immediate =>
      refine hregister fun hrel₁ hargs hregistered hcallback => ?_
      obtain ⟨id, hid, hwaiting⟩ := hregistered.waiting
      exact sim_queued hrel₁ hregistered.registration hid hwaiting hcallback (hargs.value 0)
    case listen =>
      refine hregister fun {n n'} _ _ x y _ _ hrel₁ _ hregistered hcallback => ?_
      obtain ⟨id, hid, hwaiting⟩ := hregistered.waiting
      refine .get_bind ?_
      dsimp only
      rw [hrel₁.isListening_eq]
      split
      · refine (sim_discard hrel₁ x hid hwaiting.enterable).bind
          fun _ hrel₂ _ _ => ?_
        exact .throw hrel₂ nofun
      · rename_i hlistening
        have hnone : n'.listener = none := by
          rw [← hrel₁.isListening_eq, Machine.isListening, Option.not_isSome_iff_eq_none]
            at hlistening
          exact hlistening
        refine (sim_setListener hrel₁ hnone
          ⟨hregistered.registration, hregistered.event, hcallback⟩ hid hwaiting.enterable).bind
          fun _ hrel₂ _ hframes => ?_
        exact .pure hrel₂ (.value .undefined fun hstrict => hframes ▸ hwaiting.frames hstrict)

/-! ## Answers -/

namespace Adapter

variable {a : Adapter} {r : Recorder}

/-- The answer of the active conversation is kept; nothing is recorded. -/
def settle (value : Json) : Adapting Unit := do
  let a ← get
  match a.conversation with
  | none => throw .noConversation
  | some id =>
    if id ∈ a.pending then
      set { a with
        pending := a.pending.filter (· ≠ id)
        responses := (id, value) :: a.responses.filter fun entry => entry.1 ≠ id }
    else throw (.unknownConversation id)

theorem run_respond_of_none (h : a.recorder = none) (value : Json) :
    a.run (respond value) = a.run (settle value) := by
  rw [respond, run_bind, run_get]
  dsimp only
  rw [isTracing, h]
  rfl

theorem run_respond (h : a.recorder = some r) (value : Json) :
    a.run (respond value) = a.run (record Recorder.sending >>= fun _ => settle value) := by
  have hsending : a.run (do
        let args ← record Recorder.popArgs
        record (Recorder.primitive "send" [args[1]?.getD .undefined])) =
      a.run (record Recorder.sending) :=
    (run_record_bind h _ _).trans rfl
  rw [respond, run_bind, run_get]
  dsimp only
  rw [isTracing, h, Option.isSome_some, if_pos rfl, ← bind_assoc, run_bind, hsending, ← run_bind]
  rfl

theorem run_settle (a : Adapter) (value : Json) :
    (a.run (settle value)).2.recorder = a.recorder ∧
      run { a with recorder := none } (settle value) = ((a.run (settle value)).1,
        { (a.run (settle value)).2 with recorder := none }) := by
  obtain ⟨recorder, conversation, opened, pending, responses, network⟩ := a
  unfold settle
  simp only [run_bind, run_get]
  cases conversation with
  | none => exact ⟨rfl, rfl⟩
  | some id =>
      by_cases hid : id ∈ pending
      · simp [hid]
      · simp [hid]

theorem not_misuse_of_settle {value : Json} {e : TraceError} {b : Adapter}
    (h : a.run (settle value) = (.error e, b)) : ¬ e.IsMisuse := by
  unfold settle at h
  rw [run_bind, run_get] at h
  dsimp only at h
  split at h
  · cases h
    exact id
  · split at h
    · cases h
    · cases h
      exact id

end Adapter

/-- Both machines settle a request, the second one with a recorder. -/
theorem sim_settle (hrel : MachineRel P W m m') (value : Json) :
    Sim P W m m' (adapting (Adapter.settle value)) (adapting (Adapter.settle value))
      fun _ _ _ n' => n'.frames = m'.frames := by
  obtain ⟨hrecorder, hleft⟩ := m'.adapter.run_settle value
  have hx := m.run_adapting (Adapter.settle value)
  have hy := m'.run_adapting (Adapter.settle value)
  rw [hrel.adapter, hleft] at hx
  generalize hresult : m'.adapter.run (Adapter.settle value) = result at hx hy hrecorder
  obtain ⟨result, a⟩ := result
  obtain ⟨r, hr, htracks⟩ := hrel.tracks
  have hr' : a.recorder = some r := hrecorder.trans hr
  have hrel' : MachineRel P W { m with adapter := { a with recorder := none } }
      { m' with adapter := a } := { hrel with adapter := rfl, tracks := ⟨r, hr', htracks⟩ }
  have hstays : m'.Stays W.held { m' with adapter := a } := by
    intro r₀ hr₀
    obtain rfl := Option.some.inj (hr.symm.trans hr₀)
    exact ⟨r, hr', .refl r, fun _ _ hmem => hmem⟩
  cases result with
  | ok _ =>
      refine .ok hx hy (World.le_refl W) hrel' hstays ?_
      rw [Machine.frames, Machine.frames, hrecorder]
  | error e =>
      refine .fail hx hy (World.le_refl W) hrel' hstays fun _ cause heq => ?_
      cases heq
      exact Adapter.not_misuse_of_settle hresult

theorem sim_answer (hrel : MachineRel P W m m') (hopen : P.strict → m'.frames ≠ []) {v v' : Value}
    (hv : ValueRel P W v v') :
    Sim P W m m' (Native.answer v) (Native.answer v') fun _ _ _ n' =>
      P.strict → Advances m'.frames n'.frames := by
  obtain ⟨r, hr, -⟩ := hrel.tracks
  refine .get_bind ?_
  rw [hrel.store.toJson_eq hv]
  have hleft : m.run (adapting (Adapter.respond (m.store.toJson v))) =
      m.run (adapting (Adapter.settle (m.store.toJson v))) := by
    rw [Machine.run_adapting, Machine.run_adapting, Adapter.run_respond_of_none (by rw [hrel.adapter])]
  have hright : m'.run (adapting (Adapter.respond (m.store.toJson v))) =
      m'.run (adapting (Adapter.record Recorder.sending) >>= fun _ =>
        adapting (Adapter.settle (m.store.toJson v))) := by
    rw [Machine.run_adapting, Adapter.run_respond hr, Machine.run_bind, Machine.run_adapting,
      Adapter.run_bind]
    rcases m'.adapter.run (Adapter.record Recorder.sending) with ⟨result, a⟩
    cases result with
    | error e => rfl
    | ok _ => exact (Machine.run_adapting { m' with adapter := a } (Adapter.settle _)).symm
  refine .of_run_eq hleft hright ((sim_record hrel fun r₀ hr₀ htracks₀ =>
    Recorder.goes_sending htracks₀ (Machine.frames_eq hr₀ ▸ hopen)).before ?_)
  rintro _ n' _ - hrel' - ⟨rfl, r₀, r', hr₀, rfl, hadvances⟩
  refine (sim_settle hrel' _).imp fun _ hframes hstrict => ?_
  rw [hframes, Machine.frames_eq hr₀, Machine.frames_eq (m := m'.withRecorder r') rfl]
  exact hadvances hstrict

/-! ## All native functions -/

/-- Operations of the recorder. -/
def Native.isRecording : Native → Bool
  | .trace _ => true
  | _ => false

theorem sim_native (hrel : MachineRel P W m m') (hopen : P.strict → m'.frames ≠ []) {native : Native}
    (hnative : native.isRecording = false) {vs ws : List Value}
    (hvs : List.Forall₂ (ValueRel P W) vs ws) :
    Sim P W m m' (native.perform vs) (native.perform ws) (PerformedRel P m') := by
  have hstays {n' : Machine} (hn : n'.adapter = m'.adapter) (hstrict : P.strict) :
      Advances m'.frames n'.frames := by
    rw [Machine.frames_of_adapter hn]
    exact .refl (hopen hstrict)
  cases native with
  | trace name => cases hnative
  | require =>
      refine (Sim.arguments hrel "require" hvs).bind ?_
      rintro _ _ _ a a' - hrel₁ - ⟨rfl, hargs, rfl⟩
      refine (Sim.ofExcept hrel₁ (hargs.string_eq 0) (.string a 0)).bind ?_
      rintro _ _ _ name _ - hrel₂ - ⟨rfl, rfl, rfl⟩
      refine (Sim.importModule hrel₂ _).bind fun _ hrel₃ _ ⟨hv, hadapter⟩ => ?_
      exact .pure hrel₃ (.value hv (hstays hadapter))
  | console name =>
      refine (Sim.log hrel hvs).bind fun _ hrel₁ _ hadapter => ?_
      exact .pure hrel₁ (.value .undefined (hstays hadapter))
  | builder name =>
      refine (Sim.build hrel name hvs).bind fun _ hrel₁ _ ⟨hv, hadapter⟩ => ?_
      exact .pure hrel₁ (.value hv (hstays hadapter))
  | host event => exact sim_subscribe hrel hopen event hvs
  | respond =>
      have hhead : ValueRel P W (vs.head?.getD .undefined) (ws.head?.getD .undefined) := by
        cases hvs with
        | nil => exact .undefined
        | cons hv _ => exact hv
      refine (sim_answer hrel hopen hhead).bind fun _ hrel₁ _ hframes => ?_
      exact .pure hrel₁ (.value .undefined hframes)

end TraceLoom
