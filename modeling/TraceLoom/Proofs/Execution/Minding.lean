import TraceLoom.Proofs.Execution.Allotment

/-!
What a step does about the contexts of an evaluator.  Programs and all natives but the host's have
nothing to do with them.  A host operation gets a context for its callback, and a callback that has
its answer at once holds it until it has run.  If what was asked of the host turns out to be no
request when the callback has been registered, the context is left behind.
-/

namespace TraceLoom

open Script Running
open Recorder (rootContext SameContexts)

/-! ## Steps -/

/-- The errors by which a context is left behind: what a callback was registered for is no request,
or a callback cannot be entered. -/
def EvalError.strands : EvalError → Bool
  | .host _ | .trace (.poisoned _) => true
  | .typeError operation expected _ => (Event.ofName? operation).any Event.isRequest &&
      (expected == "a URL or request object" || expected == "a `url` property")
  | _ => false

theorem Store.strands_of_request {s : Store} {event : Event} (h : event.isRequest = true)
    {target : Value} {e : EvalError} (hrequest : s.request event target = .error e) :
    e.strands = true := by
  unfold request at hrequest
  split at hrequest
  · cases hrequest
  · dsimp only at hrequest
    split at hrequest
    · cases hrequest
    · cases hrequest
      simp [EvalError.strands, Event.ofName?_name, h]
  · cases hrequest
    simp [EvalError.strands, Event.ofName?_name, h]

namespace Machine

variable {α β : Type} {m n k : Machine} {held held' : List ContextId} {r r' : Recorder}
  {id : ContextId}

/-- What becomes of the contexts in a step.  When it fails, those that were held are held again, or
one more if it was left behind. -/
inductive Settles (m : Machine) (held : List ContextId) (Q : α → List ContextId → Prop) :
    Except EvalError α × Machine → Prop
  | done {a : α} {n : Machine} {held' : List ContextId} (h : m.Proceeds n held') (ha : Q a held') :
      Settles m held Q (.ok a, n)
  | failed {e : EvalError} {n : Machine} (h : m.Proceeds n held) : Settles m held Q (.error e, n)
  | stranded {e : EvalError} {n : Machine} {id : ContextId} (h : m.Proceeds n (id :: held))
      (he : e.strands = true) : Settles m held Q (.error e, n)

namespace Settles

variable {Q : α → List ContextId → Prop} {Q' : β → List ContextId → Prop}

theorem bind {x : Running α} {f : α → Running β} (hx : m.Settles held Q (n.run x))
    (hf : ∀ a k held', m.Proceeds k held' → Q a held' → m.Settles held Q' (k.run (f a))) :
    m.Settles held Q' (n.run (x >>= f)) := by
  rw [run_bind]
  generalize n.run x = result at hx
  cases hx with
  | done h ha => exact hf _ _ _ h ha
  | failed h => exact .failed h
  | stranded h he => exact .stranded h he

theorem imp {Q' : α → List ContextId → Prop} {result : Except EvalError α × Machine}
    (h : m.Settles held Q result) (hQ : ∀ a held', Q a held' → Q' a held') :
    m.Settles held Q' result := by
  cases h with
  | done h ha => exact .done h (hQ _ _ ha)
  | failed h => exact .failed h
  | stranded h he => exact .stranded h he

theorem exists_lost {Q : α → Prop} {result : Except EvalError α}
    (h : m.Settles held (fun a held' => held' = held ∧ Q a) (result, n)) :
    ∃ lost : Option ContextId, m.Proceeds n (lost.toList ++ held) ∧
      (lost.isSome → ∃ e, result = .error e ∧ e.strands = true) := by
  cases h with
  | done h ha => exact ⟨none, ha.1 ▸ h, nofun⟩
  | failed h => exact ⟨none, h, nofun⟩
  | stranded h he => exact ⟨some _, h, fun _ => ⟨_, rfl, he⟩⟩

theorem of_lost {lost : Option ContextId} {result : Except EvalError α}
    (h : m.Proceeds n (lost.toList ++ held))
    (hlost : lost.isSome → ∃ e, result = .error e ∧ e.strands = true) :
    m.Settles held (fun _ held' => held' = held) (result, n) := by
  cases lost with
  | none =>
      cases result with
      | ok a => exact .done h rfl
      | error e => exact .failed h
  | some id =>
      obtain ⟨e, rfl, he⟩ := hlost rfl
      exact .stranded h he

theorem from_start {result : Except EvalError α × Machine} (h : m.Proceeds n held')
    (hresult : n.Settles held Q result) : m.Settles held Q result := by
  cases hresult with
  | done h' ha => exact .done (h.trans h') ha
  | failed h' => exact .failed (h.trans h')
  | stranded h' he => exact .stranded (h.trans h') he

end Settles

end Machine

namespace Running

open Machine

variable {α β : Type} {Q : α → Prop}

/-- A step after which the same contexts are held as before. -/
def Minds (Q : α → Prop) (x : Running α) : Prop :=
  ∀ (m : Machine) (held : List ContextId) (r : Recorder), m.Allots held r →
    m.Settles held (fun a held' => held' = held ∧ Q a) (m.run x)

theorem minds_pure {a : α} (h : Q a) : Minds Q (pure a) :=
  fun _ _ _ hm => .done hm.proceeds_refl ⟨rfl, h⟩

theorem minds_throw (e : EvalError) : Minds Q (throw e : Running α) :=
  fun _ _ _ hm => .failed hm.proceeds_refl

theorem Minds.settles {x : Running α} (hx : Minds Q x) {m n : Machine} {held : List ContextId}
    (h : m.Proceeds n held) :
    m.Settles held (fun a held' => held' = held ∧ Q a) (n.run x) :=
  let ⟨_, hn⟩ := h.allots
  (hx n held _ hn).from_start h

theorem Minds.bind {Q' : β → Prop} {x : Running α} {f : α → Running β} (hx : Minds Q x)
    (hf : ∀ a, Q a → Minds Q' (f a)) : Minds Q' (x >>= f) := by
  intro m held r hm
  refine (hx m held r hm).bind ?_
  rintro a n _ h ⟨rfl, ha⟩
  exact (hf a ha).settles h

theorem Minds.imp {Q' : α → Prop} {x : Running α} (hx : Minds Q x) (hQ : ∀ a, Q a → Q' a) :
    Minds Q' x :=
  fun m held r hm => (hx m held r hm).imp fun a _ h => ⟨h.1, hQ a h.2⟩

/-- A step that has nothing to do with contexts. -/
def Spares (Q : α → Prop) (x : Running α) : Prop :=
  ∀ (m : Machine) (r : Recorder), m.adapter.recorder = some r →
    (∀ a, (m.run x).1 = .ok a → Q a) ∧
      (∃ r', (m.run x).2.adapter.recorder = some r' ∧ r.SameContexts r') ∧
      (m.run x).2.tasks = m.tasks ∧ (m.run x).2.listener = m.listener

theorem Spares.proceeds {x : Running α} (hx : Spares Q x) {m n : Machine} {held : List ContextId}
    (h : m.Proceeds n held) : m.Proceeds (n.run x).2 held := by
  obtain ⟨r, hn⟩ := h.allots
  obtain ⟨-, ⟨r', hr', hsame⟩, htasks, hlistener⟩ := hx n r hn.recorder
  exact h.trans (hn.proceeds hr' hsame htasks hlistener)

theorem Spares.minds {x : Running α} (hx : Spares Q x) : Minds Q x := by
  intro m held r hm
  have hproceeds := hx.proceeds hm.proceeds_refl
  obtain ⟨hvalue, -⟩ := hx m r hm.recorder
  generalize m.run x = result at hvalue hproceeds
  obtain ⟨_ | a, n⟩ := result
  · exact .failed hproceeds
  · exact .done hproceeds ⟨rfl, hvalue a rfl⟩

theorem spares_make {f : Store → α × Store} (h : ∀ s, Q (f s).1) : Spares Q (make f) :=
  fun m r hr => ⟨fun _ ha => Except.ok.inj ha ▸ h m.store, ⟨r, hr, .refl r⟩, rfl, rfl⟩

theorem spares_read {f : Store → Except EvalError α} (h : ∀ s a, f s = .ok a → Q a) :
    Spares Q (read f) := by
  intro m r hr
  rw [Machine.run_read]
  exact ⟨h m.store, ⟨r, hr, .refl r⟩, rfl, rfl⟩

theorem minds_look {f : Config → Store → Running α} (h : ∀ c s, Minds Q (f c s)) :
    Minds Q (get >>= fun m => f m.config m.store) := by
  intro m held r hm
  rw [Machine.run_bind, Machine.run_get]
  exact h m.config m.store m held r hm

theorem minds_make {f : Store → α × Store} (h : ∀ s, Q (f s).1) : Minds Q (make f) :=
  (spares_make h).minds

theorem elementary_minds : Elementary .all fun Q x => Minds Q x where
  pure := minds_pure
  throw := minds_throw
  bind := .bind
  look h := minds_look fun c s => h c s s.reaches_all
  make h := minds_make fun s => (h s s.reaches_all).1

theorem minds_permit (callee : Option Expr) (function : Value) (args : List Value) :
    Minds (fun _ => True) (permit callee function args) := by
  refine Spares.minds fun m r hr => ?_
  rw [Machine.run_permit]
  exact ⟨fun _ _ => trivial, ⟨r, hr, .refl r⟩, rfl, rfl⟩

theorem minds_adapting {x : Adapting α} (hx : ∀ (a : Adapter) (r : Recorder), a.recorder = some r →
    ∃ r', (a.run x).2.recorder = some r' ∧ r.SameContexts r') :
    Minds (fun _ => True) (adapting x) := by
  refine Spares.minds fun m r hr => ?_
  rw [Machine.run_adapting]
  exact ⟨fun _ _ => trivial, hx _ r hr, rfl, rfl⟩

/-! ## Natives without callbacks -/

theorem minds_log (values : List Value) : Minds (fun _ => True) (Native.log values) :=
  Spares.minds fun _ r hr => ⟨fun _ _ => trivial, ⟨r, hr, .refl r⟩, rfl, rfl⟩

/-- What programs ask of the recorder neither makes nor drops contexts. -/
theorem retains_of_ofArguments {a : Arguments} {op : Operation}
    (h : Operation.ofArguments a = .ok op) : Recording.Retains op.perform := by
  have hop : op.isLocal = true ∧
      ∀ event arg params closure, op ≠ .callback event arg params closure := by
    unfold Operation.ofArguments at h
    split at h
    all_goals
      repeat obtain ⟨_, -, h⟩ := exists_of_bind h
      first
        | exact Except.ok.inj h ▸ ⟨rfl, nofun⟩
        | cases h
  exact Operation.retains_perform hop.1 hop.2

theorem minds_record (name : String) (values : List Value) :
    Minds (fun _ => True) (Native.record name values) := by
  intro m held r hm
  by_cases hname : name = "getTrace"
  · subst hname
    have hrun : m.run (Native.record "getTrace" values) = m.run (make (Store.newTrace r.trace)) := by
      change m.run (readTrace m.adapter.recorder) = _
      rw [hm.recorder]
      rfl
    rw [hrun]
    exact minds_make (Q := fun _ => True) (fun _ => trivial) m held r hm
  · rw [run_record m hname, hm.recorder]
    refine Minds.bind (Q := fun op => Recording.Retains op.perform)
      (elementary_minds.ofExcept fun _ => retains_of_ofArguments) (fun op hop => ?_) m held r hm
    refine (minds_adapting fun a r hr => ?_).bind fun outcome _ => ?_
    · rw [Adapter.run_record hr]
      exact ⟨_, rfl, hop r⟩
    · cases outcome with
      | args ts => exact minds_make (f := Store.newTraces ts) fun _ => trivial
      | _ => exact minds_pure trivial

theorem minds_answer (value : Value) : Minds (fun _ => True) (Native.answer value) := by
  refine minds_look (f := fun _ s => adapting (Adapter.respond (s.toJson value))) fun _ s =>
    minds_adapting fun a r hr => ?_
  have hsending : r.SameContexts (Recording.run Recorder.sending r).2 :=
    (Recorder.retains_popArgs.bind fun _ => Recorder.retains_primitive _ _) r
  rw [Adapter.run_respond hr, Adapter.run_bind, Adapter.run_record hr]
  generalize Recording.run Recorder.sending r = sent at hsending
  obtain ⟨_ | _, r'⟩ := sent
  · exact ⟨r', rfl, hsending⟩
  · exact ⟨r', (Adapter.run_settle _ _).1, hsending⟩

theorem spares_fetch (event : Event) (url : String) (body : Option Json) :
    Spares (fun _ => True) (Native.fetch event url body) := by
  refine fun m r hr => ⟨fun _ _ => trivial, ⟨r, ?_, .refl r⟩, rfl, rfl⟩
  change (m.adapter.fetch event url body).2.recorder = some r
  unfold Adapter.fetch
  split
  · split <;> exact hr
  · exact hr

/-! ## Registered callbacks -/

variable {m n : Machine} {held : List ContextId} {r : Recorder} {id : ContextId}
  {registration : Registration}

/-- A context is held for a callback that is registered. -/
theorem settles_register (hm : m.Allots held r) (event : Event) :
    m.Settles held (fun registration held' => registration.event = event ∧
      ∃ id, registration.context = some id ∧ held' = id :: held)
      (m.run (adapting (Adapter.register event))) := by
  rw [Machine.run_adapting, Adapter.run_register hm.recorder]
  rcases Recorder.run_registering_cases r event with ⟨e, r', hrun, h⟩ | ⟨r', c, hrun, h⟩
  · rw [hrun]
    exact .failed (hm.proceeds rfl h rfl rfl)
  · rw [hrun]
    exact .done (hm.proceeds_withNew rfl h rfl rfl) ⟨rfl, _, rfl, rfl⟩

/-- A step between the registration of a callback and what becomes of it. -/
theorem Spares.bind_held {Q' : β → List ContextId → Prop} {x : Running α} {f : α → Running β}
    (hx : Spares Q x) (h : m.Proceeds n (id :: held))
    (herror : ∀ e, (n.run x).1 = .error e → e.strands = true)
    (hf : ∀ a k, m.Proceeds k (id :: held) → Q a → m.Settles held Q' (k.run (f a))) :
    m.Settles held Q' (n.run (x >>= f)) := by
  have hproceeds := hx.proceeds h
  obtain ⟨r, hn⟩ := h.allots
  obtain ⟨hvalue, -⟩ := hx n r hn.recorder
  rw [Machine.run_bind]
  generalize n.run x = result at hproceeds hvalue herror
  obtain ⟨e | a, k⟩ := result
  · exact .stranded hproceeds (herror e rfl)
  · exact hf a k hproceeds (hvalue a rfl)

end Running

open Running

/-- What is owed when a native has been performed: the context of a callback that has its answer
is still held. -/
def Native.Result.Owes (args : List Value) (held : List ContextId) :
    Native.Result → List ContextId → Prop
  | .value _, held' => held' = held
  | .answered registration callback answer, held' =>
    (args.getLast? = some callback ∧ callback.isCallable = true) ∧ answer.isCallable = false ∧
      registration.event.isRepeating = false ∧
      ∃ id, registration.context = some id ∧ held' = id :: held

section

variable {m n : Machine} {held : List ContextId} {r : Recorder} {id : ContextId}
  {registration : Registration} {args : List Value} {callback : Value}
  (hm : m.Allots held r) (h : m.Proceeds n (id :: held))
  (hid : registration.context = some id)

include hm h hid

theorem settles_queued (honce : registration.event.isRepeating = false) (callback arg : Value) :
    m.Settles held (Native.Result.Owes args held) (n.run do
      Native.enqueue ⟨registration, callback, arg⟩
      return .value .undefined) := by
  obtain ⟨r', hn⟩ := h.allots
  exact .done ⟨⟨r', hn.enqueue (h.active_mem hm hn) hid honce⟩, h.active, h.listener⟩ rfl

theorem settles_listen (hrepeats : registration.event.isRepeating = true) (callback : Value) :
    m.Settles held (Native.Result.Owes args held) (n.run (listen registration callback)) := by
  obtain ⟨r', hn⟩ := h.allots
  have hactive := h.active_mem hm hn
  rw [← bind_pure (listen registration callback), run_listen]
  split
  · -- there is a listener already, and the callback is given up
    rw [Machine.run_bind, Machine.run_adapting, Adapter.run_discard hn.recorder hid,
      Recorder.run_release_of_ne hn.ne_root (hn.ne_active hactive)]
    exact .failed ⟨⟨_, hn.without hactive⟩,
      (congrArg (Option.map Recorder.active) hn.recorder).symm.trans h.active, h.listener⟩
  · rename_i hlistening
    have hnone : n.listener = none := by
      simpa [Machine.isListening] using hlistening
    refine .done ⟨⟨r', hn.listen hactive hnone hid hrepeats⟩, h.active, fun l hl => ?_⟩ rfl
    rw [h.listener l hl] at hnone
    cases hnone

variable (hcallback : args.getLast? = some callback ∧ callback.isCallable = true)
  (honce : registration.event.isRepeating = false)

include hcallback honce

theorem settles_receive (url : String) (answer : Except HostError Json) :
    m.Settles held (Native.Result.Owes args held)
      (n.run (receive url registration callback answer)) := by
  cases answer with
  | ok response =>
      refine Spares.bind_held (spares_make (Q := fun v => v.isCallable = false)
        (Store.isCallable_ofJson response)) h nofun fun value k hk hinert => ?_
      split
      · exact .done hk ⟨hcallback, hinert, honce, id, hid, rfl⟩
      · exact settles_queued hm hk hid honce callback value
  | error e =>
      dsimp only [receive]
      split
      · exact .stranded h rfl
      · exact settles_queued hm h hid honce callback .undefined

theorem settles_awaitAnswer {event : Event} (hevent : event.isRequest = true) (target : Value) :
    m.Settles held (Native.Result.Owes args held)
      (n.run (awaitAnswer event registration callback target)) := by
  rw [awaitAnswer_eq]
  refine Spares.bind_held (spares_read (Q := fun _ => True) fun _ _ _ => trivial) h
    (fun e he => ?_) fun request k hk _ => ?_
  · rw [Machine.run_read] at he
    exact Store.strands_of_request hevent he
  · exact Spares.bind_held (spares_fetch event request.1 request.2) hk nofun fun answer l hl _ =>
      settles_receive hm hl hid hcallback honce request.1 answer

end

theorem settles_subscribe {m : Machine} {held : List ContextId} {r : Recorder}
    (hm : m.Allots held r) (event : Event) (args : List Value) :
    m.Settles held (Native.Result.Owes args held) (m.run (Native.subscribe event args)) := by
  -- every host operation first registers its callback
  have hregister {next : Arguments → Value → Registration → Running Native.Result}
      (hnext : ∀ (a : Arguments) (callback : Value) {registration : Registration} {n : Machine}
        {id : ContextId}, args.getLast? = some callback ∧ callback.isCallable = true →
        registration.event = event → registration.context = some id →
        m.Proceeds n (id :: held) →
        m.Settles held (Native.Result.Owes args held) (n.run (next a callback registration))) :
      m.Settles held (Native.Result.Owes args held) (m.run do
        let a ← Native.arguments event.name args
        let callback ← MonadExcept.ofExcept a.callback
        let registration ← adapting (Adapter.register event)
        next a callback registration) := by
    refine (elementary_minds.arguments event.name args m held r hm).bind ?_
    rintro a n₁ _ h₁ ⟨rfl, rfl, -⟩
    have hlast := elementary_minds.ofExcept (x := a.callback) fun _ =>
      Arguments.getLast?_of_callback
    refine (Minds.settles hlast h₁).bind ?_
    rintro callback n₂ _ h₂ ⟨rfl, hcallback⟩
    obtain ⟨r₂, hn₂⟩ := h₂.allots
    refine ((settles_register hn₂ event).from_start h₂).bind ?_
    rintro registration n₃ _ h₃ ⟨hevent, id, hid, rfl⟩
    exact hnext a callback hcallback hevent hid h₃
  by_cases hrequest : event.isRequest = true
  · rw [subscribe_of_isRequest hrequest]
    refine hregister fun a callback _ _ _ hcallback hevent hid h => ?_
    refine settles_awaitAnswer hm h hid hcallback ?_ hrequest (a.value 0)
    rw [hevent]
    cases event <;> first | rfl | cases hrequest
  · cases event with
    | get | post | put | delete => exact absurd rfl hrequest
    | immediate =>
        rw [subscribe_immediate]
        exact hregister fun a callback _ _ _ _ hevent hid h =>
          settles_queued hm h hid (hevent ▸ rfl) callback (a.value 0)
    | listen =>
        rw [subscribe_listen]
        exact hregister fun _ callback _ _ _ _ hevent hid h =>
          settles_listen hm h hid (hevent ▸ rfl) callback

theorem settles_perform {m : Machine} {held : List ContextId} {r : Recorder}
    (hm : m.Allots held r) (n : Native) (args : List Value) :
    m.Settles held (Native.Result.Owes args held) (m.run (n.perform args)) := by
  have hvalue {x : Running Native.Result} (hx : Minds (fun result => ∃ v, result = .value v) x) :
      m.Settles held (Native.Result.Owes args held) (m.run x) := by
    refine (hx m held r hm).imp ?_
    rintro _ _ ⟨rfl, v, rfl⟩
    rfl
  cases n with
  | require =>
      refine hvalue ((elementary_minds.arguments "require" args).bind fun a _ => ?_)
      refine (elementary_minds.ofExcept (Q := fun _ => True) fun _ _ => trivial).bind
        fun name _ => ?_
      exact (elementary_minds.importModule (fun _ => trivial) name).bind fun v _ =>
        minds_pure ⟨v, rfl⟩
  | console name => exact hvalue ((minds_log args).bind fun _ _ => minds_pure ⟨_, rfl⟩)
  | builder name => exact hvalue ((elementary_minds.build name args).bind fun v _ => minds_pure ⟨v, rfl⟩)
  | trace name => exact hvalue ((minds_record name args).bind fun v _ => minds_pure ⟨v, rfl⟩)
  | host event => exact settles_subscribe hm event args
  | respond => exact hvalue ((minds_answer _).bind fun _ _ => minds_pure ⟨_, rfl⟩)

end TraceLoom
