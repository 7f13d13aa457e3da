import TraceLoom.Proofs.Execution.Mistakes
import TraceLoom.Proofs.Execution.Realms
import TraceLoom.Proofs.Execution.Sessions
import TraceLoom.Proofs.Host.Conversations
import TraceLoom.Proofs.Host.Echo

/-!
Steps that pass a stricter gate.  It lets inserted calls of the recorder pass only if what they
record is plain.  A step that succeeds while the gate asks for inserted calls alone passes this gate
as well, and stays within the realm of its program.
-/

namespace TraceLoom

open Script Instrument Running

/-- A gate that calls of the recorder pass only if they record plain traces, and do not ask for the
trace. -/
def plainGate (refusal : EvalError) : Gate := fun _ function args s =>
  match function with
  | .native (.trace name) =>
    if name = "getTrace" then .error refusal
    else
      match Operation.ofArguments ⟨name, args, s⟩ with
      | .ok op => if op.Plain then .ok () else .error refusal
      | .error _ => .ok ()
  | _ => .ok ()

namespace Adapter

/-- An adapter that records, in a recorder that is in use. -/
def InUse (a : Adapter) : Prop :=
  ∃ r, a.recorder = some r ∧ r.InUse 0

variable {a b : Adapter} {α : Type}

theorem own_zero (id : ContextId) : Own 0 id :=
  .inr (Nat.zero_le id)

theorem InUse.record {β : Type} {m : Nat} (h : a.InUse) {x : Recording α} {y : Recording β}
    {f : α → β} {Q : α → Prop} (hx : Recording.Echoes 0 m x y f Q) {v : α}
    (hrun : a.run (Adapter.record x) = (.ok v, b)) : b.InUse ∧ Q v := by
  obtain ⟨r, hr, huse⟩ := h
  rw [run_record hr] at hrun
  rcases hresult : Recording.run x r with ⟨result, r'⟩
  rw [hresult] at hrun
  obtain ⟨rfl, rfl⟩ := Prod.mk.inj hrun
  obtain ⟨⟨huse', -, hv⟩, -⟩ := hx r r' v huse hresult
  exact ⟨⟨r', rfl, huse'⟩, hv⟩

theorem InUse.register (h : a.InUse) {event : Event} {registration : Registration}
    (hrun : a.run (Adapter.register event) = (.ok registration, b)) :
    b.InUse ∧ registration.context.isSome := by
  obtain ⟨r, hr, huse⟩ := h
  rw [run_register hr] at hrun
  rcases hresult : Recording.run (Recorder.registering event) r with ⟨e | id, r'⟩
  · rw [hresult] at hrun
    cases hrun
  · rw [hresult] at hrun
    obtain ⟨hok, rfl⟩ := Prod.mk.inj hrun
    obtain rfl := Except.ok.inj hok
    obtain ⟨⟨huse', -⟩, -⟩ := Recorder.echoes_registering (m := 0) event r r' id huse hresult
    exact ⟨⟨r', rfl, huse'⟩, rfl⟩

theorem InUse.discard (h : a.InUse) {registration : Registration}
    (hid : registration.context.isSome) : (a.run (Adapter.discard registration)).2.InUse := by
  obtain ⟨r, hr, huse⟩ := h
  obtain ⟨id, hid⟩ := Option.isSome_iff_exists.mp hid
  rw [run_discard hr hid]
  obtain ⟨⟨huse', -⟩, -⟩ := Recorder.echoes_release (m := 0) (own_zero id) r _ () huse rfl
  exact ⟨_, rfl, huse'⟩

theorem InUse.respond (h : a.InUse) {value : Json}
    (hrun : a.run (Adapter.respond value) = (.ok (), b)) : b.InUse := by
  obtain ⟨r, hr, huse⟩ := h
  rw [run_respond hr, run_bind, run_record hr] at hrun
  rcases hresult : Recording.run Recorder.sending r with ⟨e | ⟨⟩, r'⟩
  · rw [hresult] at hrun
    cases hrun
  · rw [hresult] at hrun
    obtain ⟨⟨huse', -⟩, -⟩ := Recorder.echoes_sending (m := 0) r r' () huse hresult
    rcases settle_cases { a with recorder := some r' } value with ⟨e, he⟩ | ⟨id, -, -, hid⟩
    · dsimp only at hrun
      rw [he] at hrun
      cases hrun
    · dsimp only at hrun
      rw [hid] at hrun
      obtain ⟨-, rfl⟩ := Prod.mk.inj hrun
      exact ⟨r', rfl, huse'⟩

theorem InUse.enter (h : a.InUse) {registration : Registration}
    (hid : registration.context.isSome) {conversation : Option ConversationId} {firing : Firing}
    (hrun : a.run (Adapter.enter registration conversation) = (.ok firing, b)) :
    b.InUse ∧ firing.previousContext.isSome := by
  obtain ⟨r, hr, huse⟩ := h
  obtain ⟨id, hid⟩ := Option.isSome_iff_exists.mp hid
  obtain ⟨previous, r', hresult, rfl, rfl⟩ := (run_enter_eq_ok_iff hr hid).mp hrun
  have hargs : ∀ t ∈ [Trace.name "clos", .name registration.event.param], Trace.Plain t := by
    simp only [List.mem_cons, List.not_mem_nil, or_false, forall_eq_or_imp, forall_eq]
    exact ⟨Trace.plain_leaf rfl rfl rfl, Trace.plain_leaf rfl rfl rfl⟩
  obtain ⟨⟨huse', -⟩, -⟩ :=
    Recorder.echoes_entering (m := 0) (own_zero id) hargs r r' previous huse hresult
  exact ⟨⟨r', rfl, huse'⟩, rfl⟩

theorem InUse.leave (h : a.InUse) {firing : Firing} (hprevious : firing.previousContext.isSome)
    {completed : Bool} (hrun : a.run (Adapter.leave firing completed) = (.ok (), b)) : b.InUse := by
  obtain ⟨r, hr, huse⟩ := h
  obtain ⟨previous, hprevious⟩ := Option.isSome_iff_exists.mp hprevious
  obtain ⟨r', hresult, rfl⟩ := (run_leave_eq_ok_iff hr hprevious completed).mp hrun
  obtain ⟨⟨huse', -⟩, -⟩ := Recorder.echoes_leaving (m := 0) completed firing.event.isRepeating
    (own_zero r.active) (own_zero previous) r r' () huse hresult
  exact ⟨r', rfl, huse'⟩

theorem InUse.of_recorder (h : a.InUse) (hb : b.recorder = a.recorder) : b.InUse := by
  obtain ⟨r, hr, huse⟩ := h
  exact ⟨r, hb.trans hr, huse⟩

end Adapter

/-! ## Guarded machines -/

/-- A machine in which only inserted calls of the recorder pass, within a realm. -/
structure Machine.Guarded (R : Realm) (refusal : EvalError) (m : Machine) : Prop where
  gate : m.gate = recorderGate refusal
  options : m.config.instrument = standard.options
  store : m.store.Reaches R
  adapter : m.adapter.InUse
  tasks : ∀ task ∈ m.tasks.toList,
    task.registration.context.isSome ∧ task.callback.Reaches R ∧ task.arg.Reaches R
  listener : ∀ l ∈ m.listener, l.registration.context.isSome ∧ l.callback.Reaches R

/-- The same machine, where calls of the recorder record plain traces only. -/
def Machine.plain (refusal : EvalError) (m : Machine) : Machine :=
  { m with gate := plainGate refusal }

/-- Where inserted calls of the recorder pass, a step that succeeds does so as well if they have to
record plain traces. -/
def Passes {α : Type} (R : Realm) (refusal : EvalError) (Q : α → Prop) (x : Running α) : Prop :=
  ∀ (m : Machine) (a : α) (m' : Machine), m.Guarded R refusal → m.run x = (.ok a, m') →
    (m'.Guarded R refusal ∧ Q a) ∧ (m.plain refusal).run x = (.ok a, m'.plain refusal)

section

variable {R : Realm} {refusal : EvalError} {α β : Type} {Q : α → Prop} {Q' : β → Prop}

theorem Passes.imp {x : Running α} (hx : Passes R refusal Q x) {Q' : α → Prop}
    (h : ∀ a, Q a → Q' a) : Passes R refusal Q' x := by
  intro m a m' hm hrun
  obtain ⟨⟨hm', ha⟩, hplain⟩ := hx m a m' hm hrun
  exact ⟨⟨hm', h a ha⟩, hplain⟩

theorem passes_pure {a : α} (h : Q a) : Passes R refusal Q (pure a) := by
  intro m a m' hm hrun
  cases hrun
  exact ⟨⟨hm, h⟩, rfl⟩

theorem passes_throw (e : EvalError) : Passes R refusal Q (throw e : Running α) :=
  fun _ _ _ _ hrun => nomatch hrun

theorem Passes.bind {x : Running α} {f : α → Running β} (hx : Passes R refusal Q x)
    (hf : ∀ a, Q a → Passes R refusal Q' (f a)) : Passes R refusal Q' (x >>= f) := by
  intro m b m' hm hrun
  obtain ⟨a, n, hfirst, hrest⟩ := Machine.exists_of_run_bind hrun
  obtain ⟨⟨hn, ha⟩, hplain⟩ := hx m a n hm hfirst
  obtain ⟨hm', hplain'⟩ := hf a ha n b m' hn hrest
  exact ⟨hm', (Machine.run_bind_of_ok hplain f).trans hplain'⟩

theorem passes_look {f : Config → Store → Running α}
    (h : ∀ c s, s.Reaches R → Passes R refusal Q (f c s)) :
    Passes R refusal Q (get >>= fun m => f m.config m.store) := by
  intro m a m' hm hrun
  rw [Machine.run_bind, Machine.run_get] at hrun ⊢
  exact h m.config m.store hm.store m a m' hm hrun

theorem passes_make {f : Store → α × Store}
    (h : ∀ s : Store, s.Reaches R → Q (f s).1 ∧ (f s).2.Reaches R) :
    Passes R refusal Q (make f) := by
  intro m a m' hm hrun
  rw [Machine.run_make] at hrun
  cases hrun
  obtain ⟨hv, hs⟩ := h m.store hm.store
  exact ⟨⟨{ hm with store := hs }, hv⟩, Machine.run_make _ f⟩

theorem elementary_passes (R : Realm) (refusal : EvalError) :
    Elementary R (Passes R refusal) where
  pure := passes_pure
  throw := passes_throw
  bind := Passes.bind
  look := passes_look
  make := passes_make

/-- A call that both gates treat alike. -/
theorem passes_permit {callee : Option Expr} {function : Value} {args : List Value}
    (h : ∀ s : Store, recorderGate refusal callee function args s = .ok () →
      plainGate refusal callee function args s = .ok ()) :
    Passes R refusal (fun _ => True) (permit callee function args) := by
  intro m a m' hm hrun
  rw [Machine.run_permit, hm.gate] at hrun
  obtain ⟨hok, rfl⟩ := Prod.mk.inj hrun
  refine ⟨⟨hm, trivial⟩, ?_⟩
  rw [Machine.run_permit]
  exact congrArg (·, _) (h m.store hok)

/-- A step of the adapter that leaves it in use. -/
theorem passes_adapting {x : Adapting α}
    (h : ∀ (a b : Adapter) v, a.InUse → a.run x = (.ok v, b) → b.InUse ∧ Q v) :
    Passes R refusal Q (adapting x) := by
  intro m v m' hm hrun
  rw [Machine.run_adapting] at hrun
  rcases hresult : m.adapter.run x with ⟨e | w, b⟩
  · rw [hresult] at hrun
    cases hrun
  · rw [hresult] at hrun
    cases hrun
    obtain ⟨hb, hv⟩ := h m.adapter b _ hm.adapter hresult
    refine ⟨⟨{ hm with adapter := hb }, hv⟩, ?_⟩
    rw [Machine.run_adapting, show (m.plain refusal).adapter = m.adapter from rfl, hresult]
    rfl

/-! ## Callbacks -/

theorem passes_enter {registration : Registration} (hcontext : registration.context.isSome)
    (conversation : Option ConversationId) :
    Passes R refusal (fun firing => firing.previousContext.isSome)
      (adapting (Adapter.enter registration conversation)) :=
  passes_adapting fun _ _ _ ha hrun => ha.enter hcontext hrun

theorem passes_leave {firing : Firing} (hprevious : firing.previousContext.isSome)
    (completed : Bool) :
    Passes R refusal (fun _ => True) (adapting (Adapter.leave firing completed)) :=
  passes_adapting fun _ _ _ ha hrun => ⟨ha.leave hprevious hrun, trivial⟩

theorem passes_register (event : Event) :
    Passes R refusal (fun registration => registration.context.isSome)
      (adapting (Adapter.register event)) :=
  passes_adapting fun _ _ _ ha hrun => ha.register hrun

theorem passes_fire {registration : Registration} {conversation : Option ConversationId}
    (hcontext : registration.context.isSome) {x : Running α} (hx : Passes R refusal Q x) :
    Passes R refusal (fun _ => True) (fire registration conversation x) := by
  intro m _ m' hm hrun
  obtain ⟨firing, n, henter, -⟩ := Machine.exists_of_run_bind hrun
  rcases hcallback : n.run x with ⟨result, k⟩
  rcases hleave : k.run (adapting (Adapter.leave firing result.toBool)) with ⟨left, k'⟩
  rw [Machine.run_fire henter hcallback hleave] at hrun
  -- an error of the callback, or else one of leaving it, would be the result
  cases result with
  | error e => cases hrun
  | ok a =>
      cases left with
      | error e => cases hrun
      | ok _ =>
          obtain ⟨-, rfl⟩ := Prod.mk.inj hrun
          obtain ⟨⟨hn, hprevious⟩, henter'⟩ := passes_enter hcontext conversation m firing n hm henter
          obtain ⟨⟨hk, -⟩, hcallback'⟩ := hx n a k hn hcallback
          obtain ⟨hk', hleave'⟩ := passes_leave hprevious true k ⟨⟩ k' hk hleave
          exact ⟨hk', Machine.run_fire henter' hcallback' hleave'⟩

/-! ## Natives -/

theorem reaches_value {a : Arguments} (h : ∀ v ∈ a.values, v.Reaches R) (i : Nat) :
    (a.value i).Reaches R :=
  Value.reaches_getD fun v hv => h v (List.mem_of_getElem? hv)

theorem reaches_callback {a : Arguments} (h : ∀ v ∈ a.values, v.Reaches R) {callback : Value}
    (hcallback : a.callback = .ok callback) : callback.Reaches R :=
  h _ (List.mem_of_getLast? (Arguments.getLast?_of_callback hcallback).1)

/-- What a native gives is within reach, and so is the callback that waits for it. -/
def Native.Result.Reaches (R : Realm) : Native.Result → Prop
  | .value v => v.Reaches R
  | .answered registration callback answer =>
    registration.context.isSome ∧ callback.Reaches R ∧ answer.Reaches R ∧
      answer.isCallable = false

theorem passes_log (values : List Value) :
    Passes R refusal (fun _ => True) (Native.log values) := by
  intro m _ m' hm hrun
  obtain ⟨-, rfl⟩ := Prod.mk.inj hrun
  exact ⟨⟨⟨hm.gate, hm.options, hm.store, hm.adapter, hm.tasks, hm.listener⟩, trivial⟩, rfl⟩

theorem passes_answer (value : Value) : Passes R refusal (fun _ => True) (Native.answer value) :=
  passes_look (f := fun _ s => adapting (Adapter.respond (s.toJson value))) fun _ _ _ =>
    passes_adapting fun _ _ _ ha hrun => ⟨ha.respond hrun, trivial⟩

theorem passes_fetch (event : Event) (url : String) (body : Option Json) :
    Passes R refusal (fun _ => True) (Native.fetch event url body) := by
  intro m _ m' hm hrun
  obtain ⟨hok, rfl⟩ := Prod.mk.inj hrun
  obtain rfl := Except.ok.inj hok
  obtain ⟨network, hnetwork⟩ := Adapter.fetch_network m.adapter event url body
  refine ⟨⟨{ hm with adapter := hm.adapter.of_recorder ?_ }, trivial⟩, rfl⟩
  change (m.adapter.fetch event url body).2.recorder = _
  rw [hnetwork]

theorem passes_enqueue {registration : Registration} (hcontext : registration.context.isSome)
    {callback arg : Value} (hcallback : callback.Reaches R) (harg : arg.Reaches R) :
    Passes R refusal (fun _ => True) (Native.enqueue ⟨registration, callback, arg⟩) := by
  intro m _ m' hm hrun
  obtain ⟨-, rfl⟩ := Prod.mk.inj hrun
  refine ⟨⟨{ hm with tasks := fun task htask => ?_ }, trivial⟩, rfl⟩
  rw [Queue.toList_push, List.mem_append, List.mem_singleton] at htask
  rcases htask with htask | rfl
  · exact hm.tasks task htask
  · exact ⟨hcontext, hcallback, harg⟩

theorem passes_listen {registration : Registration} (hcontext : registration.context.isSome)
    {callback : Value} (hcallback : callback.Reaches R) :
    Passes R refusal (Native.Result.Reaches R) (listen registration callback) := by
  intro m v m' hm hrun
  have hlisten (m : Machine) := run_listen m registration callback Pure.pure
  simp only [bind_pure] at hlisten
  rw [hlisten] at hrun ⊢
  rw [show (m.plain refusal).isListening = m.isListening from rfl]
  split at hrun
  · obtain ⟨_, _, -, hthrow⟩ := Machine.exists_of_run_bind hrun
    cases hthrow
  · rename_i hlistening
    rw [if_neg hlistening]
    obtain ⟨hok, rfl⟩ := Prod.mk.inj hrun
    obtain rfl := Except.ok.inj hok
    refine ⟨⟨{ hm with listener := fun l hl => ?_ }, trivial⟩, rfl⟩
    obtain rfl := Option.some.inj hl
    exact ⟨hcontext, hcallback⟩

theorem passes_queued {registration : Registration} (hcontext : registration.context.isSome)
    {callback arg : Value} (hcallback : callback.Reaches R) (harg : arg.Reaches R) :
    Passes R refusal (Native.Result.Reaches R) (do
      Native.enqueue ⟨registration, callback, arg⟩
      return .value .undefined) :=
  (passes_enqueue hcontext hcallback harg).bind fun _ _ => passes_pure trivial

theorem passes_receive {registration : Registration} (hcontext : registration.context.isSome)
    (url : String) {callback : Value} (hcallback : callback.Reaches R)
    (answer : Except HostError Json) :
    Passes R refusal (Native.Result.Reaches R) (receive url registration callback answer) := by
  cases answer with
  | ok response =>
      refine (passes_make (Q := fun v => v.Reaches R ∧ v.isCallable = false) fun s hs =>
        ⟨⟨(hs.ofJson response).1, s.isCallable_ofJson response⟩, (hs.ofJson response).2⟩).bind
        fun value ⟨hvalue, hinert⟩ => ?_
      split
      · exact passes_pure ⟨hcontext, hcallback, hvalue, hinert⟩
      · exact passes_queued hcontext hcallback hvalue
  | error e =>
      dsimp only [receive]
      split
      · exact passes_throw _
      · exact passes_queued hcontext hcallback trivial

theorem passes_subscribe (event : Event) {values : List Value}
    (hvalues : ∀ v ∈ values, v.Reaches R) :
    Passes R refusal (Native.Result.Reaches R) (Native.subscribe event values) := by
  have hregister {next : Arguments → Value → Registration → Running Native.Result}
      (hnext : ∀ {a : Arguments} {callback : Value} {registration : Registration},
        (∀ v ∈ a.values, v.Reaches R) → callback.Reaches R → registration.context.isSome →
          Passes R refusal (Native.Result.Reaches R) (next a callback registration)) :
      Passes R refusal (Native.Result.Reaches R) (do
        let a ← Native.arguments event.name values
        let callback ← MonadExcept.ofExcept a.callback
        let registration ← adapting (Adapter.register event)
        next a callback registration) := by
    refine ((elementary_passes R refusal).arguments event.name values).bind fun a ⟨ha, _⟩ => ?_
    subst ha
    exact ((elementary_passes R refusal).ofExcept fun _ => reaches_callback hvalues).bind
      fun _ hcallback => (passes_register event).bind fun _ => hnext hvalues hcallback
  by_cases hrequest : event.isRequest = true
  · rw [subscribe_of_isRequest hrequest]
    refine hregister fun {a callback registration} _ hcallback hcontext => ?_
    rw [awaitAnswer_eq]
    refine ((elementary_passes R refusal).read (Q := fun _ => True) fun _ _ _ _ => trivial).bind
      fun request _ => ?_
    exact (passes_fetch event request.1 request.2).bind fun answer _ =>
      passes_receive hcontext request.1 hcallback answer
  · cases event with
    | get | post | put | delete => exact absurd rfl hrequest
    | immediate =>
        rw [subscribe_immediate]
        exact hregister fun ha hcallback hcontext =>
          passes_queued hcontext hcallback (reaches_value ha 0)
    | listen =>
        rw [subscribe_listen]
        exact hregister fun _ hcallback hcontext => passes_listen hcontext hcallback

/-- A native that is none of the recorder's. -/
theorem passes_perform (hnative : ∀ n, R.native n) {n : Native} (hn : ∀ name, n ≠ .trace name)
    {values : List Value} (hvalues : ∀ v ∈ values, v.Reaches R) :
    Passes R refusal (Native.Result.Reaches R) (n.perform values) := by
  cases n with
  | require =>
      refine ((elementary_passes R refusal).arguments "require" values).bind fun a _ => ?_
      refine ((elementary_passes R refusal).ofExcept (Q := fun _ => True) fun _ _ => trivial).bind
        fun name _ => ?_
      exact ((elementary_passes R refusal).importModule hnative name).bind fun _ hv =>
        passes_pure hv
  | console name => exact (passes_log values).bind fun _ _ => passes_pure trivial
  | builder name =>
      exact ((elementary_passes R refusal).build name values).bind fun _ hv => passes_pure hv
  | trace name => exact absurd rfl (hn name)
  | host event => exact passes_subscribe event hvalues
  | respond => exact (passes_answer _).bind fun _ _ => passes_pure trivial

/-- A call of a native that is not inserted. -/
theorem passes_callNative (hnative : ∀ n, R.native n)
    {onAnswer : Registration → Value → Value → Running Unit}
    (hanswer : ∀ {registration : Registration} {callback answer : Value},
      registration.context.isSome → callback.Reaches R → answer.Reaches R →
        answer.isCallable = false →
        Passes R refusal (fun _ => True) (onAnswer registration callback answer))
    {callee : Option Expr} (hcallee : isInserted callee = false) (n : Native) {args : List Value}
    (hargs : ∀ v ∈ args, v.Reaches R) :
    Passes R refusal (Value.Reaches R) (callNative onAnswer callee n args) := by
  rw [callNative_eq]
  have hconclude {x : Running Native.Result} (hx : Passes R refusal (Native.Result.Reaches R) x) :
      Passes R refusal (Value.Reaches R) (x >>= concluding onAnswer) := by
    refine hx.bind fun result hresult => ?_
    cases result with
    | value v => exact passes_pure hresult
    | answered registration callback answer =>
        obtain ⟨hcontext, hcallback, hvalue, hinert⟩ := hresult
        exact (hanswer hcontext hcallback hvalue hinert).bind fun _ _ => passes_pure trivial
  by_cases htrace : ∃ name, n = .trace name
  · -- the gate refuses it
    obtain ⟨name, rfl⟩ := htrace
    intro m v m' hm hrun
    obtain ⟨_, _, hpermit, -⟩ := Machine.exists_of_run_bind hrun
    rw [Machine.run_permit, hm.gate, recorderGate, hcallee] at hpermit
    cases hpermit
  · have hn (name : String) : n ≠ .trace name := fun heq => htrace ⟨name, heq⟩
    refine (passes_permit fun s _ => ?_).bind fun _ _ => hconclude (passes_perform hnative hn hargs)
    cases n with
    | trace name => exact absurd rfl (hn name)
    | _ => rfl

end

end TraceLoom
