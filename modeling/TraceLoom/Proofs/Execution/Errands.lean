import TraceLoom.Proofs.Execution.Account

/-!
Natives and callbacks keep to terms.  A callback is known by its number from when it is registered;
then it is queued, it listens, or it runs at once.
-/

namespace TraceLoom

open Script Running

variable {α : Type} {T : Terms} {q q' : Side} {s s' : Scene}

/-! ## Natives without callbacks -/

theorem keeps_log (values : List Value) : Keeps T (fun _ => True) (Native.log values) :=
  fun q _ hfits => .silent (r := .ok ())
    (p := { q with output := " ".intercalate (values.map q.store.inspect) :: q.output })
    ⟨hfits.waiting, hfits.new, hfits.listener, hfits.config⟩ (fun _ _ => rfl) fun _ _ => trivial

theorem keeps_answer (value : Value) : Keeps T (fun _ => True) (Native.answer value) :=
  keeps_look (f := fun _ s => adapting (Adapter.respond (s.toJson value))) fun _ s _ _ hfits =>
    (accounts_ask (.respond (s.toJson value)) (x := fun _ => Adapter.respond (s.toJson value))
      (a := fun _ => .done) (fun _ => ()) hfits trivial (fun _ _ => rfl) fun _ => rfl).imp
      fun _ _ _ => trivial

/-! ## Natives of the recorder -/

theorem Adapter.run_map {α β : Type} (a : Adapter) (f : α → β) (x : Adapting α) :
    a.run (f <$> x) = ((a.run x).1.map f, (a.run x).2) := by
  rw [map_eq_pure_bind, run_bind]
  rcases a.run x with ⟨result, b⟩
  cases result <;> rfl

theorem Scene.ask_map {α β : Type} (s : Scene) (f : α → β) (answer : β → Answer)
    (step : Adapting α) : s.ask (f <$> step) answer = s.ask step (answer ∘ f) := by
  rw [ask, ask, Adapter.run_map]
  rcases s.adapter.run step with ⟨result, a⟩
  cases result <;> rfl

/-- The trace, if anything is recorded. -/
def readTrace : Option Recorder → Running Value
  | none => throw (.trace .noOpenBlock)
  | some recorder => make (Store.newTrace recorder.trace)

theorem accounts_getTrace (hfits : T.Fits q s) (hshows : T.gate.Shows) (args : List Value) :
    Accounts T q s (fun _ => Native.record "getTrace" args) fun _ _ => True := by
  have hsame {t : Scene} (h : (t.perform .trace).1 = (s.perform .trace).1) :
      t.adapter.recorder.map Recorder.trace = s.adapter.recorder.map Recorder.trace :=
    Answer.trace.inj (Except.ok.inj h)
  cases hr : s.adapter.recorder with
  | none =>
      refine .move (r := .error (.trace .noOpenBlock)) (p := q) .trace hfits hshows
        (fun {t g} _ ht => ⟨?_, rfl⟩) nofun fun _ _ => trivial
      have hnone : t.adapter.recorder = none := by simpa [hr] using hsame ht
      change (q.under g t).run (readTrace t.adapter.recorder) = _
      rw [hnone]
      rfl
  | some r =>
      refine .move (r := .ok (q.store.newTrace r.trace).1)
        (p := { q with store := (q.store.newTrace r.trace).2 }) .trace
        ⟨hfits.waiting, hfits.new, hfits.listener, hfits.config⟩ hshows (fun {t g} _ ht => ⟨?_, rfl⟩)
        (fun _ => rfl) fun _ _ => trivial
      obtain ⟨r', hr', htrace⟩ : ∃ r', t.adapter.recorder = some r' ∧ r'.trace = r.trace := by
        simpa [hr] using hsame ht
      change (q.under g t).run (readTrace t.adapter.recorder) = _
      rw [hr', ← htrace]
      rfl

/-- The result of an operation as a value. -/
def answerValue : Answer → Running Value
  | .args ts => make (Store.newTraces ts)
  | _ => return .undefined

theorem run_outcomeValue (m : Machine) (x : Adapting Operation.Outcome) :
    m.run (adapting x >>= outcomeValue) =
      m.run (adapting (Operation.Outcome.answer <$> x) >>= answerValue) := by
  rw [Machine.run_bind, Machine.run_bind, Machine.run_adapting, Machine.run_adapting,
    Adapter.run_map]
  rcases m.adapter.run x with ⟨result, a⟩
  cases result with
  | error e => rfl
  | ok outcome => cases outcome <;> rfl

theorem run_record (m : Machine) {name : String} (hname : name ≠ "getTrace") (args : List Value) :
    m.run (Native.record name args) = m.run (match m.adapter.recorder with
      | none => throw (.trace .noOpenBlock)
      | some _ => MonadExcept.ofExcept (Operation.ofArguments ⟨name, args, m.store⟩) >>= fun op =>
          adapting (Adapter.record op.perform) >>= outcomeValue) := by
  have hget {α : Type} (f : Machine → Running α) : m.run (get >>= f) = m.run (f m) :=
    m.run_bind get f
  rw [Native.record, Native.arguments]
  simp only [bind_assoc, pure_bind]
  rw [hget, hget]
  cases m.adapter.recorder with
  | none => rfl
  | some r =>
      dsimp only
      rw [if_neg hname]
      rfl

/-- An operation that cannot be read from its arguments. -/
theorem accounts_record_of_error {name : String} {args : List Value} {e : EvalError}
    (hfits : T.Fits q s) (hname : name ≠ "getTrace")
    (hop : Operation.ofArguments ⟨name, args, q.store⟩ = .error e) :
    Accounts T q s (fun _ => Native.record name args) fun _ _ => True := by
  have hsame {t : Scene} (h : (t.perform .tracing).1 = (s.perform .tracing).1) :
      t.adapter.recorder.isSome = s.adapter.recorder.isSome :=
    Answer.flag.inj (Except.ok.inj h)
  have hrun (t : Scene) (g : Gate) : (q.under g t).run (Native.record name args) =
      (.error (if t.adapter.recorder.isSome then e else .trace .noOpenBlock), q.under g t) := by
    rw [run_record _ hname, show (q.under g t).store = q.store from rfl, hop]
    change (q.under g t).run (match t.adapter.recorder with | none => _ | some _ => _) = _
    cases t.adapter.recorder <;> rfl
  refine .move (r := .error (if s.adapter.recorder.isSome then e else .trace .noOpenBlock))
    (p := q) .tracing hfits trivial (fun {t g} _ ht => ⟨?_, rfl⟩) nofun nofun
  rw [hrun, hsame ht]
  rfl

theorem accounts_record_of_ok {callee : Option Expr} {name : String} {args : List Value}
    {op : Operation} (hfits : T.Fits q s) (hname : name ≠ "getTrace")
    (hgate : T.gate callee (.native (.trace name)) args q.store = .ok ())
    (hop : Operation.ofArguments ⟨name, args, q.store⟩ = .ok op) :
    Accounts T q s (fun _ => Native.record name args) fun _ _ => True := by
  have hasked : Accounts T q s
      (fun _ => adapting (Operation.Outcome.answer <$> Adapter.record op.perform))
      fun _ q' => q' = q :=
    accounts_ask (.operation op)
      (x := fun _ => Operation.Outcome.answer <$> Adapter.record op.perform) (a := id) id hfits
      ⟨callee, name, args, q.store, hgate, hname, hop⟩ (fun t _ => (t.ask_map _ id _).symm) fun _ => rfl
  have hvalue : Accounts T q s (fun _ =>
      adapting (Operation.Outcome.answer <$> Adapter.record op.perform) >>= answerValue)
      fun _ _ => True := by
    refine hasked.bind (fun {answer q' s'} _ hfits' _ => ?_) fun _ _ _ => rfl
    cases answer with
    | args ts => exact keeps_make (Q := fun _ => True) (f := Store.newTraces ts) (fun _ => trivial) q' s' hfits'
    | _ => exact keeps_pure (Q := fun _ => True) trivial q' s' hfits'
  refine hvalue.congr fun t g _ => ?_
  rw [run_record _ hname, show (q.under g t).store = q.store from rfl, hop, ← run_outcomeValue]
  change (q.under g t).run (match t.adapter.recorder with | none => _ | some _ => _) = _
  cases hr : t.adapter.recorder with
  | none =>
      have hrefused : t.adapter.run (Adapter.record op.perform) = (.error .noOpenBlock, t.adapter) := by
        rw [Adapter.record, Adapter.run_bind, Adapter.run_get]
        dsimp only
        rw [hr]
        rfl
      rw [Machine.run_bind, Machine.run_adapting, show (q.under g t).adapter = t.adapter from rfl,
        hrefused]
      rfl
  | some r => rfl

theorem accounts_record {callee : Option Expr} {name : String} {args : List Value}
    (hfits : T.Fits q s) (hgate : T.gate callee (.native (.trace name)) args q.store = .ok ()) :
    Accounts T q s (fun _ => Native.record name args) fun _ _ => True := by
  by_cases hname : name = "getTrace"
  · subst hname
    exact accounts_getTrace hfits ⟨callee, args, q.store, hgate⟩ args
  · cases hop : Operation.ofArguments ⟨name, args, q.store⟩ with
    | error e => exact accounts_record_of_error hfits hname hop
    | ok op => exact accounts_record_of_ok hfits hname hgate hop

/-! ## Registered callbacks -/

/-- A callback that may be entered and has a number. -/
def Terms.Knows (T : Terms) (s : Scene) (i : Nat) : Prop :=
  i < s.callbacks.length ∧ T.may i

theorem Terms.Knows.mono {i : Nat} (h : T.Knows s i) (hbegins : s.callbacks <+: s'.callbacks) :
    T.Knows s' i :=
  ⟨Nat.lt_of_lt_of_le h.1 hbegins.length_le, h.2⟩

/-- What is done with a callback does not depend on the scene in which it is looked up. -/
theorem Terms.Knows.stable {i : Nat} (h : T.Knows s i) {t t' : Scene} (hlevel : s.Level t)
    (hbegins : t.callbacks <+: t'.callbacks) : t.callback i = t'.callback i :=
  (Scene.callback_eq_of_isPrefix hbegins (hlevel.callbacks ▸ h.1)).symm

/-- Registering a callback, and the number under which it is known then. -/
theorem run_register {t : Scene} (hwaiting : ∀ i ∈ q.waiting, i < t.callbacks.length) (g : Gate)
    (event : Event) :
    (q.under g t).run (adapting (Adapter.register event)) =
      match t.perform (.register event) with
      | (.ok _, t') => (.ok (t'.callback t.callbacks.length), q.under g t')
      | (.error e, t') => (.error (.trace e), q.under g t') := by
  rw [Machine.run_adapting, Scene.perform]
  change ((t.adapter.run (Adapter.register event)).1.mapError EvalError.trace, _) = _
  change (_, ({ q.under g t with adapter := (t.adapter.run (Adapter.register event)).2 } : Machine)) = _
  rcases t.adapter.run (Adapter.register event) with ⟨result, a⟩
  cases result with
  | error e => rfl
  | ok registration =>
      let t' : Scene := { t with adapter := a, callbacks := t.callbacks ++ [registration] }
      have hunder : q.under g t' = { q.under g t with adapter := a } :=
        Side.under_eq (List.prefix_append _ [registration]) hwaiting
      have hcallback : t'.callback t.callbacks.length = registration := by
        simp [t', Scene.callback]
      exact Prod.ext (congrArg Except.ok hcallback.symm) hunder.symm

/-- Registers a callback, which is then known by its number. -/
theorem accounts_register {f : Registration → Running α} {Q : α → Side → Prop}
    (hfits : T.Fits q s) (event : Event)
    (hnext : ∀ s' i, T.Fits q s' → T.Knows s' i →
      Accounts T q s' (fun t => f (t.callback i)) Q) :
    Accounts T q s (fun _ => adapting (Adapter.register event) >>= f) Q := by
  have hrun {t : Scene} (g : Gate) (hlevel : s.Level t) :=
    run_register (q := q) (t := t) (fun i hi => hlevel.callbacks ▸ (hfits.waiting i hi).1) g event
  have hvisits (t : Scene) : (t.perform (.register event)).2.visits = t.visits := by
    simp only [Scene.perform]
    rcases t.adapter.run (Adapter.register event) with ⟨_ | _, _⟩ <;> rfl
  cases hreply : (s.perform (.register event)).1 with
  | error e =>
      refine .move (r := .error (.trace e)) (p := q) (.register event) hfits trivial
        (fun {t g} hlevel ht => ⟨?_, hvisits t⟩) (fun hok => absurd hok Bool.false_ne_true)
        (by simp)
      have hrun := hrun g hlevel
      rw [hreply] at ht
      generalize t.perform (.register event) = result at ht hrun
      obtain ⟨reply, t'⟩ := result
      obtain rfl : reply = .error e := ht
      rw [Machine.run_bind, hrun]
  | ok answer =>
      have hregistered : Tells T.gate q s
          (fun _ => adapting (Adapter.register event) >>= fun _ => pure ())
          [(.register event, (s.perform (.register event)).1)] (s.perform (.register event)).2
          (.ok ()) q := by
        refine .move (.register event) (fun {t g} hlevel ht => ⟨?_, hvisits t⟩) fun _ => by
          rw [hreply]
          rfl
        have hrun := hrun g hlevel
        rw [hreply] at ht
        generalize t.perform (.register event) = result at ht hrun
        obtain ⟨reply, t'⟩ := result
        obtain rfl : reply = .ok answer := ht
        rw [Machine.run_bind, hrun]
        rfl
      have hbegins := (s.leads_perform (.register event)).callbacks_isPrefix
      have hknows : T.Knows (s.perform (.register event)).2 s.callbacks.length := by
        obtain ⟨⟨_, hcallbacks, hlength⟩, -⟩ := s.numbers_perform (.register event)
        rw [hreply] at hlength
        exact ⟨by rw [hcallbacks, List.length_append, hlength]; exact Nat.lt_succ_self _,
          hfits.new _ (Nat.le_refl _)⟩
      obtain ⟨log, s', r, q', haccount, hr⟩ := hnext _ _ (hfits.mono hbegins) hknows
      refine ⟨_ :: log, s', r, q', ⟨hregistered.andThen haccount.toTells
        fun {t t' g} hlevel hleads _ => ?_, haccount.fits,
        List.forall_mem_cons.mpr ⟨trivial, haccount.allowed⟩⟩, hr⟩
      obtain ⟨ht, rfl⟩ := Scene.leads_singleton.mp hleads
      have hrun := hrun g hlevel
      rw [hreply] at ht
      generalize t.perform (.register event) = result at ht hrun
      obtain ⟨reply, t'⟩ := result
      obtain rfl : reply = .ok answer := ht
      rw [Machine.run_bind, hrun, hlevel.callbacks]

/-- A callback is queued. -/
theorem accounts_enqueue {i : Nat} (hfits : T.Fits q s) (hi : T.Knows s i) (callback arg : Value) :
    Accounts T q s (fun t => Native.enqueue ⟨t.callback i, callback, arg⟩) fun _ _ => True := by
  refine .silent (r := .ok ()) (p := { q with errands := q.errands.push ⟨i, callback, arg⟩ })
    ⟨fun j hj => ?_, hfits.new, hfits.listener, hfits.config⟩ (fun _ _ => rfl) fun _ _ => trivial
  simp only [Side.waiting, Queue.toList_push, List.map_append, List.map_singleton,
    List.append_assoc, List.singleton_append, List.mem_append, List.mem_cons] at hj
  rcases hj with hj | rfl | hj
  · exact hfits.waiting j (List.mem_append_left _ hj)
  · exact hi
  · exact hfits.waiting j (List.mem_append_right _ hj)

theorem keeps_fetch (event : Event) (url : String) (body : Option Json) :
    Keeps T (fun _ => True) (Native.fetch event url body) := by
  intro q s hfits
  refine .move (r := .ok (s.adapter.fetch event url body).1) (p := q) (.fetch event url body) hfits
    trivial (fun {t g} _ ht => ⟨?_, rfl⟩) (fun _ => rfl) fun _ _ => trivial
  have hanswer : (t.adapter.fetch event url body).1 = (s.adapter.fetch event url body).1 :=
    Answer.fetched.inj (Except.ok.inj ht)
  exact Prod.ext (congrArg Except.ok hanswer) rfl

/-- What is left to do when a native has been performed. -/
def concluding (onAnswer : Registration → Value → Value → Running Unit) :
    Native.Result → Running Value
  | .value v => return v
  | .answered registration callback answer => do
    onAnswer registration callback answer
    return .undefined

/-- Known callbacks are run in keeping with the terms when their answers are there. -/
def Terms.Answers (T : Terms) (onAnswer : Registration → Value → Value → Running Unit) : Prop :=
  ∀ {q : Side} {s : Scene} {i : Nat} (callback answer : Value), T.Fits q s → T.Knows s i →
    answer.isCallable = false →
    Accounts T q s (fun t => onAnswer (t.callback i) callback answer) fun _ _ => True

section

variable {onAnswer : Registration → Value → Value → Running Unit} {i : Nat}

theorem accounts_concluding (h : T.Answers onAnswer) (hfits : T.Fits q s) (hi : T.Knows s i)
    (callback : Value) {answer : Value} (hinert : answer.isCallable = false) :
    Accounts T q s (fun t => concluding onAnswer (.answered (t.callback i) callback answer))
      fun _ _ => True := by
  refine (h callback answer hfits hi hinert).bind (f := fun _ _ => pure Value.undefined)
    (fun {_ q' s'} _ hfits' _ => ?_) fun _ _ _ => rfl
  exact keeps_pure (Q := fun _ => True) trivial q' s' hfits'

theorem accounts_queued (onAnswer : Registration → Value → Value → Running Unit)
    (hfits : T.Fits q s) (hi : T.Knows s i) (callback arg : Value) :
    Accounts T q s (fun t => do
      Native.enqueue ⟨t.callback i, callback, arg⟩
      concluding onAnswer (.value .undefined)) fun _ _ => True := by
  refine (accounts_enqueue hfits hi callback arg).bind
    (f := fun _ _ => concluding onAnswer (.value .undefined))
    (fun {_ q' s'} _ hfits' _ => ?_) fun _ _ _ => rfl
  exact keeps_pure (Q := fun _ => True) trivial q' s' hfits'

/-- What becomes of a callback when there is an answer to its request. -/
def receive (url : String) (registration : Registration) (callback : Value) :
    Except HostError Json → Running Native.Result
  | .ok response => do
    let value ← make (Store.ofJson response)
    if url.startsWith "data:" then return .answered registration callback value
    else
      Native.enqueue ⟨registration, callback, value⟩
      return .value .undefined
  | .error error =>
    if url.startsWith "data:" then throw (.host error)
    else do
      Native.enqueue ⟨registration, callback, .undefined⟩
      return .value .undefined

theorem awaitAnswer_eq (event : Event) (registration : Registration) (callback target : Value) :
    awaitAnswer event registration callback target = (do
      let request ← read fun s => s.request event target
      let answer ← Native.fetch event request.1 request.2
      receive request.1 registration callback answer) := by
  refine congrArg (_ >>= ·) (funext fun request => ?_)
  refine congrArg (_ >>= ·) (funext fun answer => ?_)
  cases answer with
  | ok response =>
      refine congrArg (_ >>= ·) (funext fun value => ?_)
      split <;> rfl
  | error error =>
      dsimp only [receive]
      split <;> rfl

theorem accounts_receive (h : T.Answers onAnswer) (hfits : T.Fits q s) (hi : T.Knows s i)
    (url : String) (callback : Value) (answer : Except HostError Json) :
    Accounts T q s (fun t => receive url (t.callback i) callback answer >>= concluding onAnswer)
      fun _ _ => True := by
  cases answer with
  | ok response =>
      simp only [receive, bind_assoc]
      refine (keeps_make (Q := fun v => v.isCallable = false) (Store.isCallable_ofJson response) q s
        hfits).bind (fun {value q' s'} hinert hfits' hbegins => ?_) fun value hlevel hbegins => ?_
      · split
        · simp only [pure_bind]
          exact accounts_concluding h hfits' (hi.mono hbegins) callback hinert
        · simp only [bind_assoc, pure_bind]
          exact accounts_queued onAnswer hfits' (hi.mono hbegins) callback value
      · rw [hi.stable hlevel hbegins]
  | error error =>
      dsimp only [receive]
      split
      · exact keeps_throw (Q := fun _ => True) _ q s hfits
      · simp only [bind_assoc, pure_bind]
        exact accounts_queued onAnswer hfits hi callback .undefined

theorem accounts_awaitAnswer (h : T.Answers onAnswer) (hfits : T.Fits q s) (hi : T.Knows s i)
    (event : Event) (callback target : Value) :
    Accounts T q s (fun t => awaitAnswer event (t.callback i) callback target >>= concluding onAnswer)
      fun _ _ => True := by
  simp only [awaitAnswer_eq, bind_assoc]
  refine ((elementary_keeps T).read (Q := fun _ => True) (fun _ _ _ _ => trivial) q s hfits).bind
    (fun {request q₁ s₁} _ hfits₁ hbegins₁ => ?_) fun request hlevel hbegins => ?_
  · refine (keeps_fetch event request.1 request.2 q₁ s₁ hfits₁).bind
      (fun {answer q₂ s₂} _ hfits₂ hbegins₂ => ?_) fun answer hlevel hbegins => ?_
    · exact accounts_receive h hfits₂ ((hi.mono hbegins₁).mono hbegins₂) request.1 callback answer
    · rw [(hi.mono hbegins₁).stable hlevel hbegins]
  · rw [hi.stable hlevel hbegins]

/-- A registered callback becomes the listener, if there is none. -/
def listen (registration : Registration) (callback : Value) : Running Native.Result := do
  if (← get).isListening then
    adapting (Adapter.discard registration)
    throw .alreadyListening
  modify fun m => { m with listener := some ⟨registration, callback⟩ }
  return .value .undefined

theorem run_listen (m : Machine) (registration : Registration) (callback : Value)
    (f : Native.Result → Running α) :
    m.run (listen registration callback >>= f) =
      if m.isListening then m.run (do
        adapting (Adapter.discard registration)
        throw .alreadyListening)
      else Machine.run { m with listener := some ⟨registration, callback⟩ } (f (.value .undefined)) := by
  rw [listen, bind_assoc, Machine.run_bind, Machine.run_get]
  dsimp only
  split
  · simp only [Machine.run_bind, Machine.run_adapting]
    rcases m.adapter.run (Adapter.discard registration) with ⟨result, a⟩
    cases result <;> rfl
  · rfl

theorem accounts_listen (hfits : T.Fits q s) (hi : T.Knows s i) (callback : Value) :
    Accounts T q s (fun t => listen (t.callback i) callback >>= concluding onAnswer)
      fun _ _ => True := by
  cases hl : q.listener with
  | some l =>
      have hrefused : Accounts T q s (fun t => do
          adapting (Adapter.discard (t.callback i))
          throw .alreadyListening) fun (_ : Value) _ => True := by
        refine (accounts_ask (.discard i) (x := fun t => Adapter.discard (t.callback i))
          (a := fun _ => .done) (fun _ => ()) hfits trivial (fun t hlevel => ?_)
          fun _ => rfl).bind (f := fun _ _ => throw .alreadyListening)
          (fun {_ q' s'} _ hfits' _ => keeps_throw (Q := fun _ => True) _ q' s' hfits') fun _ _ _ => rfl
        simp only [Scene.perform, Scene.getElem?_callbacks (hlevel.callbacks ▸ hi.1)]
      refine hrefused.congr fun t g _ => ?_
      have hlistening : (q.under g t).isListening = true := by
        simp [Machine.isListening, Side.under, hl]
      rw [run_listen, if_pos hlistening]
  | none =>
      refine .silent (r := .ok .undefined) (p := { q with listener := some (i, callback) })
        ⟨fun j hj => ?_, hfits.new, fun l hlisten => ?_, hfits.config⟩ (fun {t g} _ _ => ?_) fun _ _ => trivial
      · simp only [Side.waiting, Option.toList_some, List.map_singleton, List.mem_append,
          List.mem_singleton] at hj
        rcases hj with hj | rfl
        · exact hfits.waiting j (List.mem_append_left _ hj)
        · exact hi
      · cases hl.symm.trans (hfits.listener l hlisten)
      · have hlistening : (q.under g t).isListening = false := by
          simp [Machine.isListening, Side.under, hl]
        rw [run_listen, if_neg (by simp [hlistening])]
        rfl

theorem subscribe_listen (values : List Value) : Native.subscribe .listen values = (do
    let a ← Native.arguments "listen" values
    let callback ← MonadExcept.ofExcept a.callback
    let registration ← adapting (Adapter.register .listen)
    listen registration callback) := rfl

theorem subscribe_immediate (values : List Value) : Native.subscribe .immediate values = (do
    let a ← Native.arguments "immediate" values
    let callback ← MonadExcept.ofExcept a.callback
    let registration ← adapting (Adapter.register .immediate)
    Native.enqueue ⟨registration, callback, a.value 0⟩
    return .value .undefined) := rfl

theorem keeps_subscribe (h : T.Answers onAnswer) (event : Event) (values : List Value) :
    Keeps T (fun _ => True) (Native.subscribe event values >>= concluding onAnswer) := by
  -- every host operation first registers its callback
  have hregister {next : Arguments → Value → Registration → Running Native.Result}
      (hnext : ∀ {q : Side} {s : Scene} {i : Nat} (a : Arguments) (callback : Value),
        T.Fits q s → T.Knows s i → Accounts T q s
          (fun t => next a callback (t.callback i) >>= concluding onAnswer) fun _ _ => True) :
      Keeps T (fun _ => True) ((do
        let a ← Native.arguments event.name values
        let callback ← MonadExcept.ofExcept a.callback
        let registration ← adapting (Adapter.register event)
        next a callback registration) >>= concluding onAnswer) := by
    simp only [bind_assoc]
    refine ((elementary_keeps T).arguments event.name values).bind fun a _ => ?_
    refine ((elementary_keeps T).ofExcept (Q := fun _ => True) fun _ _ => trivial).bind
      fun callback _ => ?_
    intro q s hfits
    exact accounts_register hfits event fun s' i hfits' hi => hnext a callback hfits' hi
  by_cases hrequest : event.isRequest = true
  · rw [subscribe_of_isRequest hrequest]
    exact hregister fun a callback hfits hi =>
      accounts_awaitAnswer h hfits hi event callback (a.value 0)
  · cases event with
    | get | post | put | delete => exact absurd rfl hrequest
    | immediate =>
        rw [subscribe_immediate]
        refine hregister fun a callback hfits hi => ?_
        simp only [bind_assoc, pure_bind]
        exact accounts_queued onAnswer hfits hi callback (a.value 0)
    | listen =>
        rw [subscribe_listen]
        exact hregister fun _ callback hfits hi => accounts_listen hfits hi callback

/-! ## Calls of natives -/

theorem callNative_eq (callee : Option Expr) (n : Native) (args : List Value) :
    callNative onAnswer callee n args = (do
      permit callee (.native n) args
      n.perform args >>= concluding onAnswer) := by
  refine congrArg (_ >>= ·) (funext fun _ => ?_)
  refine congrArg (_ >>= ·) (funext fun result => ?_)
  cases result <;> rfl

theorem keeps_callNative (h : T.Answers onAnswer) (callee : Option Expr) (n : Native)
    (args : List Value) : Keeps T (fun _ => True) (callNative onAnswer callee n args) := by
  rw [callNative_eq]
  have hperform {x : Running Native.Result}
      (hx : Keeps T (fun _ => True) (x >>= concluding onAnswer)) :
      Keeps T (fun _ => True) (do
        permit callee (.native n) args
        x >>= concluding onAnswer) :=
    (keeps_permit callee (.native n) args).bind fun _ _ => hx
  cases n with
  | require =>
      refine hperform ?_
      simp only [Native.perform, bind_assoc, pure_bind]
      refine ((elementary_keeps T).arguments "require" args).bind fun a _ => ?_
      refine ((elementary_keeps T).ofExcept (Q := fun _ => True) fun _ _ => trivial).bind
        fun name _ => ?_
      exact ((elementary_keeps T).importModule (fun _ => trivial) name).bind fun _ _ =>
        keeps_pure trivial
  | console name =>
      refine hperform ?_
      simp only [Native.perform, bind_assoc, pure_bind]
      exact (keeps_log args).bind fun _ _ => keeps_pure trivial
  | builder name =>
      refine hperform ?_
      simp only [Native.perform, bind_assoc, pure_bind]
      exact ((elementary_keeps T).build name args).bind fun _ _ => keeps_pure trivial
  | respond =>
      refine hperform ?_
      simp only [Native.perform, bind_assoc, pure_bind]
      exact (keeps_answer _).bind fun _ _ => keeps_pure trivial
  | host event => exact hperform (keeps_subscribe h event args)
  | trace name =>
      -- what is recorded is what the gate has let through
      intro q s hfits
      simp only [Native.perform, bind_assoc, pure_bind]
      refine (accounts_permit hfits callee (.native (.trace name)) args).bind
        (fun {_ q' s'} hgate hfits' _ => ?_) fun _ _ _ => rfl
      obtain ⟨rfl, hok⟩ := hgate
      refine (accounts_record hfits' hok).bind (fun {v q₁ s₁} _ hfits₁ _ => ?_) fun _ _ _ => rfl
      exact keeps_pure (Q := fun _ => True) trivial q₁ s₁ hfits₁

end

/-! ## Firing -/

section

variable {t : Scene} {i : Nat} {c : Option Nat}

/-- What entering a callback comes to. -/
theorem Scene.perform_enter_cases (hi : i < t.callbacks.length) (c : Option Nat) :
    (∃ e a, t.adapter.run (Adapter.enter (t.callback i) (t.conversation? c)) = (.error e, a) ∧
      t.perform (.enter i c) = (.error e, { t with adapter := a })) ∨
    ∃ firing a, t.adapter.run (Adapter.enter (t.callback i) (t.conversation? c)) = (.ok firing, a) ∧
      t.perform (.enter i c) = (.ok .done, { t with
        adapter := a
        visits := ⟨i, firing, t.adapter.whereabouts⟩ :: t.visits
        entered := i :: t.entered }) := by
  simp only [perform, getElem?_callbacks hi]
  rcases t.adapter.run (Adapter.enter (t.callback i) (t.conversation? c)) with ⟨result, a⟩
  cases result with
  | error e => exact .inl ⟨e, a, rfl, rfl⟩
  | ok firing => exact .inr ⟨firing, a, rfl, rfl⟩

theorem Scene.perform_leave {visit : Visit} {visits : List Visit} (h : t.visits = visit :: visits)
    (completed : Bool) :
    t.perform (.leave completed) =
      { t with visits }.ask (Adapter.leave visit.firing completed) fun _ => .done := by
  simp only [perform, h]

/-- A callback that cannot be entered. -/
theorem Tells.fire_of_error {g : Gate} {x : Running α} {e : TraceError}
    (hi : i < s.callbacks.length) (henter : (s.perform (.enter i c)).1 = .error e) :
    Tells g q s (fun t => fire (t.callback i) (t.conversation? c) x)
      [(.enter i c, (s.perform (.enter i c)).1)] (s.perform (.enter i c)).2 (.error (.trace e)) q := by
  refine .move (.enter i c) (fun {t g'} hlevel ht => ?_) nofun
  rw [henter] at ht
  rcases Scene.perform_enter_cases (hlevel.callbacks ▸ hi : i < t.callbacks.length) c with
    ⟨e', a, hrun, hperform⟩ | ⟨_, _, _, hperform⟩
  · rw [hperform] at ht ⊢
    cases ht
    refine ⟨?_, rfl⟩
    rw [fire, Machine.run_bind, Machine.run_adapting,
      show (q.under g' t).adapter = t.adapter from rfl, hrun]
    rfl
  · rw [hperform] at ht
    cases ht

theorem isOk_of_bind {ε β : Type} {r : Except ε α} {f : α → Except ε β}
    (h : (r.bind f).isOk = true) : r.isOk = true := by
  cases r with
  | error e => cases h
  | ok _ => rfl

/-- A callback that is entered, and left when it is over. -/
theorem Tells.fire {g : Gate} {x : Running α} {log : Log} {answer : Answer}
    {r : Except EvalError α} (hi : i < s.callbacks.length)
    (henter : (s.perform (.enter i c)).1 = .ok answer)
    (h : Tells g q (s.perform (.enter i c)).2 (fun _ => x) log s' r q') :
    let leave := s'.perform (.leave r.toBool)
    Tells g q s (fun t => Running.fire (t.callback i) (t.conversation? c) x)
      ((.enter i c, (s.perform (.enter i c)).1) :: (log ++ [(.leave r.toBool, leave.1)])) leave.2
      (r.bind fun _ => leave.1.settle fun _ => ()) q' := by
  intro leave
  refine ⟨⟨rfl, Scene.leads_append.mpr ⟨s', h.leads, s'.leads_perform _⟩⟩, ?_, fun hok => ?_⟩
  · rintro t t' g' hlevel ⟨ht, hleads⟩ hg
    obtain ⟨t₂, hleads, hleave⟩ := Scene.leads_append.mp hleads
    have hlevel' := hlevel.leads (s.leads_perform (.enter i c)) ⟨ht, rfl⟩
    rw [henter] at ht
    rcases Scene.perform_enter_cases (hlevel.callbacks ▸ hi : i < t.callbacks.length) c with
      ⟨_, _, _, hperform⟩ | ⟨firing, a, hrun, hperform⟩
    · rw [hperform] at ht
      cases ht
    · have hg' : g.Serves r g' := hg.imp_right fun hg => ⟨isOk_of_bind hg.1, hg.2⟩
      obtain ⟨hbody, hvisits⟩ := h.run hlevel' hleads hg'
      rw [hperform] at hbody hvisits
      obtain ⟨hreply, rfl⟩ := Scene.leads_singleton.mp hleave
      rw [Scene.perform_leave hvisits] at hreply ⊢
      refine ⟨Machine.run_fire (?_ : _ = (Except.ok firing, _)) hbody ?_, rfl⟩
      · rw [Machine.run_adapting, show (q.under g' t).adapter = t.adapter from rfl, hrun]
        rfl
      · rw [Machine.run_adapting, ← hreply]
        exact Prod.ext (Reply.settle_map (fun _ => rfl) _).symm rfl
  · have hr : r.isOk = true := isOk_of_bind hok
    refine List.forall_mem_cons.mpr ⟨by rw [henter]; rfl, List.forall_mem_append.mpr
      ⟨h.strict hr, List.forall_mem_singleton.mpr ?_⟩⟩
    cases r with
    | error e => cases hr
    | ok _ => exact Reply.isOk_of_settle hok

/-- A callback is entered, in some conversation, and runs in keeping with the terms. -/
theorem exists_fire {x : Running α} (hfits : T.Fits q s) (hi : i < s.callbacks.length)
    (c : Option Nat) (hx : Keeps T (fun _ => True) x) :
    ∃ log s' r q', Tells T.gate q s (fun t => fire (t.callback i) (t.conversation? c) x)
      ((.enter i c, (s.perform (.enter i c)).1) :: log) s' r q' ∧ T.Fits q' s' ∧
      ∀ entry ∈ log, T.Allows entry.1 := by
  have hbegins := (s.leads_perform (.enter i c)).callbacks_isPrefix
  cases henter : (s.perform (.enter i c)).1 with
  | error e =>
      refine ⟨[], _, _, q, henter ▸ Tells.fire_of_error hi henter, hfits.mono hbegins,
        List.forall_mem_nil _⟩
  | ok answer =>
      obtain ⟨log, s', r, q', haccount, -⟩ := hx q _ (hfits.mono hbegins)
      have htells := Tells.fire hi henter haccount.toTells
      rw [henter] at htells
      refine ⟨_, _, _, q', htells,
        haccount.fits.mono (s'.leads_perform (.leave r.toBool)).callbacks_isPrefix,
        List.forall_mem_append.mpr ⟨haccount.allowed, List.forall_mem_singleton.mpr trivial⟩⟩

theorem accounts_fire {x : Running α} (hfits : T.Fits q s) (hi : T.Knows s i)
    (hx : Keeps T (fun _ => True) x) :
    Accounts T q s (fun t => fire (t.callback i) none x) fun _ _ => True := by
  obtain ⟨log, s', r, q', htells, hfits', hallowed⟩ := exists_fire hfits hi.1 none hx
  exact ⟨_, s', r, q', ⟨htells, hfits', List.forall_mem_cons.mpr ⟨⟨rfl, hi.2⟩, hallowed⟩⟩,
    fun _ _ => trivial⟩

end

/-! ## Programs -/

/-- Whatever a program does keeps to the terms. -/
theorem pervasive_keeps (T : Terms) : Pervasive .all fun Q x => Keeps T Q x where
  toElementary := elementary_keeps T
  permit callee _ args _ := keeps_permit callee _ args
  native _ _ _ := by
    refine (keeps_callNative (fun _ _ hfits _ _ => ?_) _ _ _).imp fun v _ => v.reaches_all
    exact keeps_pure (Q := fun _ => True) trivial _ _ hfits
  answering _ _ _ hbody := by
    refine (keeps_callNative (fun callback answer hfits hi hinert => ?_) _ _ _).imp
      fun v _ => v.reaches_all
    exact accounts_fire hfits hi ((hbody callback answer callback.reaches_all
      answer.reaches_all hinert).imp fun _ _ => trivial)
  inserted _ hs := hs.elim

theorem keeps_call (function : Value) (args : List Value) :
    Keeps T (fun _ => True) (call function args) :=
  ((pervasive_keeps T).callFrom (fun e _ => e.proper_all) function.reaches_all
    fun v _ => v.reaches_all).imp fun _ _ => trivial

theorem keeps_program (env : Environment) (p : Program) :
    Keeps T (fun _ => True) (Stmt.execBlock (fun callee => callFrom callee) env p) :=
  ((pervasive_keeps T).program env (Stmt.properList_all p)).imp fun _ _ => trivial

/-! ## The queue -/

theorem Side.pop?_tasks {g : Gate} {t : Scene} {errand : Errand} {errands : Queue Errand}
    (h : q.errands.pop? = some (errand, errands)) :
    (q.under g t).tasks.pop? =
      some (Side.task t errand, (Side.under { q with errands } g t).tasks) := by
  change (q.errands.map (Side.task t)).pop? = _
  rw [Queue.pop?_map, h]
  rfl

theorem Side.pop?_tasks_of_none {g : Gate} {t : Scene} (h : q.errands.pop? = none) :
    (q.under g t).tasks.pop? = none := by
  change (q.errands.map (Side.task t)).pop? = _
  rw [Queue.pop?_map, h]
  rfl

theorem run_drain_of_none {m : Machine} (h : m.tasks.pop? = none) (limit remaining : Nat) :
    m.run (drain limit remaining) = (.ok (), m) := by
  cases remaining with
  | zero =>
      rw [drain, Machine.run_bind, Machine.run_get]
      dsimp only
      rw [h]
      rfl
  | succ remaining =>
      rw [drain, Machine.run_bind, Machine.run_get]
      dsimp only
      rw [h]
      rfl

theorem run_drain_zero {m : Machine} {popped : Task × Queue Task} (h : m.tasks.pop? = some popped)
    (limit : Nat) : m.run (drain limit 0) = (.error (.queueLimit limit), m) := by
  rw [drain, Machine.run_bind, Machine.run_get]
  dsimp only
  rw [h]
  rfl

theorem run_drain_succ {m : Machine} {task : Task} {tasks : Queue Task}
    (h : m.tasks.pop? = some (task, tasks)) (limit remaining : Nat) :
    m.run (drain limit (remaining + 1)) = Machine.run { m with tasks } (do
      fire task.registration none (call task.callback [task.arg])
      drain limit remaining) := by
  rw [drain, Machine.run_bind, Machine.run_get]
  dsimp only
  rw [h]
  rfl

/-- The callbacks that wait run in keeping with the terms.  When all went well, none is left. -/
theorem accounts_drain (hfits : T.Fits q s) (limit remaining : Nat) :
    Accounts T q s (fun _ => drain limit remaining) fun _ q' => q'.errands.toList = [] := by
  induction remaining generalizing q s with
  | zero =>
      cases hpop : q.errands.pop? with
      | none =>
          exact .silent (r := .ok ()) (p := q) hfits
            (fun {t g} _ _ => run_drain_of_none (Side.pop?_tasks_of_none hpop) limit 0)
            fun _ _ => Queue.pop?_eq_none_iff.mp hpop
      | some popped =>
          exact .silent (r := .error (.queueLimit limit)) (p := q) hfits
            (fun {t g} _ _ => run_drain_zero (Side.pop?_tasks hpop) limit) nofun
  | succ remaining ih =>
      cases hpop : q.errands.pop? with
      | none =>
          exact .silent (r := .ok ()) (p := q) hfits
            (fun {t g} _ _ => run_drain_of_none (Side.pop?_tasks_of_none hpop) limit (remaining + 1))
            fun _ _ => Queue.pop?_eq_none_iff.mp hpop
      | some popped =>
          obtain ⟨errand, errands⟩ := popped
          have hwaiting : q.waiting = errand.callback :: Side.waiting { q with errands } := by
            rw [Side.waiting, Queue.toList_of_pop? hpop]
            rfl
          have hknows : T.Knows s errand.callback :=
            hfits.waiting _ (hwaiting ▸ List.mem_cons_self)
          have hfits' : T.Fits { q with errands } s :=
            ⟨fun i hi => hfits.waiting i (hwaiting ▸ List.mem_cons_of_mem _ hi), hfits.new,
              hfits.listener, hfits.config⟩
          have hnext : Accounts T { q with errands } s (fun t => do
              fire (t.callback errand.callback) none (call errand.function [errand.arg])
              drain limit remaining) fun _ q' => q'.errands.toList = [] :=
            (accounts_fire hfits' hknows (keeps_call errand.function [errand.arg])).bind
              (f := fun _ _ => drain limit remaining) (fun _ hfits'' _ => ih hfits'')
              fun _ _ _ => rfl
          exact hnext.congr fun t g _ => run_drain_succ (Side.pop?_tasks hpop) limit remaining

end TraceLoom
