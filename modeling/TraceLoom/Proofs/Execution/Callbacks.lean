import TraceLoom.Proofs.Execution.Recording

/-!
Callbacks.  While a callback runs, its context is the active one, and the one before is held.  When
it is over, however it ends, the recorder goes on in the context before.
-/

namespace TraceLoom

open Script Instrument Running

variable {P : Expectation} {W W' : World} {m m' n n' : Machine}

/-! ## Worlds with other contexts held -/

namespace World

def withHeld (W : World) (held : List ContextId) : World :=
  { W with held }

theorem Ready.withHeld (h : W.Ready) (held : List ContextId) : (W.withHeld held).Ready :=
  h

theorem le_withHeld {held : List ContextId} (h : W.withHeld held ≤ W') :
    W ≤ W'.withHeld W.held :=
  ⟨h.arrays, h.objects, h.scopes, h.identities, h.blocks, h.bound, h.home, rfl⟩

end World

theorem EnvRel.withHeld {env env' : Environment} (h : EnvRel W env env') (held : List ContextId) :
    EnvRel (W.withHeld held) env env' :=
  ⟨h.scopes, h.home⟩

theorem ClosureRel.withHeld {c c' : Closure} (h : ClosureRel P W c c') (held : List ContextId) :
    ClosureRel P (W.withHeld held) c c' :=
  ⟨h.name, h.params, h.bindsSelf, h.env.withHeld held, h.woven, h.fits, h.self⟩

theorem ValueRel.withHeld {v v' : Value} (h : ValueRel P W v v') (held : List ContextId) :
    ValueRel P (W.withHeld held) v v' := by
  cases h with
  | array ha => exact .array ha
  | object ha => exact .object ha
  | function hi hc => exact .function hi (hc.withHeld held)
  | trace hi t => exact .trace (W := W.withHeld held) hi t
  | _ => constructor

theorem StoreRel.withHeld {s t : Store} (h : StoreRel P W s t) (held : List ContextId) :
    StoreRel P (W.withHeld held) s t where
  arrays := h.arrays
  objects := h.objects
  scopes := h.scopes
  identities := h.identities
  items hab := (h.items hab).imp fun _ _ hv => hv.withHeld held
  properties hab := (h.properties hab).imp fun _ _ hf => ⟨hf.1, hf.2.withHeld held⟩
  bindings hab _ hn :=
    rel_imp (fun _ _ hx => ⟨hx.value.withHeld held, hx.constant⟩) (h.bindings hab hn)
  furnished := ⟨h.furnished.builder, h.furnished.callbacks, h.furnished.closure,
    h.furnished.bound, h.furnished.blocks⟩

/-- Only the adapters are others, and other contexts are held. -/
theorem MachineRel.withAdapters (h : MachineRel P W m m') {a a' : Adapter} {held : List ContextId}
    (ha : a = { a' with recorder := none })
    (htracks : ∃ r, a'.recorder = some r ∧ r.Tracks m'.registered held) :
    MachineRel P (W.withHeld held) { m with adapter := a } { m' with adapter := a' } where
  config := h.config
  options := h.options
  gate := h.gate
  gate' := h.gate'
  adapter := ha
  tracks := htracks
  store := h.store.withHeld held
  globals := h.globals.withHeld held
  home := h.home
  output := h.output
  tasks := h.tasks.imp fun _ _ ht =>
    ⟨ht.registration, ht.callback.withHeld held, ht.arg.withHeld held⟩
  listener := rel_imp (fun _ _ hl => ⟨hl.registration, hl.event, hl.callback.withHeld held⟩) h.listener

/-! ## Entering and leaving -/

namespace Recorder

variable {strict : Prop} {callbacks held : List ContextId} {r : Recorder}

/-- The active context starts again, with arguments at hand. -/
def begin (args : List Trace) : Recording Unit := do
  Recorder.restart
  Recorder.pushArgs args

/-- The body of a callback ends. -/
def finish : Recording Unit := do
  Recorder.exit
  Recorder.restart

theorem goes_begin (h : r.Tracks callbacks held) {args : List Trace}
    (hargs : ∀ t ∈ args, Trace.Plain t) :
    Goes strict callbacks held r (Recording.run (begin args) r) fun _ r' =>
      strict → r'.frames ≠ [] := by
  refine (Goes.of_map (x := Recorder.restart) (Goes.perform h .restart nofun (fun _ => rfl)
    fun _ => Operation.leads_restart _)).bind fun _ r₁ h₁ _ ⟨hframes, _⟩ => ?_
  refine (Goes.of_map (x := Recorder.pushArgs args) (Goes.perform h₁ (.pushArgs args) hargs
    (fun _ => rfl) fun _ => Operation.leads_pushArgs args _)).imp
    fun _ r₂ ⟨hframes', _⟩ hstrict => ?_
  rw [hframes' hstrict]
  obtain ⟨f, hf⟩ := hframes hstrict
  rw [hf]
  exact List.cons_ne_nil _ _

theorem goes_finish (h : r.Tracks callbacks held) (hopen : strict → r.frames ≠ []) :
    Goes strict callbacks held r (Recording.run finish r) fun _ _ => True := by
  refine (Goes.of_map (x := Recorder.exit) (Goes.perform h .exit nofun (fun _ => rfl)
    fun hstrict => Operation.leads_exit_last (hopen hstrict))).bind fun _ r₁ h₁ _ _ => ?_
  exact (Goes.of_map (x := Recorder.restart) (Goes.perform h₁ .restart nofun (fun _ => rfl)
    fun _ => Operation.leads_restart _)).imp fun _ _ _ => trivial

theorem run_switchTo {id : ContextId} {c : Context} (hc : r.context? id = some c) :
    Recording.run (switchTo id) r = (.ok r.active, { r with active := id }) := by
  rw [switchTo, Recording.run_bind, Recording.run_get]
  dsimp only
  rw [hc]
  rfl

end Recorder

namespace Adapter

variable {α β : Type} {a : Adapter} {r : Recorder}

theorem run_record_bind (h : a.recorder = some r) (x : Recording α) (f : α → Recording β) :
    a.run (record x >>= fun v => record (f v)) = a.run (record (x >>= f)) := by
  rw [run_bind, run_record h, run_record h, Recording.run_bind]
  rcases x.run r with ⟨result, r'⟩
  cases result with
  | error e => rfl
  | ok v => exact run_record rfl (f v)

theorem run_enter (h : a.recorder = some r) {registration : Registration} {id : ContextId}
    (hid : registration.context = some id) {c : Context} (hc : r.context? id = some c)
    (conversation : Option ConversationId) :
    a.run (enter registration conversation) =
      match Recording.run (Recorder.begin [.name "clos", .name registration.event.param])
          { r with active := id } with
      | (.ok _, r') => (.ok ⟨registration.event, some r.active, a.conversation⟩,
          { a with recorder := some r', conversation := conversation.or registration.conversation })
      | (.error e, r') => ((Recording.run (Recorder.switchTo r.active) r').1.bind fun _ => .error e,
          { a with recorder := some (Recording.run (Recorder.switchTo r.active) r').2 }) := by
  have hbegin : run { a with recorder := some { r with active := id } } (do
        record Recorder.restart
        record (Recorder.pushArgs [.name "clos", .name registration.event.param])) =
      ((Recording.run (Recorder.begin [.name "clos", .name registration.event.param])
          { r with active := id }).1,
        { a with recorder := some (Recording.run
          (Recorder.begin [.name "clos", .name registration.event.param])
          { r with active := id }).2 }) :=
    (run_record_bind rfl _ _).trans (run_record rfl _)
  rw [enter, run_bind, run_get]
  dsimp only
  rw [h, hid]
  dsimp only
  rw [run_bind, run_record h, Recorder.run_switchTo hc]
  dsimp only
  rw [run_bind, run_tryCatch, hbegin]
  rcases Recording.run (Recorder.begin _) { r with active := id } with ⟨result, r'⟩
  cases result with
  | ok _ => rfl
  | error e =>
      dsimp only
      rw [run_bind, run_record rfl]
      rcases Recording.run (Recorder.switchTo r.active) r' with ⟨result, r''⟩
      cases result <;> rfl

/-- The body of a callback ends; an error is kept for later. -/
theorem run_finish (h : a.recorder = some r) :
    a.run (tryCatch
        (do
          record Recorder.exit
          record Recorder.restart
          pure (.ok ()))
        fun error => pure (.error error) : Adapting (Except TraceError Unit)) =
      (.ok (Recording.run Recorder.finish r).1,
        { a with recorder := some (Recording.run Recorder.finish r).2 }) := by
  have hfinish : a.run (do
        record Recorder.exit
        record Recorder.restart) =
      ((Recording.run Recorder.finish r).1,
        { a with recorder := some (Recording.run Recorder.finish r).2 }) :=
    (run_record_bind h _ _).trans (run_record h _)
  have hassoc : (do
        record Recorder.exit
        record Recorder.restart
        pure (.ok ()) : Adapting (Except TraceError Unit)) =
      (do
        record Recorder.exit
        record Recorder.restart) >>= fun _ => pure (.ok ()) := by
    rw [bind_assoc]
  rw [run_tryCatch, hassoc, run_bind, hfinish]
  rcases Recording.run Recorder.finish r with ⟨result, r'⟩
  cases result <;> rfl

/-- What is left of the recorder once a callback is over. -/
def restored (r : Recorder) (isRepeating : Bool) (context previous : ContextId) : Recorder :=
  if isRepeating then { r with active := previous }
  else (Recording.run (Recorder.release context) { r with active := previous }).2

theorem run_leave (h : a.recorder = some r) {firing : Firing} {previous : ContextId}
    (hprevious : firing.previousContext = some previous) (completed : Bool)
    {closed : Except TraceError Unit} {r' : Recorder}
    (hclosed : (if completed then Recording.run Recorder.finish r else (.ok (), r)) = (closed, r'))
    {c : Context} (hc : r'.context? previous = some c) :
    a.run (leave firing completed) = (closed, { a with
      recorder := some (restored r' firing.event.isRepeating r.active previous)
      conversation := firing.previousConversation }) := by
  have hback : run { a with recorder := some r', conversation := firing.previousConversation } (do
        let _ ← record (Recorder.switchTo previous)
        if !firing.event.isRepeating then
          record (Recorder.release r.active)
          MonadExcept.ofExcept closed
        else MonadExcept.ofExcept closed) = (closed, { a with
          recorder := some (restored r' firing.event.isRepeating r.active previous)
          conversation := firing.previousConversation }) := by
    rw [run_bind, run_record rfl, Recorder.run_switchTo hc]
    dsimp only
    cases hrepeating : firing.event.isRepeating with
    | true => exact run_ofExcept _ _
    | false =>
        rw [Bool.not_false, if_pos rfl, run_bind, run_record rfl]
        exact run_ofExcept _ _
  rw [leave, run_bind, run_modify]
  dsimp only
  rw [run_bind, run_get]
  dsimp only
  rw [h, hprevious]
  dsimp only
  cases completed with
  | false =>
      obtain ⟨rfl, rfl⟩ := Prod.mk.inj hclosed
      rw [if_neg Bool.false_ne_true, pure_bind]
      exact hback
  | true =>
      rw [if_pos rfl] at hclosed ⊢
      rw [run_bind, run_finish rfl, hclosed]
      exact hback

/-- Without a recorder only the conversation changes. -/
theorem run_enter_of_none (h : a.recorder = none) (registration : Registration)
    (conversation : Option ConversationId) :
    a.run (enter registration conversation) =
      (.ok ⟨registration.event, none, a.conversation⟩,
        { a with conversation := conversation.or registration.conversation }) := by
  obtain ⟨recorder, _, _, _, _, _⟩ := a
  obtain rfl : recorder = none := h
  rw [enter, run_bind, run_get]
  dsimp only
  cases registration.context <;> rfl

theorem run_leave_of_none (h : a.recorder = none) (firing : Firing) (completed : Bool) :
    a.run (leave firing completed) =
      (.ok (), { a with conversation := firing.previousConversation }) := by
  rw [leave, run_bind, run_modify]
  dsimp only
  rw [run_bind, run_get]
  dsimp only
  rw [h]
  rfl

section

variable {callbacks held : List ContextId} {id : ContextId}

theorem tracks_restored (isRepeating : Bool) {previous : ContextId} (h : r.Tracks callbacks (previous :: held))
    (hroot : id ≠ Recorder.rootContext) (hne : id ≠ previous)
    (hid : isRepeating = false → id ∉ callbacks ++ held) :
    (restored r isRepeating id previous).Tracks callbacks held := by
  cases isRepeating with
  | true => exact h.switchBack
  | false =>
      rw [restored, if_neg Bool.false_ne_true, Recorder.run_release_of_ne hroot hne]
      exact h.switchBack.without hroot hne (hid rfl)

/-- Once a callback is over, what was held is as it was before, also the context before. -/
theorem holds_restored (isRepeating : Bool) {r' : Recorder}
    (h : ({ r with active := id } : Recorder).Holds (r.active :: held) r')
    (hr : ∃ c, r.context? r.active = some c) (hroot : id ≠ Recorder.rootContext)
    (hne : id ≠ r.active) (hid : id ∉ held) :
    r.Holds held (restored r' isRepeating id r.active) ∧
      (restored r' isRepeating id r.active).frames = r.frames := by
  have hrelease : restored r' false id r.active =
      ({ r' with active := r.active } : Recorder).without id := by
    rw [restored, if_neg Bool.false_ne_true,
      Recorder.run_release_of_ne (r := { r' with active := r.active }) hroot hne]
  have hothers : ∀ other ∈ r.active :: held, ∀ c, r.context? other = some c →
      (restored r' isRepeating id r.active).context? other = some c := by
    intro other hother c hc
    have hne' : other ≠ id := by
      rcases List.mem_cons.mp hother with rfl | hheld
      · exact hne.symm
      · exact ne_of_mem_of_not_mem hheld hid
    have hc' := h.others other hother hne' c hc
    cases isRepeating with
    | true => exact hc'
    | false =>
        rw [hrelease, Recorder.context?_without, if_neg hne']
        exact hc'
  have hactive : (restored r' isRepeating id r.active).active = r.active := by
    cases isRepeating with
    | true => rfl
    | false => rw [hrelease]; rfl
  obtain ⟨c, hc⟩ := hr
  refine ⟨⟨hactive, fun other hother _ => hothers other (List.mem_cons_of_mem _ hother)⟩, ?_⟩
  have hframes : (restored r' isRepeating id r.active).frames = c.frames :=
    Recorder.frames_eq (by rw [hactive]; exact hothers _ List.mem_cons_self c hc)
  exact hframes.trans (Recorder.frames_eq hc).symm

end

end Adapter

/-! ## Callbacks -/

theorem Machine.run_fire {α : Type} {m n k k' : Machine} {registration : Registration}
    {conversation : Option ConversationId} {callback : Running α} {firing : Firing}
    {result : Except EvalError α} {left : Except EvalError Unit}
    (henter : m.run (adapting (Adapter.enter registration conversation)) = (.ok firing, n))
    (hcallback : n.run callback = (result, k))
    (hleave : k.run (adapting (Adapter.leave firing result.toBool)) = (left, k')) :
    m.run (fire registration conversation callback) = (result.bind fun _ => left, k') := by
  rw [fire, run_bind, henter]
  dsimp only
  rw [run_bind, run_observe, hcallback]
  dsimp only
  rw [run_bind, run_observe, hleave]
  dsimp only
  rw [run_bind, run_ofExcept]
  cases result with
  | error e => rfl
  | ok _ => exact run_ofExcept _ _

/-- A context that can be entered, and left for good unless its callback may run again. -/
structure Enterable (W : World) (m : Machine) (isRepeating : Bool) (id : ContextId) : Prop where
  root : id ≠ Recorder.rootContext
  held : id ∉ W.held
  released : isRepeating = false → id ∉ m.registered
  live : ∀ r, m.adapter.recorder = some r → id ≠ r.active ∧ ∃ c, r.context? id = some c

/-- A callback is running in a context of its own, with the one before held. -/
structure Running.Inside (W : World) (m' : Machine) (r : Recorder) (id : ContextId) (n' : Machine) :
    Prop where
  before : m'.adapter.recorder = some r
  registered : n'.registered = m'.registered
  holds : ∃ r₀, n'.adapter.recorder = some r₀ ∧
    ({ r with active := id } : Recorder).Holds (r.active :: W.held) r₀

/-- Whatever became of a callback, its context can be left. -/
theorem leave_inside {r : Recorder} {id : ContextId} {firing firing' : Firing}
    (hrel : MachineRel P W m m') (hinside : Inside W m' r id n')
    (henterable : Enterable W m' firing'.event.isRepeating id)
    (hprevious : firing'.previousContext = some r.active)
    (hconversation : firing.previousConversation = firing'.previousConversation)
    {k k' : Machine} (hle : W.withHeld (r.active :: W.held) ≤ W')
    (hrel' : MachineRel P W' k k') (hstays : n'.Stays (r.active :: W.held) k') (completed : Bool)
    (hopen : completed = true → P.strict → k'.frames ≠ []) :
    ∃ closed l l', k.run (adapting (Adapter.leave firing completed)) = (.ok (), l) ∧
      k'.run (adapting (Adapter.leave firing' completed)) = (closed, l') ∧
      MachineRel P (W'.withHeld W.held) l l' ∧ m'.Stays W.held l' ∧ l'.frames = m'.frames ∧
      (completed = false → closed = .ok ()) ∧
      ∀ e, closed = .error e → P.Allows e ∧ P.Stops e := by
  obtain ⟨r₀, hr₀, hholds⟩ := hinside.holds
  obtain ⟨r₁, hr₁, hholds', hnew⟩ := hstays r₀ hr₀
  obtain ⟨r₁', hr₁', htracks⟩ := hrel'.tracks
  obtain rfl := Option.some.inj (hr₁.symm.trans hr₁')
  rw [hle.held] at htracks
  change r₁.Tracks k'.registered (r.active :: W.held) at htracks
  have hactive : r₁.active = id := hholds'.active.trans hholds.active
  obtain ⟨hne, hlive⟩ := henterable.live r hinside.before
  obtain ⟨r', hr', hsound⟩ := hrel.tracks
  obtain rfl := Option.some.inj (hinside.before.symm.trans hr')
  -- the end of the body, if it comes to that
  obtain ⟨closed, r₂, hclosed, hgoes⟩ : ∃ closed r₂,
      (if completed then Recording.run Recorder.finish r₁ else (.ok (), r₁)) = (closed, r₂) ∧
      Goes P.strict k'.registered (r.active :: W.held) r₁ (closed, r₂) fun _ _ => True := by
    cases completed with
    | false => exact ⟨.ok (), r₁, rfl, htracks, .refl r₁, nofun, fun _ _ => trivial⟩
    | true =>
        refine ⟨_, _, rfl, Recorder.goes_finish htracks fun hstrict => ?_⟩
        rw [← Machine.frames_eq hr₁]
        exact hopen rfl hstrict
  have hholds₂ := (hholds.trans hholds').trans hgoes.stays.holds
  obtain ⟨hback, hframes⟩ := Adapter.holds_restored firing'.event.isRepeating hholds₂
    hsound.sound.active henterable.root hne henterable.held
  have hregistered : firing'.event.isRepeating = false → id ∉ k'.registered ++ W.held := by
    intro hrepeating hmem
    rcases List.mem_append.mp hmem with hcallback | hheld
    · have hold := hnew id (hholds.active ▸ List.mem_cons_self) hcallback
      exact henterable.released hrepeating (hinside.registered ▸ hold)
    · exact henterable.held hheld
  have htracks' := Adapter.tracks_restored firing'.event.isRepeating hgoes.tracks henterable.root
    hne hregistered
  obtain ⟨c, hc⟩ := hgoes.tracks.live r.active (by simp)
  have hleave := Adapter.run_leave hr₁ hprevious completed hclosed hc
  have hleave' := Adapter.run_leave_of_none (a := k.adapter) (by rw [hrel'.adapter]) firing completed
  refine ⟨closed.mapError .trace, _, _, by rw [Machine.run_adapting, hleave']; rfl,
    by rw [Machine.run_adapting, hleave], hrel'.withAdapters ?_ ⟨_, rfl, hactive ▸ htracks'⟩, ?_, ?_,
    fun hcompleted => ?_, fun e he => ?_⟩
  · rw [hrel'.adapter, hconversation]
  · intro r' hr'
    obtain rfl := Option.some.inj (hinside.before.symm.trans hr')
    refine ⟨_, rfl, hactive ▸ hback, fun other hother hmem => ?_⟩
    exact hinside.registered ▸ hnew other (List.mem_cons_of_mem _ hother) hmem
  · rw [Machine.frames_eq hinside.before, ← hframes, ← hactive]
    exact Machine.frames_eq rfl
  · subst hcompleted
    obtain ⟨rfl, -⟩ := Prod.mk.inj hclosed
    rfl
  · cases closed with
    | ok _ => cases he
    | error cause =>
        cases he
        refine ⟨fun hstrict t ht => ?_, .trace cause⟩
        cases ht
        exact hgoes.error hstrict cause rfl

/-- A callback can be entered, or the recorder is unusable. -/
theorem enter_inside {registration registration' : Registration} {id : ContextId}
    (hrel : MachineRel P W m m') (hregistration : RegistrationRel registration registration')
    (hid : registration'.context = some id)
    (henterable : Enterable W m' registration'.event.isRepeating id)
    (conversation : Option ConversationId) :
    ∃ firing n, m.run (adapting (Adapter.enter registration conversation)) = (.ok firing, n) ∧
      ((∃ e k', m'.run (adapting (Adapter.enter registration' conversation)) = (.error e, k') ∧
          MachineRel P W m k' ∧ m'.Stays W.held k' ∧ P.Allows e ∧ P.Stops e) ∨
        ∃ r firing' n', m'.run (adapting (Adapter.enter registration' conversation)) =
            (.ok firing', n') ∧
          firing'.previousContext = some r.active ∧
          firing'.event = registration'.event ∧
          firing.previousConversation = firing'.previousConversation ∧
          Inside W m' r id n' ∧
          MachineRel P (W.withHeld (r.active :: W.held)) n n' ∧
          (P.strict → n'.frames ≠ [])) := by
  obtain ⟨r, hr, htracks⟩ := hrel.tracks
  obtain ⟨hne, c, hc⟩ := henterable.live r hr
  have henter := Adapter.run_enter hr hid hc conversation
  have henter' := Adapter.run_enter_of_none (a := m.adapter) (by rw [hrel.adapter]) registration
    conversation
  have hargs : ∀ t ∈ [Trace.name "clos", .name registration'.event.param], Trace.Plain t := by
    intro t ht
    simp only [List.mem_cons, List.not_mem_nil, or_false] at ht
    rcases ht with rfl | rfl <;> exact Trace.plain_leaf rfl rfl rfl
  have hgoes : Goes P.strict _ _ _ _ _ := Recorder.goes_begin (htracks.switchTo hc) hargs
  generalize Recording.run (Recorder.begin _) { r with active := id } = result at henter hgoes
  obtain ⟨result, r₀⟩ := result
  refine ⟨_, _, by rw [Machine.run_adapting, henter']; rfl, ?_⟩
  cases result with
  | ok _ =>
      have hrun : m'.run (adapting (Adapter.enter registration' conversation)) =
          (.ok ⟨registration'.event, some r.active, m'.adapter.conversation⟩,
            { m' with adapter := { m'.adapter with
                recorder := some r₀
                conversation := conversation.or registration'.conversation } }) := by
        rw [Machine.run_adapting, henter]
        rfl
      refine .inr ⟨r, _, _, hrun, rfl, rfl, ?_, ⟨hr, rfl, r₀, rfl, hgoes.stays.holds⟩,
        hrel.withAdapters ?_ ⟨r₀, rfl, hgoes.tracks⟩, hgoes.ok () rfl⟩
      · rw [hrel.adapter]
      · rw [hrel.adapter, hregistration.eq]
  | error e =>
      obtain ⟨d, hd⟩ := hgoes.tracks.live r.active (by simp)
      have hback : Recording.run (Recorder.switchTo r.active) r₀ =
          (.ok r₀.active, { r₀ with active := r.active }) := Recorder.run_switchTo hd
      have hrun : m'.run (adapting (Adapter.enter registration' conversation)) =
          (.error (.trace e), m'.withRecorder { r₀ with active := r.active }) := by
        rw [Machine.run_adapting, henter]
        dsimp only
        rw [hback]
        rfl
      refine .inl ⟨.trace e, _, hrun, hrel.withRecorder hgoes.tracks.switchBack,
        Machine.stays_withRecorder hr ⟨rfl, fun other hother _ d hd => ?_⟩,
        fun hstrict t ht => ?_, .trace e⟩
      · exact hgoes.stays.others (ne_of_mem_of_not_mem hother henterable.held) hd
      · cases ht
        exact hgoes.error hstrict e rfl

/-- A callback that corresponds to another is run in its context; the recorder goes on as before. -/
theorem sim_fire {α β : Type} {x : Running α} {y : Running β}
    {registration registration' : Registration} {id : ContextId} (hrel : MachineRel P W m m')
    (hregistration : RegistrationRel registration registration')
    (hid : registration'.context = some id)
    (henterable : Enterable W m' registration'.event.isRepeating id)
    (conversation : Option ConversationId)
    (hcallback : ∀ {n n' : Machine} {previous : ContextId},
      MachineRel P (W.withHeld (previous :: W.held)) n n' → (P.strict → n'.frames ≠ []) →
      Sim P (W.withHeld (previous :: W.held)) n n' x y fun _ _ _ k' =>
        P.strict → k'.frames ≠ []) :
    Sim P W m m' (fire registration conversation x) (fire registration' conversation y)
      fun _ _ _ n' => n'.frames = m'.frames := by
  obtain ⟨firing, n, henter, hstop | ⟨r, firing', n', henter', hprevious, hevent, hconversation,
    hinside, hrel', hopen⟩⟩ := enter_inside hrel hregistration hid henterable conversation
  · obtain ⟨e, k', henter', hrel', hstays, hallows, hstops⟩ := hstop
    refine .stop ?_ (World.le_refl W) hrel' hstays hallows hstops
    rw [fire, Machine.run_bind, henter']
  · rw [← hevent] at henterable
    cases hcallback hrel' hopen with
    | ok hx hy hle hrel₁ hstays hframes =>
        obtain ⟨closed, l, l', hleave, hleave', hrel₂, hstays', hframes', -, herror⟩ :=
          leave_inside hrel hinside henterable hprevious hconversation hle hrel₁ hstays true
            fun _ => hframes
        have hrun := Machine.run_fire henter hx hleave
        have hrun' := Machine.run_fire henter' hy hleave'
        cases closed with
        | ok _ => exact .ok hrun hrun' (World.le_withHeld hle) hrel₂ hstays' hframes'
        | error e =>
            obtain ⟨hallows, hstops⟩ := herror e rfl
            exact .stop hrun' (World.le_withHeld hle) hrel₂ hstays' hallows hstops
    | fail hx hy hle hrel₁ hstays hallows =>
        obtain ⟨closed, l, l', hleave, hleave', hrel₂, hstays', -⟩ :=
          leave_inside hrel hinside henterable hprevious hconversation hle hrel₁ hstays false nofun
        exact .fail (Machine.run_fire henter hx hleave) (Machine.run_fire henter' hy hleave')
          (World.le_withHeld hle) hrel₂ hstays' hallows
    | stop hy hle hrel₁ hstays hallows hstops =>
        obtain ⟨closed, l, l', -, hleave', hrel₂, hstays', -⟩ :=
          leave_inside hrel hinside henterable hprevious hconversation hle hrel₁ hstays false nofun
        exact .stop (Machine.run_fire henter' hy hleave') (World.le_withHeld hle) hrel₂ hstays'
          hallows hstops

end TraceLoom
