import TraceLoom.Proofs.Execution.Natives

/-!
Callbacks that a program gives to the host.  The instrumented program registers each of them in a
new context; until it runs there, or is given up, the context stays with it.
-/

namespace TraceLoom

open Script Instrument Running

variable {P : Expectation} {W W' : World} {m m' n n' : Machine} {s s' : Store}

/-! ## Registrations -/

namespace Recorder

variable {strict : Prop} {callbacks held : List ContextId} {r : Recorder}

theorem goes_popArgs (h : r.Tracks callbacks held) :
    Goes strict callbacks held r (Recording.run popArgs r) fun args r' =>
      (strict → r'.frames = r.frames) ∧ ∀ t ∈ args, Trace.Plain t :=
  (Goes.of_map (f := Operation.Outcome.args) (Goes.perform h .popArgs nofun (fun c => by rfl)
    fun _ => Operation.leads_popArgs _)).imp
    fun _ _ ⟨hframes, _, hplain, _⟩ => ⟨hframes, hplain _ rfl⟩

theorem plain_getD {ts : List Trace} (hts : ∀ t ∈ ts, Trace.Plain t) {t : Option Trace}
    (ht : ∀ u, t = some u → u ∈ ts) : Trace.Plain (t.getD .undefined) := by
  cases t with
  | none => exact Trace.plain_leaf rfl rfl rfl
  | some u => exact hts u (ht u rfl)

/-- Records that a callback is registered. -/
def registering (event : Event) : Recording ContextId := do
  let args ← popArgs
  let arg := match event with
    | .listen => .number 0.0
    | _ => args[1]?.getD .undefined
  callback event.name arg ["clos", event.param] (args.getLast?.getD .undefined)

/-- Records that a request is answered. -/
def sending : Recording Unit := do
  let args ← popArgs
  primitive "send" [args[1]?.getD .undefined]

theorem goes_registering (h : r.Tracks callbacks held) (event : Event)
    (hopen : strict → r.frames ≠ []) :
    Goes strict callbacks held r (Recording.run (registering event) r) fun id r' =>
      r.nextContext ≤ id ∧ (∃ c, r'.context? id = some c) ∧
        (strict → Advances r.frames r'.frames) := by
  refine (goes_popArgs h).bind fun args r₁ h₁ hstays ⟨hframes, hargs⟩ => ?_
  have hclosure : Trace.Plain (args.getLast?.getD .undefined) :=
    plain_getD hargs fun _ => List.mem_of_getLast?
  have harg : Trace.Plain (match event with
      | .listen => .number 0.0
      | _ => args[1]?.getD .undefined) := by
    split
    · exact Trace.plain_leaf rfl rfl rfl
    · exact plain_getD hargs fun _ => List.mem_of_getElem?
  have hgoes := Goes.perform h₁ (.callback event.name _ ["clos", event.param] _)
    (by simpa [Operation.Plain, Operation.expressions] using ⟨harg, hclosure⟩) (fun _ => rfl)
    fun hstrict : strict => Operation.leads_callback (hframes hstrict ▸ hopen hstrict) _ _ _ _
  refine (Goes.of_map (f := Operation.Outcome.context) hgoes).imp fun id r₂ h₂ => ?_
  obtain ⟨hadvances, -, -, hnew⟩ := h₂
  obtain ⟨rfl, hlive⟩ := hnew id rfl
  exact ⟨hstays.fresh, hlive, fun hstrict => hframes hstrict ▸ hadvances hstrict⟩

theorem goes_sending (h : r.Tracks callbacks held) (hopen : strict → r.frames ≠ []) :
    Goes strict callbacks held r (Recording.run sending r) fun _ r' =>
      strict → Advances r.frames r'.frames := by
  refine (goes_popArgs h).bind fun args r₁ h₁ _ ⟨hframes, hargs⟩ => ?_
  have harg : Trace.Plain (args[1]?.getD .undefined) :=
    plain_getD hargs fun _ => List.mem_of_getElem?
  have hgoes := Goes.perform h₁ (.primitive "send" _) (List.forall_mem_singleton.mpr harg)
    (fun _ => rfl) fun hstrict : strict => Operation.leads_primitive (hframes hstrict ▸ hopen hstrict) _ _
  exact (Goes.of_map (f := fun _ => Operation.Outcome.done) hgoes).imp
    fun _ _ hadvances hstrict => hframes hstrict ▸ hadvances.1 hstrict

end Recorder

namespace Adapter

variable {a : Adapter} {r : Recorder}

/-- A recording in two parts, of which the result is used. -/
theorem run_record_bind_bind {α β γ : Type} (h : a.recorder = some r) (x : Recording α)
    (f : α → Recording β) (g : β → γ) :
    a.run (record x >>= fun v => record (f v) >>= fun w => pure (g w)) =
      ((Recording.run (x >>= f) r).1.map g,
        { a with recorder := some (Recording.run (x >>= f) r).2 }) := by
  rw [← bind_assoc, run_bind, run_record_bind h, run_record h]
  rcases Recording.run (x >>= f) r with ⟨result, r'⟩
  cases result <;> rfl

theorem run_register (h : a.recorder = some r) (event : Event) :
    a.run (register event) =
      ((Recording.run (Recorder.registering event) r).1.map fun id =>
          ⟨event, some id, a.conversation⟩,
        { a with recorder := some (Recording.run (Recorder.registering event) r).2 }) := by
  rw [register, run_bind, run_get]
  dsimp only
  rw [isTracing, h, Option.isSome_some, if_pos rfl]
  exact run_record_bind_bind h Recorder.popArgs _ _

theorem run_register_of_none (h : a.recorder = none) (event : Event) :
    a.run (register event) = (.ok ⟨event, none, a.conversation⟩, a) := by
  rw [register, run_bind, run_get]
  dsimp only
  rw [isTracing, h]
  rfl

end Adapter

/-- A registration on both sides; the context of the second one is new. -/
structure Registered (P : Expectation) (W : World) (m' : Machine) (event : Event) (W' : World)
    (x y : Registration) (n' : Machine) : Prop where
  world : W' = W
  machine : ∃ r, n' = m'.withRecorder r
  frames : P.strict → Advances m'.frames n'.frames
  registration : RegistrationRel x y
  event : y.event = event
  context : ∃ id, y.context = some id ∧ Enterable W n' false id

theorem sim_register (hrel : MachineRel P W m m') (hopen : P.strict → m'.frames ≠ [])
    (event : Event) :
    Sim P W m m' (adapting (Adapter.register event)) (adapting (Adapter.register event))
      (Registered P W m' event) := by
  obtain ⟨r, hr, htracks⟩ := hrel.tracks
  have hleft : m.run (adapting (Adapter.register event)) =
      m.run (pure () >>= fun _ => pure ⟨event, none, m.adapter.conversation⟩) := by
    rw [Machine.run_adapting, Adapter.run_register_of_none (by rw [hrel.adapter])]
    rfl
  have hright : m'.run (adapting (Adapter.register event)) =
      m'.run (adapting (Adapter.record (Recorder.registering event)) >>= fun id =>
        pure ⟨event, some id, m'.adapter.conversation⟩) := by
    rw [Machine.run_adapting, Adapter.run_register hr, Machine.run_bind, Machine.run_record hr]
    rcases Recording.run (Recorder.registering event) r with ⟨result, r'⟩
    cases result <;> rfl
  refine .of_run_eq hleft hright ((sim_record hrel fun r₀ hr₀ htracks₀ =>
    (Recorder.goes_registering htracks₀ event (Machine.frames_eq hr₀ ▸ hopen)).with_stays).bind ?_)
  rintro W₁ n n' _ id - hrel' - ⟨rfl, r₁, r', hr₁, rfl, ⟨hfresh, hlive, hadvances⟩, hstays⟩
  obtain rfl := Option.some.inj (hr.symm.trans hr₁)
  have hold {other : ContextId} (hother : ∃ c, r.context? other = some c) : id ≠ other := by
    obtain ⟨c, hc⟩ := hother
    exact Nat.ne_of_gt (Nat.lt_of_lt_of_le (Recorder.lt_nextContext htracks.sound hc) hfresh)
  have hmem {other : ContextId} (hother : other ∈ m'.registered ++ W₁.held) : other ≠ id :=
    (hold (htracks.live other hother)).symm
  obtain ⟨c, hc, -⟩ := htracks.sound.root
  refine .pure hrel' ⟨rfl, ⟨r', rfl⟩, fun hstrict => ?_, ⟨by rw [hrel.adapter], rfl⟩, rfl, id, rfl,
    hold ⟨c, hc⟩, fun hheld => hmem (List.mem_append_right _ hheld) rfl,
    fun _ hregistered => hmem (List.mem_append_left _ hregistered) rfl, fun r₂ hr₂ => ?_⟩
  · rw [Machine.frames_eq hr, Machine.frames_eq (m := m'.withRecorder r') rfl]
    exact hadvances hstrict
  · cases hr₂
    exact ⟨hstays.active ▸ hold htracks.sound.active, hlive⟩

end TraceLoom
