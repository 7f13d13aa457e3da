import TraceLoom.Proofs.Execution.Steps
import TraceLoom.Proofs.Execution.Making
import TraceLoom.Proofs.Recorder.Course

/-!
Two machines side by side: one runs a program, the other the instrumented program with a recorder.
A step of the one is simulated by a step of the other if from corresponding machines they come to
corresponding machines with corresponding results, or fail with the same error; the instrumented
program may also stop where that is expected.
-/

namespace TraceLoom

open Script

/-! ## Steps of one machine -/

namespace Machine

variable {α β : Type} (m : Machine)

/-- The open statement lists of the context in which a machine records. -/
def frames : List Frame :=
  (m.adapter.recorder.map Recorder.frames).getD []

/-- The contexts of the callbacks that may still run. -/
def registered : List ContextId :=
  m.tasks.toList.filterMap (·.registration.context) ++
    m.listener.toList.filterMap (·.registration.context)

/-- The recorder is back where it was, and no callback waits to run in a context that is in use. -/
def Stays (held : List ContextId) (n : Machine) : Prop :=
  ∀ r, m.adapter.recorder = some r → ∃ r', n.adapter.recorder = some r' ∧ r.Holds held r' ∧
    ∀ id ∈ r.active :: held, id ∈ n.registered → id ∈ m.registered

/-- Nothing but values is new. -/
structure Quiet (n : Machine) : Prop where
  eq : n = { m with store := n.store }
  grows : m.store.Grows n.store

variable {m} {n k : Machine} {held : List ContextId}

theorem stays_of_adapter (h : n.adapter = m.adapter) (hregistered : n.registered = m.registered) :
    m.Stays held n :=
  fun r hr => ⟨r, h ▸ hr, .refl r, fun _ _ hid => hregistered ▸ hid⟩

theorem Stays.trans (h : m.Stays held n) (h' : n.Stays held k) : m.Stays held k := by
  intro r hr
  obtain ⟨r₁, hr₁, hholds, hnew⟩ := h r hr
  obtain ⟨r₂, hr₂, hholds', hnew'⟩ := h' r₁ hr₁
  refine ⟨r₂, hr₂, hholds.trans hholds', fun id hid hmem => hnew id hid ?_⟩
  exact hnew' id (hholds.active ▸ hid) hmem

@[refl] theorem Quiet.refl (m : Machine) : m.Quiet m :=
  ⟨rfl, .refl _⟩

theorem Quiet.trans (h : m.Quiet n) (h' : n.Quiet k) : m.Quiet k :=
  ⟨by rw [h'.eq, h.eq], h.grows.trans h'.grows⟩

theorem quiet_of_grows {s : Store} (h : m.store.Grows s) : m.Quiet { m with store := s } :=
  ⟨rfl, h⟩

theorem Quiet.adapter (h : m.Quiet n) : n.adapter = m.adapter := by
  rw [h.eq]

theorem Quiet.stays (h : m.Quiet n) : m.Stays held n :=
  stays_of_adapter h.adapter (by rw [h.eq, registered, registered])

theorem frames_of_adapter (h : n.adapter = m.adapter) : n.frames = m.frames := by
  rw [frames, frames, h]

end Machine

/-! ## Two machines -/

/-- Registrations of the same callback; only the second one has a context. -/
structure RegistrationRel (x y : Registration) : Prop where
  eq : x = { y with context := none }
  context : y.context.isSome

structure TaskRel (P : Expectation) (W : World) (x y : Task) : Prop where
  registration : RegistrationRel x.registration y.registration
  callback : ValueRel P W x.callback y.callback
  arg : ValueRel P W x.arg y.arg

structure ListenerRel (P : Expectation) (W : World) (x y : Listener) : Prop where
  registration : RegistrationRel x.registration y.registration
  event : y.registration.event = .listen
  callback : ValueRel P W x.callback y.callback

/-- The first machine runs a program, the second one the instrumented program. -/
structure MachineRel (P : Expectation) (W : World) (m m' : Machine) : Prop where
  config : m'.config = m.config
  options : m.config.instrument = standard.options
  gate : m.gate = fun _ _ _ _ => .ok ()
  gate' : m'.gate = recorderGate P.refusal
  adapter : m.adapter = { m'.adapter with recorder := none }
  tracks : ∃ r, m'.adapter.recorder = some r ∧ r.Tracks m'.registered W.held
  store : StoreRel P W m.store m'.store
  globals : EnvRel W m.globals m'.globals
  home : m'.globals.own = W.home
  output : m'.output = m.output
  tasks : List.Forall₂ (TaskRel P W) m.tasks.toList m'.tasks.toList
  listener : Option.Rel (ListenerRel P W) m.listener m'.listener

section

variable {P : Expectation} {W W' : World} {m m' n n' : Machine} {α β γ δ : Type}

theorem TaskRel.mono (hle : W ≤ W') {x y : Task} (h : TaskRel P W x y) : TaskRel P W' x y :=
  ⟨h.registration, h.callback.mono hle, h.arg.mono hle⟩

theorem ListenerRel.mono (hle : W ≤ W') {x y : Listener} (h : ListenerRel P W x y) :
    ListenerRel P W' x y :=
  ⟨h.registration, h.event, h.callback.mono hle⟩

namespace MachineRel

theorem withStores (h : MachineRel P W m m') (hle : W ≤ W') {s t : Store}
    (hstore : StoreRel P W' s t) :
    MachineRel P W' { m with store := s } { m' with store := t } :=
  ⟨h.config, h.options, h.gate, h.gate', h.adapter, hle.held ▸ h.tracks, hstore, h.globals.mono hle,
    h.home.trans hle.home.symm, h.output, h.tasks.imp fun _ _ => TaskRel.mono hle,
    rel_imp (fun _ _ => ListenerRel.mono hle) h.listener⟩

theorem quiet_right (h : MachineRel P W m m') (hquiet : m'.Quiet n') : MachineRel P W m n' := by
  have hstores := h.withStores (World.le_refl W) (h.store.grow_right hquiet.grows)
  rwa [← hquiet.eq] at hstores

end MachineRel

/-! ## Simulation -/

/-- What a step of the first machine and one of the second machine come to.  The second one may
stop where the first one goes on, or fails otherwise. -/
inductive Sim (P : Expectation) (W : World) (m m' : Machine) (x : Running α) (y : Running β)
    (Q : World → α → β → Machine → Prop) : Prop
  | ok {W' : World} {n n' : Machine} {a : α} {b : β} (hx : m.run x = (.ok a, n))
      (hy : m'.run y = (.ok b, n')) (hle : W ≤ W') (hrel : MachineRel P W' n n')
      (hstays : m'.Stays W.held n') (h : Q W' a b n')
  | fail {W' : World} {n n' : Machine} {e : EvalError} (hx : m.run x = (.error e, n))
      (hy : m'.run y = (.error e, n')) (hle : W ≤ W') (hrel : MachineRel P W' n n')
      (hstays : m'.Stays W.held n') (hallows : P.Allows e)
  | stop {W' : World} {n n' : Machine} {e : EvalError} (hy : m'.run y = (.error e, n'))
      (hle : W ≤ W') (hrel : MachineRel P W' n n') (hstays : m'.Stays W.held n') (hallows : P.Allows e)
      (hstops : P.Stops e)

theorem allows_of_ne {e : EvalError} (h : ∀ cause, e ≠ .trace cause) : P.Allows e :=
  fun _ cause heq => absurd heq (h cause)

namespace Sim

variable {x : Running α} {y : Running β} {Q Q' : World → α → β → Machine → Prop}

theorem imp (h : Sim P W m m' x y Q) (himp : ∀ {W' a b n'}, W ≤ W' → Q W' a b n' → Q' W' a b n') :
    Sim P W m m' x y Q' := by
  cases h with
  | ok hx hy hle hrel hstays h => exact .ok hx hy hle hrel hstays (himp hle h)
  | fail hx hy hle hrel hstays hallows => exact .fail hx hy hle hrel hstays hallows
  | stop hy hle hrel hstays hallows hstops => exact .stop hy hle hrel hstays hallows hstops

/-- The steps may be others that lead on in the same way. -/
theorem of_stays {x₂ : Running α} {y₂ : Running β} (hx : m.run x = n.run x₂)
    (hy : m'.run y = n'.run y₂) (hstays : m'.Stays W.held n') (h : Sim P W n n' x₂ y₂ Q) :
    Sim P W m m' x y Q := by
  cases h with
  | ok hf hg hle hrel hstays' h =>
      exact .ok (hx.trans hf) (hy.trans hg) hle hrel (hstays.trans hstays') h
  | fail hf hg hle hrel hstays' hallows =>
      exact .fail (hx.trans hf) (hy.trans hg) hle hrel (hstays.trans hstays') hallows
  | stop hg hle hrel hstays' hallows hstops =>
      exact .stop (hy.trans hg) hle hrel (hstays.trans hstays') hallows hstops

theorem of_run_eq {x₂ : Running α} {y₂ : Running β} (hx : m.run x = m.run x₂)
    (hy : m'.run y = m'.run y₂) (h : Sim P W m m' x₂ y₂ Q) : Sim P W m m' x y Q :=
  h.of_stays hx hy (Machine.stays_of_adapter rfl rfl)

theorem get_bind {f : Machine → Running α} {g : Machine → Running β}
    (h : Sim P W m m' (f m) (g m') Q) : Sim P W m m' (get >>= f) (get >>= g) Q :=
  h.of_run_eq (m.run_bind get f) (m'.run_bind get g)

theorem pure {a : α} {b : β} (hrel : MachineRel P W m m') (h : Q W a b m') :
    Sim P W m m' (pure a) (pure b) Q :=
  .ok rfl rfl (World.le_refl W) hrel (Machine.stays_of_adapter rfl rfl) h

theorem throw {e : EvalError} (hrel : MachineRel P W m m') (h : ∀ cause, e ≠ .trace cause) :
    Sim P W m m' (throw e : Running α) (throw e : Running β) Q :=
  .fail rfl rfl (World.le_refl W) hrel (Machine.stays_of_adapter rfl rfl) (allows_of_ne h)

theorem bind_run {f : α → Running γ} {g : β → Running δ} {R : World → γ → δ → Machine → Prop}
    (h : Sim P W m m' x y Q)
    (hnext : ∀ {W' : World} {n n' : Machine} {a : α} {b : β}, m.run x = (.ok a, n) →
      m'.run y = (.ok b, n') → W ≤ W' → MachineRel P W' n n' → m'.Stays W.held n' → Q W' a b n' →
      Sim P W' n n' (f a) (g b) R) :
    Sim P W m m' (x >>= f) (y >>= g) R := by
  cases h with
  | ok hx hy hle hrel hstays h =>
      have hx' := Machine.run_bind_of_ok hx f
      have hy' := Machine.run_bind_of_ok hy g
      cases hnext hx hy hle hrel hstays h with
      | ok hf hg hle' hrel' hstays' h' =>
          exact .ok (hx'.trans hf) (hy'.trans hg) (World.le_trans hle hle') hrel'
            (hstays.trans (hle.held ▸ hstays')) h'
      | fail hf hg hle' hrel' hstays' hallows =>
          exact .fail (hx'.trans hf) (hy'.trans hg) (World.le_trans hle hle') hrel'
            (hstays.trans (hle.held ▸ hstays')) hallows
      | stop hg hle' hrel' hstays' hallows hstops =>
          exact .stop (hy'.trans hg) (World.le_trans hle hle') hrel'
            (hstays.trans (hle.held ▸ hstays')) hallows hstops
  | fail hx hy hle hrel hstays hallows =>
      exact .fail (by rw [Machine.run_bind, hx]) (by rw [Machine.run_bind, hy]) hle hrel hstays
        hallows
  | stop hy hle hrel hstays hallows hstops =>
      exact .stop (by rw [Machine.run_bind, hy]) hle hrel hstays hallows hstops

theorem bind {f : α → Running γ} {g : β → Running δ} {R : World → γ → δ → Machine → Prop}
    (h : Sim P W m m' x y Q)
    (hnext : ∀ {W' : World} {n n' : Machine} {a : α} {b : β}, W ≤ W' → MachineRel P W' n n' →
      m'.Stays W.held n' → Q W' a b n' → Sim P W' n n' (f a) (g b) R) :
    Sim P W m m' (x >>= f) (y >>= g) R :=
  h.bind_run fun _ _ => hnext

/-- The second machine does something by itself first. -/
theorem before {g : β → Running δ} {x : Running γ} {R : World → γ → δ → Machine → Prop}
    {Q : World → Unit → β → Machine → Prop} (h : Sim P W m m' (Pure.pure ⟨⟩) y Q)
    (hnext : ∀ {W' : World} {n' : Machine} {b : β}, W ≤ W' → MachineRel P W' m n' →
      m'.Stays W.held n' → Q W' ⟨⟩ b n' → Sim P W' m n' x (g b) R) :
    Sim P W m m' x (y >>= g) R := by
  refine bind_run (f := fun _ => x) h fun hx _ hle hrel hstays h => ?_
  cases hx
  exact hnext hle hrel hstays h

/-- The second machine does something by itself afterwards. -/
theorem after {g : β → Running δ} {R : World → α → δ → Machine → Prop}
    (h : Sim P W m m' x y Q)
    (hnext : ∀ {W' : World} {n n' : Machine} {a : α} {b : β}, W ≤ W' → MachineRel P W' n n' →
      m'.Stays W.held n' → Q W' a b n' → Sim P W' n n' (Pure.pure a) (g b) R) :
    Sim P W m m' x (y >>= g) R := by
  simpa only [bind_pure] using h.bind (f := Pure.pure) hnext

/-- Something that only makes values is done before. -/
theorem of_quiet {x : Running α} {y y₂ : Running β} (hquiet : m'.Quiet n')
    (hy : m'.run y = n'.run y₂) (h : Sim P W m n' x y₂ Q) : Sim P W m m' x y Q :=
  h.of_stays rfl hy hquiet.stays

theorem quietly {g : β → Running δ} {x : Running γ} {R : World → γ → δ → Machine → Prop} {b : β}
    (hy : m'.run y = (.ok b, n')) (hquiet : m'.Quiet n') (h : Sim P W m n' x (g b) R) :
    Sim P W m m' x (y >>= g) R :=
  h.of_quiet hquiet (Machine.run_bind_of_ok hy g)

/-! ### Stores -/

/-- Both machines make something in their stores. -/
theorem make {f : Store → α × Store} {g : Store → β × Store} {r : World → α → β → Prop}
    (hrel : MachineRel P W m m') (h : Makes P W r (f m.store) (g m'.store)) :
    Sim P W m m' (Running.make f) (Running.make g) fun W' a b n' =>
      r W' a b ∧ n' = { m' with store := (g m'.store).2 } := by
  obtain ⟨W', hle, hstore, hr⟩ := h
  exact .ok (m.run_make f) (m'.run_make g) hle (hrel.withStores hle hstore)
    (Machine.stays_of_adapter rfl rfl) ⟨hr, rfl⟩

theorem change {f g : Store → Store} (hrel : MachineRel P W m m')
    (h : StoreRel P W (f m.store) (g m'.store)) :
    Sim P W m m' (Running.change f) (Running.change g) fun W' _ _ n' =>
      W' = W ∧ n' = { m' with store := g m'.store } :=
  .ok (m.run_change f) (m'.run_change g) (World.le_refl W)
    (hrel.withStores (World.le_refl W) h) (Machine.stays_of_adapter rfl rfl) ⟨rfl, rfl⟩

theorem read {f : Store → Except EvalError α} {g : Store → Except EvalError β}
    {r : α → β → Prop} (hrel : MachineRel P W m m') (h : ResultRel r (f m.store) (g m'.store)) :
    Sim P W m m' (Running.read f) (Running.read g) fun W' a b n' => W' = W ∧ r a b ∧ n' = m' := by
  have hx := m.run_read f
  have hy := m'.run_read g
  generalize f m.store = a, g m'.store = b at h hx hy
  cases h with
  | ok h => exact .ok hx hy (World.le_refl W) hrel (Machine.stays_of_adapter rfl rfl) ⟨rfl, h, rfl⟩
  | error h =>
      exact .fail hx hy (World.le_refl W) hrel (Machine.stays_of_adapter rfl rfl) (allows_of_ne h)

end Sim

end

end TraceLoom
