import TraceLoom.Proofs.Execution.Callbacks
import TraceLoom.Proofs.Host.Log

/-!
A machine on one side, its adapter on the other.  Callbacks go by number, so that the same side of
a machine makes sense with any adapter that has registered as many.  What a step does is told by a
log: with every adapter that gives the replies of the log, the step comes to the same.
-/

namespace TraceLoom

open Script Running

/-- A queue of other elements. -/
def Queue.map {α β : Type} (f : α → β) (q : Queue α) : Queue β :=
  ⟨q.front.map f, q.back.map f⟩

theorem Queue.toList_map {α β : Type} (f : α → β) (q : Queue α) :
    (q.map f).toList = q.toList.map f := by
  simp [map, toList]

theorem Queue.pop?_map {α β : Type} (f : α → β) (q : Queue α) :
    (q.map f).pop? = q.pop?.map fun popped => (f popped.1, popped.2.map f) := by
  obtain ⟨front, back⟩ := q
  cases front with
  | cons x front => rfl
  | nil =>
      simp only [pop?, map, List.map_nil, ← List.map_reverse]
      cases back.reverse <;> rfl

theorem Queue.map_congr {α β : Type} {f g : α → β} {q : Queue α}
    (h : ∀ x ∈ q.toList, f x = g x) : q.map f = q.map g := by
  have hfront : ∀ x ∈ q.front, f x = g x := fun x hx => h x (by simp [toList, hx])
  have hback : ∀ x ∈ q.back, f x = g x := fun x hx => h x (by simp [toList, hx])
  rw [map, map, List.map_congr_left hfront, List.map_congr_left hback]

/-! ## Sides -/

/-- A callback that waits for its turn, by number. -/
structure Errand where
  callback : Nat
  function : Value
  arg : Value

/-- What a machine holds apart from its adapter. -/
structure Side where
  config : Config
  store : Store
  globals : Environment
  output : List String
  errands : Queue Errand
  /-- The number of the listener and its function. -/
  listener : Option (Nat × Value)

namespace Side

variable {q : Side} {g : Gate} {s t : Scene}

def task (t : Scene) (e : Errand) : Task :=
  ⟨t.callback e.callback, e.function, e.arg⟩

/-- The machine with this side and the adapter of a scene. -/
def under (q : Side) (g : Gate) (t : Scene) : Machine where
  config := q.config
  gate := g
  adapter := t.adapter
  store := q.store
  globals := q.globals
  output := q.output
  tasks := q.errands.map (task t)
  listener := q.listener.map fun l => ⟨t.callback l.1, l.2⟩

/-- The callbacks that wait for something. -/
def waiting (q : Side) : List Nat :=
  q.errands.toList.map (·.callback) ++ q.listener.toList.map (·.1)

/-- Where more callbacks are known, the same ones wait. -/
theorem under_eq (hbegins : s.callbacks <+: t.callbacks)
    (hwaiting : ∀ i ∈ q.waiting, i < s.callbacks.length) :
    q.under g t = { q.under g s with adapter := t.adapter } := by
  have htasks : q.errands.map (task t) = q.errands.map (task s) := by
    refine Queue.map_congr fun e he => ?_
    rw [task, task, Scene.callback_eq_of_isPrefix hbegins]
    exact hwaiting _ (List.mem_append_left _ (List.mem_map_of_mem he))
  have hlistener : q.listener.map (fun l => (⟨t.callback l.1, l.2⟩ : Listener)) =
      q.listener.map fun l => ⟨s.callback l.1, l.2⟩ := by
    cases hl : q.listener with
    | none => rfl
    | some l =>
        rw [Option.map_some, Option.map_some, Scene.callback_eq_of_isPrefix hbegins]
        exact hwaiting _ (by simp [waiting, hl])
  simp only [under, htasks, hlistener]

end Side

/-! ## What a step tells its adapter -/

/-- One gate lets through what another one does. -/
def Gate.Within (g g' : Gate) : Prop :=
  ∀ callee function args s, g callee function args s = .ok () → g' callee function args s = .ok ()

/-- A gate may stand for another one in a step with a certain result: for all that succeeds, it
only has to let through as much. -/
def Gate.Serves {α : Type} (g : Gate) (r : Except EvalError α) (g' : Gate) : Prop :=
  g' = g ∨ r.isOk = true ∧ g.Within g'

theorem Gate.Serves.of_ok {α β : Type} {g g' : Gate} {r : Except EvalError α}
    (h : g.Serves r g') (a : β) : g.Serves (.ok a : Except EvalError β) g' :=
  h.imp_right fun h => ⟨rfl, h.2⟩

/-- What a step makes of a reply. -/
def Reply.settle {α : Type} (f : Answer → α) (reply : Reply) : Except EvalError α :=
  (reply.map f).mapError .trace

theorem Reply.settle_map {α : Type} {f : Answer → α} {answer : α → Answer}
    (hanswer : ∀ a, f (answer a) = a) (x : Except TraceError α) :
    Reply.settle f (x.map answer) = x.mapError EvalError.trace := by
  cases x with
  | error e => rfl
  | ok a => exact congrArg Except.ok (hanswer a)

theorem Reply.isOk_of_settle {α : Type} {f : Answer → α} {reply : Reply}
    (h : (reply.settle f).isOk = true) : reply.isOk = true := by
  cases reply with
  | error e => cases h
  | ok _ => rfl

/-- Between two scenes a step makes the moves of a log, and ends with a result on another side.
It would do so with whatever adapter gives those replies. -/
structure Tells {α : Type} (g : Gate) (q : Side) (s : Scene) (x : Scene → Running α) (log : Log)
    (s' : Scene) (r : Except EvalError α) (q' : Side) : Prop where
  leads : s.Leads log s'
  run : ∀ {t t' : Scene} {g' : Gate}, s.Level t → t.Leads log t' → g.Serves r g' →
    (q.under g' t).run (x t) = (r, q'.under g' t') ∧ t'.visits = t.visits
  strict : r.isOk = true → ∀ entry ∈ log, entry.2.isOk = true

namespace Tells

variable {α β : Type} {g : Gate} {q q' q'' : Side} {s s' s'' : Scene} {log log' : Log}
  {x : Scene → Running α} {y z : Scene → Running β}

/-- A step without moves. -/
theorem silent {r : Except EvalError α}
    (h : ∀ {t : Scene} {g' : Gate}, s.Level t → g.Serves r g' →
      (q.under g' t).run (x t) = (r, q'.under g' t)) : Tells g q s x [] s r q' where
  leads := rfl
  run := by
    rintro t t' g' hlevel rfl hg
    exact ⟨h hlevel hg, rfl⟩
  strict _ entry hentry := absurd hentry List.not_mem_nil

/-- A step that makes one move. -/
theorem move {r : Except EvalError α} {p : Side} (m : Move)
    (h : ∀ {t : Scene} {g' : Gate}, s.Level t → (t.perform m).1 = (s.perform m).1 →
      (q.under g' t).run (x t) = (r, p.under g' (t.perform m).2) ∧
        (t.perform m).2.visits = t.visits)
    (hok : r.isOk = true → (s.perform m).1.isOk = true) :
    Tells g q s x [(m, (s.perform m).1)] (s.perform m).2 r p where
  leads := s.leads_perform m
  run := by
    rintro t t' g' hlevel ⟨hreply, rfl⟩ -
    exact h hlevel hreply
  strict hr := List.forall_mem_singleton.mpr (hok hr)

/-- After a step that succeeds, another one goes on. -/
theorem andThen {a : α} {r : Except EvalError β} (h : Tells g q s x log s' (.ok a) q')
    (h' : Tells g q' s' y log' s'' r q'')
    (hz : ∀ {t t' : Scene} {g' : Gate}, s.Level t → t.Leads log t' →
      (q.under g' t).run (x t) = (.ok a, q'.under g' t') →
      (q.under g' t).run (z t) = (q'.under g' t').run (y t')) :
    Tells g q s z (log ++ log') s'' r q'' where
  leads := Scene.leads_append.mpr ⟨s', h.leads, h'.leads⟩
  run := by
    intro t t'' g' hlevel hleads hg
    obtain ⟨t', hleads, hleads'⟩ := Scene.leads_append.mp hleads
    obtain ⟨hrun, hvisits⟩ := h.run hlevel hleads (hg.of_ok a)
    obtain ⟨hrun', hvisits'⟩ := h'.run (hlevel.leads h.leads hleads) hleads' hg
    exact ⟨(hz hlevel hleads hrun).trans hrun', hvisits'.trans hvisits⟩
  strict hr := List.forall_mem_append.mpr ⟨h.strict rfl, h'.strict hr⟩

/-- A step that fails ends whatever it is part of. -/
theorem fails {e : EvalError} (h : Tells g q s x log s' (.error e) q')
    (hz : ∀ {t t' : Scene} {g' : Gate}, s.Level t → t.Leads log t' →
      (q.under g' t).run (x t) = (.error e, q'.under g' t') →
      (q.under g' t).run (z t) = (.error e, q'.under g' t')) :
    Tells g q s z log s' (.error e) q' where
  leads := h.leads
  run := by
    intro t t' g' hlevel hleads hg
    have hg' : g.Serves (.error e : Except EvalError α) g' :=
      hg.imp_right fun h => absurd h.1 Bool.false_ne_true
    obtain ⟨hrun, hvisits⟩ := h.run hlevel hleads hg'
    exact ⟨hz hlevel hleads hrun, hvisits⟩
  strict := nofun

end Tells

end TraceLoom
