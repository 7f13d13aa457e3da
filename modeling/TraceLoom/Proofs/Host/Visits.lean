import Mathlib.Data.List.Induction
import Mathlib.Data.List.Infix
import TraceLoom.Proofs.Host.Whereabouts

/-!
Callbacks inside one another.  Each may fail at any point, also in being entered or left.  Still,
when a callback is left, the context and the conversation are those from which it was entered.
-/

namespace TraceLoom

open Recorder (Live Intact rootContext)

/-! ## Orderly moves -/

namespace Scene

/-- A move is in order: whoever records stays in the active context, a callback that is running is
not discarded, and one that does not repeat is entered once. -/
def allows (s : Scene) : Move → Bool
  | .operation op => op.isLocal
  | .discard i => s.visits.all (·.callback ≠ i)
  | .enter i _ =>
      match s.callbacks[i]? with
      | some registration => registration.event.isRepeating || !s.entered.contains i
      | none => false
  | .leave _ => !s.visits.isEmpty
  | _ => true

def orderly : Scene → List Move → Bool
  | _, [] => true
  | s, move :: moves => s.allows move && (s.perform move).2.orderly moves

end Scene

/-- Callbacks run inside one another, from a start to where the innermost of them is. -/
inductive Stacked (callbacks : List Registration) (start : Whereabouts) :
    List Visit → Whereabouts → Prop
  | nil : Stacked callbacks start [] start
  | cons {visit : Visit} {visits : List Visit} {registration : Registration} {now : Whereabouts}
      (outer : Stacked callbacks start visits visit.before)
      (registered : callbacks[visit.callback]? = some registration)
      (event : visit.firing.event = registration.event)
      (context : visit.firing.previousContext = visit.before.1)
      (conversation : visit.firing.previousConversation = visit.before.2)
      (inside : now.1 = registration.context) : Stacked callbacks start (visit :: visits) now

theorem Stacked.append {callbacks : List Registration} {start now : Whereabouts}
    {visits : List Visit} (h : Stacked callbacks start visits now) (more : List Registration) :
    Stacked (callbacks ++ more) start visits now := by
  induction h with
  | nil => exact .nil
  | cons _ registered event context conversation inside ih =>
      refine .cons ih ?_ event context conversation inside
      rw [List.getElem?_append_left (List.getElem?_eq_some_iff.mp registered).1, registered]

/-- The callbacks of a scene have contexts of their own, and those that run still have theirs. -/
structure Scene.Placed (s : Scene) (r : Recorder) : Prop where
  intact : r.Intact
  contexts : ∀ (i : Nat) (registration : Registration), s.callbacks[i]? = some registration →
    ∃ id, registration.context = some id ∧ id ≠ rootContext ∧ id < r.nextContext
  distinct : ∀ (i j : Nat) (g h : Registration), s.callbacks[i]? = some g →
    s.callbacks[j]? = some h → g.context = h.context → i = j
  live : ∀ visit ∈ s.visits, ∃ (registration : Registration) (id : ContextId),
    s.callbacks[visit.callback]? = some registration ∧ registration.context = some id ∧ r.Live id

/-- What holds of a scene after orderly moves. -/
structure Scene.Steady (start : Whereabouts) (s : Scene) : Prop where
  stacked : Stacked s.callbacks start s.visits s.adapter.whereabouts
  root : start.1 = s.adapter.recorder.map fun _ => rootContext
  placed : ∀ r, s.adapter.recorder = some r → s.Placed r
  unplaced : s.adapter.recorder = none → ∀ registration ∈ s.callbacks, registration.context = none
  entered : ∀ visit ∈ s.visits, visit.callback ∈ s.entered
  once : s.visits.Pairwise fun visit outer => visit.firing.event.isRepeating = false →
    visit.callback ≠ outer.callback

namespace Scene

variable {start : Whereabouts} {s s' : Scene} {r r' : Recorder} {a : Adapter}

theorem Placed.onward (h : s.Placed r) (hr : r.Onward r') (hcallbacks : s'.callbacks = s.callbacks)
    (hvisits : s'.visits = s.visits) : s'.Placed r' where
  intact := hr.intact h.intact
  contexts i registration hi := by
    obtain ⟨id, hid, hroot, hlt⟩ := h.contexts i registration (hcallbacks ▸ hi)
    exact ⟨id, hid, hroot, Nat.lt_of_lt_of_le hlt hr.next⟩
  distinct := hcallbacks ▸ h.distinct
  live visit hvisit := by
    obtain ⟨registration, id, hregistered, hid, hlive⟩ := h.live visit (hvisits ▸ hvisit)
    exact ⟨registration, id, hcallbacks ▸ hregistered, hid, hr.live id hlive⟩

/-- A scene stays in order while its adapter stays where it is. -/
theorem Steady.onward (h : s.Steady start) (ha : s.adapter.Onward s'.adapter)
    (hcallbacks : s'.callbacks = s.callbacks) (hvisits : s'.visits = s.visits)
    (hentered : s'.entered = s.entered) : s'.Steady start where
  stacked := by
    rw [hcallbacks, hvisits, ha.whereabouts_eq]
    exact h.stacked
  root := by
    have hrecorder := ha.recorder
    rw [h.root]
    generalize s.adapter.recorder = x, s'.adapter.recorder = y at hrecorder
    cases hrecorder <;> rfl
  placed r' hr' := by
    have hrecorder := ha.recorder
    rw [hr'] at hrecorder
    cases hr : s.adapter.recorder with
    | none =>
        rw [hr] at hrecorder
        cases hrecorder
    | some r =>
        rw [hr] at hrecorder
        cases hrecorder with
        | some honward => exact (h.placed r hr).onward honward hcallbacks hvisits
  unplaced hnone := by
    have hrecorder := ha.recorder
    rw [hnone] at hrecorder
    cases hr : s.adapter.recorder with
    | none => exact hcallbacks ▸ h.unplaced hr
    | some r =>
        rw [hr] at hrecorder
        cases hrecorder
  entered := by
    rw [hvisits, hentered]
    exact h.entered
  once := hvisits ▸ h.once

/-- Another callback is registered. -/
theorem Steady.register (h : s.Steady start) (ha : s.adapter.Onward a) {registration : Registration}
    (hplaced : ∀ r', a.recorder = some r' → ∃ r id, s.adapter.recorder = some r ∧
      registration.context = some id ∧ r.nextContext ≤ id ∧ id < r'.nextContext)
    (hunplaced : a.recorder = none → registration.context = none) :
    { s with adapter := a, callbacks := s.callbacks ++ [registration] }.Steady start := by
  have hold : ({ s with adapter := a } : Scene).Steady start := h.onward ha rfl rfl rfl
  have hcases : ∀ {i : Nat} {g : Registration}, (s.callbacks ++ [registration])[i]? = some g →
      s.callbacks[i]? = some g ∨ i = s.callbacks.length ∧ g = registration := by
    intro i g hi
    rw [List.getElem?_append] at hi
    split at hi
    · exact .inl hi
    · obtain ⟨hlt, hget⟩ := List.getElem?_eq_some_iff.mp hi
      rw [List.length_singleton] at hlt
      exact .inr ⟨by omega, by simpa using hget.symm⟩
  refine { hold with
    stacked := hold.stacked.append _
    placed := fun r' hr' => ?_
    unplaced := fun hnone g hg => ?_ }
  · obtain ⟨r, id, hr, hid, hle, hlt⟩ := hplaced r' hr'
    have hbefore := h.placed r hr
    have hafter := hold.placed r' hr'
    have hroot : id ≠ rootContext :=
      Nat.ne_of_gt (Nat.lt_of_lt_of_le (hbefore.intact.fresh _ hbefore.intact.root) hle)
    have hnew : ∀ {i : Nat} {g : Registration}, s.callbacks[i]? = some g →
        g.context ≠ registration.context := by
      intro i g hi heq
      obtain ⟨other, hother, -, hold⟩ := hbefore.contexts i g hi
      rw [hother, hid] at heq
      exact absurd (Option.some.inj heq ▸ hold) (Nat.not_lt.mpr hle)
    refine ⟨hafter.intact, fun i g hi => ?_, fun i j g g' hi hj heq => ?_,
      fun visit hvisit => ?_⟩
    · rcases hcases hi with hi | ⟨-, rfl⟩
      · exact hafter.contexts i g hi
      · exact ⟨id, hid, hroot, hlt⟩
    · rcases hcases hi with hold | ⟨rfl, hg⟩ <;> rcases hcases hj with hold' | ⟨rfl, hg'⟩
      · exact hbefore.distinct i j g g' hold hold' heq
      · exact absurd (heq.trans (congrArg _ hg')) (hnew hold)
      · exact absurd (heq.symm.trans (congrArg _ hg)) (hnew hold')
      · rfl
    · obtain ⟨g, other, hg, hother, hlive⟩ := hafter.live visit hvisit
      refine ⟨g, other, ?_, hother, hlive⟩
      rw [List.getElem?_append_left (List.getElem?_eq_some_iff.mp hg).1]
      exact hg
  · rcases List.mem_append.mp hg with hg | hg
    · exact hold.unplaced hnone g hg
    · exact List.mem_singleton.mp hg ▸ hunplaced hnone

theorem Placed.without (h : s.Placed r) {id : ContextId} (hroot : id ≠ rootContext)
    (hactive : id ≠ r.active) (hidle : ∀ visit ∈ s.visits, ∀ registration : Registration,
      s.callbacks[visit.callback]? = some registration → registration.context ≠ some id) :
    s.Placed (r.without id) where
  intact := h.intact.without hroot hactive
  contexts := h.contexts
  distinct := h.distinct
  live visit hvisit := by
    obtain ⟨registration, other, hregistered, hother, hlive⟩ := h.live visit hvisit
    refine ⟨registration, other, hregistered, hother, ?_⟩
    have hne : other ≠ id := fun heq => hidle visit hvisit registration hregistered (heq ▸ hother)
    rw [Live, Recorder.context?_without, if_neg hne]
    exact hlive

/-- A callback that is not running is discarded. -/
theorem Steady.discard (h : s.Steady start) {i : Nat} {registration : Registration}
    (hi : s.callbacks[i]? = some registration) (hidle : ∀ visit ∈ s.visits, visit.callback ≠ i) :
    { s with adapter := (s.adapter.run (Adapter.discard registration)).2 }.Steady start := by
  cases hr : s.adapter.recorder with
  | none =>
      rw [Adapter.run_discard_of_none hr]
      exact h
  | some r =>
      have hplaced := h.placed r hr
      obtain ⟨id, hid, hroot, -⟩ := hplaced.contexts i registration hi
      rw [Adapter.run_discard hr hid]
      by_cases hactive : id = r.active
      · have hsame : (Recording.run (Recorder.release id) r).2 = r := by
          change (if id = rootContext ∨ id = r.active then r else _) = r
          rw [if_pos (.inr hactive)]
        rw [hsame, ← hr]
        exact h
      · rw [Recorder.run_release_of_ne hroot hactive]
        have hwhere : Adapter.whereabouts { s.adapter with recorder := some (r.without id) } =
            s.adapter.whereabouts := by
          simp only [Adapter.whereabouts, hr]
          rfl
        refine { h with
          stacked := hwhere ▸ h.stacked
          root := h.root.trans (by rw [hr]; rfl)
          placed := fun r' hr' => ?_
          unplaced := fun hnone => absurd hnone (Option.some_ne_none _) }
        obtain rfl := Option.some.inj hr'
        have hwithout := hplaced.without hroot hactive fun visit hvisit g hg heq =>
          hidle visit hvisit (hplaced.distinct _ _ g registration hg hi (heq.trans hid.symm))
        exact ⟨hwithout.intact, hwithout.contexts, hwithout.distinct, hwithout.live⟩

/-- Outside the innermost callback there is a context that is there to go back to. -/
theorem Steady.exists_previous (h : s.Steady start) (hr : s.adapter.recorder = some r)
    {visit : Visit} {visits : List Visit} (hvisits : s.visits = visit :: visits) :
    ∃ previous, visit.firing.previousContext = some previous ∧ visit.before.1 = some previous ∧
      r.Live previous ∧ (visit.firing.event.isRepeating = false → previous ≠ r.active) := by
  have hplaced := h.placed r hr
  have hstacked := h.stacked
  have honce := h.once
  rw [hvisits] at hstacked honce
  obtain ⟨hfirst, -⟩ := List.pairwise_cons.mp honce
  cases hstacked with
  | cons outer registered event context conversation inside =>
      rename_i registration
      obtain ⟨id, hid, hroot, -⟩ := hplaced.contexts _ _ registered
      have hactive : r.active = id := by
        have hinside : s.adapter.whereabouts.1 = some r.active := by
          rw [Adapter.whereabouts, hr]
          rfl
        exact Option.some.inj (hinside.symm.trans (inside.trans hid))
      rw [context, hactive]
      -- the callback around it runs as well, or there is none
      generalize visit.before = before at outer
      cases outer with
      | nil =>
          refine ⟨rootContext, ?_, ?_, hplaced.intact.root, fun _ => hroot.symm⟩ <;>
            rw [h.root, hr] <;> rfl
      | cons outer' registered' event' context' conversation' inside' =>
          rename_i visit' visits' registration'
          obtain ⟨g, previous, hg, hprevious, hlive⟩ := hplaced.live visit' (by simp [hvisits])
          obtain rfl := Option.some.inj (hg.symm.trans registered')
          refine ⟨previous, inside'.trans hprevious, inside'.trans hprevious, hlive,
            fun hrepeating heq => hfirst visit' List.mem_cons_self hrepeating ?_⟩
          exact hplaced.distinct _ _ _ _ registered hg (by rw [hid, hprevious, heq])

/-- A callback is entered. -/
theorem Steady.enter (h : s.Steady start) {i : Nat} {registration : Registration}
    (hi : s.callbacks[i]? = some registration)
    (honce : registration.event.isRepeating = false → i ∉ s.entered)
    {conversation : Option ConversationId} {firing : Firing}
    (henter : s.adapter.run (Adapter.enter registration conversation) = (.ok firing, a)) :
    { s with
      adapter := a
      visits := ⟨i, firing, s.adapter.whereabouts⟩ :: s.visits
      entered := i :: s.entered }.Steady start := by
  have hentered : ∀ visit ∈ (⟨i, firing, s.adapter.whereabouts⟩ : Visit) :: s.visits,
      visit.callback ∈ i :: s.entered := by
    refine List.forall_mem_cons.mpr ⟨List.mem_cons_self, fun visit hvisit => ?_⟩
    exact List.mem_cons_of_mem _ (h.entered visit hvisit)
  have hpairwise (hevent : firing.event = registration.event) :
      ((⟨i, firing, s.adapter.whereabouts⟩ : Visit) :: s.visits).Pairwise fun visit outer =>
        visit.firing.event.isRepeating = false → visit.callback ≠ outer.callback := by
    refine List.pairwise_cons.mpr ⟨fun outer houter hrepeating heq => ?_, h.once⟩
    rw [hevent] at hrepeating
    have hbefore : i = outer.callback := heq
    exact honce hrepeating (hbefore ▸ h.entered outer houter)
  cases hr : s.adapter.recorder with
  | none =>
      rw [Adapter.run_enter_of_none hr] at henter
      cases henter
      have hcontext := h.unplaced hr registration (List.mem_of_getElem? hi)
      have hwhere : s.adapter.whereabouts.1 = none := by
        rw [Adapter.whereabouts, hr]
        rfl
      refine ⟨.cons h.stacked hi rfl hwhere.symm rfl ?_, h.root, fun r hr' => ?_, h.unplaced,
        hentered, hpairwise rfl⟩
      · rw [hcontext, Adapter.whereabouts, hr]
        rfl
      · cases hr.symm.trans hr'
  | some r =>
      have hplaced := h.placed r hr
      obtain ⟨id, hid, hroot, hlt⟩ := hplaced.contexts i registration hi
      rcases Adapter.run_enter_cases hr hplaced.intact.active hid conversation with
        ⟨e, b, hrun, -⟩ | ⟨hlive, r', honward, hrun⟩
      · cases hrun.symm.trans henter
      · cases hrun.symm.trans henter
        have hwhere : s.adapter.whereabouts.1 = some r.active := by
          rw [Adapter.whereabouts, hr]
          rfl
        refine ⟨.cons h.stacked hi rfl hwhere.symm rfl ?_, ?_, fun r'' hr'' => ?_,
          fun hnone => absurd hnone (Option.some_ne_none _),
          hentered, hpairwise rfl⟩
        · exact (congrArg some honward.active).trans hid.symm
        · rw [h.root, hr]
          rfl
        · obtain rfl := Option.some.inj hr''
          refine ⟨honward.intact (hplaced.intact.switchTo hlive), fun j g hj => ?_,
            hplaced.distinct, List.forall_mem_cons.mpr ⟨?_, fun visit hvisit => ?_⟩⟩
          · obtain ⟨other, hother, hne, hlt⟩ := hplaced.contexts j g hj
            exact ⟨other, hother, hne, Nat.lt_of_lt_of_le hlt honward.next⟩
          · exact ⟨registration, id, hi, hid, honward.live id hlive⟩
          · obtain ⟨g, other, hg, hother, hlive'⟩ := hplaced.live visit hvisit
            exact ⟨g, other, hg, hother, honward.live other hlive'⟩

/-- A callback that cannot be entered changes nothing. -/
theorem Steady.onward_enter (h : s.Steady start) {i : Nat} {registration : Registration}
    (hi : s.callbacks[i]? = some registration) {conversation : Option ConversationId}
    {e : TraceError}
    (henter : s.adapter.run (Adapter.enter registration conversation) = (.error e, a)) :
    s.adapter.Onward a := by
  cases hr : s.adapter.recorder with
  | none =>
      rw [Adapter.run_enter_of_none hr] at henter
      cases henter
  | some r =>
      have hplaced := h.placed r hr
      obtain ⟨id, hid, -⟩ := hplaced.contexts i registration hi
      rcases Adapter.run_enter_cases hr hplaced.intact.active hid conversation with
        ⟨e, b, hrun, honward⟩ | ⟨-, r', -, hrun⟩
      · cases hrun.symm.trans henter
        exact honward
      · cases hrun.symm.trans henter

/-- Without a recorder no context is active anywhere. -/
theorem Steady.before_of_none (h : s.Steady start) (hr : s.adapter.recorder = none) {visit : Visit}
    {visits : List Visit} (hvisits : s.visits = visit :: visits) : visit.before.1 = none := by
  have hstacked := h.stacked
  rw [hvisits] at hstacked
  cases hstacked with
  | cons outer registered event context conversation inside =>
      generalize visit.before = before at outer
      cases outer with
      | nil => rw [h.root, hr, Option.map_none]
      | cons _ registered' _ _ _ inside' =>
          exact inside'.trans (h.unplaced hr _ (List.mem_of_getElem? registered'))

/-- The recorder once a callback is over can go on, as can those that still run. -/
theorem Placed.restored (h : s.Placed r) {visits : List Visit} (hvisits : ∀ v ∈ visits, v ∈ s.visits)
    (hr : r.Onward r') {previous : ContextId} (hprevious : r.Live previous)
    {isRepeating : Bool} (hactive : isRepeating = false → r.active ≠ rootContext ∧
      previous ≠ r.active ∧ ∀ v ∈ visits, ∀ registration : Registration,
        s.callbacks[v.callback]? = some registration → registration.context ≠ some r.active)
    {s' : Scene} (hcallbacks : s'.callbacks = s.callbacks) (hleft : s'.visits = visits) :
    s'.Placed (Adapter.restored r' isRepeating r.active previous) := by
  have hback : s'.Placed { r' with active := previous } := by
    have hplaced : s.Placed r' := h.onward hr rfl rfl
    refine ⟨hplaced.intact.switchTo (hr.live _ hprevious), hcallbacks ▸ hplaced.contexts,
      hcallbacks ▸ hplaced.distinct, fun v hv => ?_⟩
    rw [hcallbacks]
    exact hplaced.live v (hvisits v (hleft ▸ hv))
  cases isRepeating with
  | true => exact hback
  | false =>
      obtain ⟨hroot, hne, hothers⟩ := hactive rfl
      rw [Adapter.restored, if_neg Bool.false_ne_true,
        Recorder.run_release_of_ne (r := { r' with active := previous }) hroot hne.symm]
      refine hback.without hroot hne.symm fun v hv => ?_
      rw [hcallbacks]
      exact hothers v (hleft ▸ hv)

/-- However a callback is left, the adapter is back from where it was entered. -/
theorem Steady.leave (h : s.Steady start) {visit : Visit} {visits : List Visit}
    (hvisits : s.visits = visit :: visits) (completed : Bool) :
    let a := (s.adapter.run (Adapter.leave visit.firing completed)).2
    a.whereabouts = visit.before ∧ { s with adapter := a, visits }.Steady start := by
  intro a
  have hstacked := h.stacked
  have honce := h.once
  have hentered := h.entered
  rw [hvisits] at hstacked honce hentered
  obtain ⟨hfirst, honce⟩ := List.pairwise_cons.mp honce
  obtain ⟨-, hentered⟩ := List.forall_mem_cons.mp hentered
  cases hstacked with
  | cons outer registered event context conversation inside =>
      rename_i registration
      cases hr : s.adapter.recorder with
      | none =>
          have ha : a = { s.adapter with conversation := visit.firing.previousConversation } := by
            simp only [a, Adapter.run_leave_of_none hr]
          have hwhere : a.whereabouts = visit.before := by
            rw [ha]
            exact Prod.ext ((congrArg (Option.map Recorder.active) hr).trans (h.before_of_none hr hvisits).symm) conversation
          refine ⟨hwhere, hwhere ▸ outer, ?_, fun r hr' => ?_, fun _ => h.unplaced hr, hentered, honce⟩
          · exact h.root.trans (by rw [ha])
          · rw [ha] at hr'
            cases hr.symm.trans hr'
      | some r =>
          have hplaced := h.placed r hr
          obtain ⟨previous, hprevious, hbefore, hlive, hne⟩ := h.exists_previous hr hvisits
          obtain ⟨id, hid, hroot, -⟩ := hplaced.contexts _ _ registered
          have hactive : registration.context = some r.active := by
            rw [← inside, Adapter.whereabouts, hr]
            rfl
          -- the end of the body, if it comes to that
          obtain ⟨closed, r', hclosed, honward⟩ : ∃ closed r',
              (if completed then Recording.run Recorder.finish r else (.ok (), r)) = (closed, r') ∧
              r.Onward r' := by
            cases completed with
            | false => exact ⟨.ok (), r, rfl, .refl r⟩
            | true => exact ⟨_, _, rfl, (Recorder.retains_exit.bind fun _ =>
                Recorder.retains_restart).remains r⟩
          obtain ⟨c, hc⟩ := honward.live previous hlive
          have ha : a = { s.adapter with
              recorder := some (Adapter.restored r' visit.firing.event.isRepeating r.active previous)
              conversation := visit.firing.previousConversation } := by
            simp only [a, Adapter.run_leave hr hprevious completed hclosed hc]
          have hplaced' : ({ s with adapter := a, visits } : Scene).Placed
              (Adapter.restored r' visit.firing.event.isRepeating r.active previous) := by
            refine hplaced.restored (fun v hv => hvisits ▸ List.mem_cons_of_mem _ hv) honward hlive
              (fun hrepeating => ⟨?_, hne hrepeating, fun v hv g hg heq => ?_⟩) rfl rfl
            · rw [hid] at hactive
              exact Option.some.inj hactive ▸ hroot
            · exact hfirst v hv hrepeating
                (hplaced.distinct _ _ _ _ registered hg (hactive.trans heq.symm))
          · have hwhere : a.whereabouts = visit.before := by
              rw [ha]
              refine Prod.ext ?_ conversation
              exact (congrArg some (Adapter.active_restored ..)).trans hbefore.symm
            refine ⟨hwhere, hwhere ▸ outer, ?_, fun r'' hr'' => ?_, fun hnone => ?_, hentered, honce⟩
            · rw [h.root, hr, ha]
              rfl
            · rw [ha] at hr''
              obtain rfl := Option.some.inj hr''
              exact hplaced'
            · rw [ha] at hnone
              cases hnone

/-! ### Runs -/

theorem steady_perform (h : s.Steady start) {move : Move} (hmove : s.allows move = true) :
    (s.perform move).2.Steady start := by
  cases move with
  | operation op =>
      exact h.onward (Adapter.remains_record (Operation.remains_perform hmove) _) rfl rfl rfl
  | tracing | trace => exact h
  | register event =>
      have honward : s.adapter.Onward (s.adapter.run (Adapter.register event)).2 :=
        Adapter.remains_register event _
      simp only [perform]
      cases hregister : s.adapter.run (Adapter.register event) with
      | mk result a =>
          rw [hregister] at honward
          cases result with
          | error e => exact h.onward honward rfl rfl rfl
          | ok registration =>
              cases hr : s.adapter.recorder with
              | none =>
                  rw [Adapter.run_register_of_none hr] at hregister
                  cases hregister
                  exact h.register honward (fun r hr' => by cases hr.symm.trans hr') fun _ => rfl
              | some r =>
                  obtain ⟨r', id, ha, hid, hle, hlt⟩ := Adapter.run_register_of_ok hr hregister
                  refine h.register honward (fun r'' hr'' => ?_) fun hnone => ?_
                  · cases ha.symm.trans hr''
                    exact ⟨r, id, hr, hid, hle, hlt⟩
                  · cases ha.symm.trans hnone
  | discard i =>
      simp only [perform]
      cases hi : s.callbacks[i]? with
      | none => exact h
      | some registration =>
          refine h.discard hi fun visit hvisit => ?_
          simpa using List.all_eq_true.mp hmove visit hvisit
  | enter i conversation =>
      simp only [perform]
      cases hi : s.callbacks[i]? with
      | none => exact h
      | some registration =>
          dsimp only
          have honce : registration.event.isRepeating = false → i ∉ s.entered := by
            simpa [allows, hi, or_iff_not_imp_left] using hmove
          cases henter : s.adapter.run (Adapter.enter registration (s.conversation? conversation)) with
          | mk result a =>
              cases result with
              | error e => exact h.onward (h.onward_enter hi henter) rfl rfl rfl
              | ok firing => exact h.enter hi honce henter
  | leave completed =>
      simp only [perform]
      cases hvisits : s.visits with
      | nil => exact h
      | cons visit visits => exact (h.leave hvisits completed).2
  | respond value => exact h.onward (Adapter.remains_respond value _) rfl rfl rfl
  | fetch method url body => exact h.onward (Adapter.onward_fetch _ method url body) rfl rfl rfl
  | openConversation => exact h.onward (.of_eq rfl rfl) rfl rfl rfl
  | takeResponse c =>
      simp only [perform]
      cases s.conversations[c]? with
      | none => exact h
      | some id => exact h.onward (.of_eq rfl rfl) rfl rfl rfl

theorem steady_after {moves : List Move} (h : s.Steady start) (hmoves : s.orderly moves = true) :
    (s.after moves).Steady start := by
  induction moves generalizing s with
  | nil => exact h
  | cons move moves ih =>
      obtain ⟨hmove, hrest⟩ := Bool.and_eq_true_iff.mp hmoves
      exact ih (steady_perform h hmove) hrest

theorem steady_new {recorder : Option Recorder}
    (hrecorder : ∀ r, recorder = some r → r.Intact ∧ r.active = rootContext) (network : Network) :
    (new (.new recorder network)).Steady (Adapter.new recorder network).whereabouts where
  stacked := .nil
  root := by
    cases recorder with
    | none => rfl
    | some r => exact congrArg some (hrecorder r rfl).2
  placed r hr :=
    ⟨(hrecorder r hr).1, by rintro _ _ ⟨⟩, by rintro _ _ _ _ ⟨⟩, List.forall_mem_nil _⟩
  unplaced _ := List.forall_mem_nil _
  entered := List.forall_mem_nil _
  once := .nil

theorem orderly_append {moves more : List Move} : s.orderly (moves ++ more) = true ↔
    s.orderly moves = true ∧ (s.after moves).orderly more = true := by
  induction moves generalizing s with
  | nil => simp [orderly, after]
  | cons move moves ih => simp [orderly, after_cons, ih, and_assoc]

/-! ### Callbacks that were entered and left again -/

/-- Moves within one callback: whatever they enter they leave again, and no more. -/
def Balanced (s : Scene) (moves : List Move) : Prop :=
  (s.after moves).visits.length = s.visits.length ∧
    ∀ part, part <+: moves → s.visits.length ≤ (s.after part).visits.length

instance (s : Scene) (moves : List Move) : Decidable (s.Balanced moves) :=
  decidable_of_iff ((s.after moves).visits.length = s.visits.length ∧
    ∀ part ∈ moves.inits, s.visits.length ≤ (s.after part).visits.length)
    (by simp only [Balanced, List.mem_inits])

/-- A move enters a callback, leaves the innermost one or neither. -/
theorem visits_perform (s : Scene) (move : Move) :
    s.visits <:+ (s.perform move).2.visits ∨ (s.perform move).2.visits = s.visits.tail := by
  have hask : ∀ {α : Type} (step : Adapting α) (answer : α → Answer),
      s.visits <:+ (s.ask step answer).2.visits := fun _ _ => List.suffix_rfl
  cases move with
  | operation _ | respond _ => exact .inl (hask _ _)
  | tracing | trace | fetch _ _ _ | openConversation => exact .inl List.suffix_rfl
  | register event =>
      simp only [perform]
      rcases s.adapter.run (Adapter.register event) with ⟨_ | _, _⟩ <;> exact .inl List.suffix_rfl
  | discard i =>
      simp only [perform]
      cases s.callbacks[i]? <;> exact .inl List.suffix_rfl
  | enter i conversation =>
      simp only [perform]
      cases s.callbacks[i]? with
      | none => exact .inl List.suffix_rfl
      | some registration =>
          dsimp only
          rcases s.adapter.run (Adapter.enter registration _) with ⟨_ | _, _⟩
          · exact .inl List.suffix_rfl
          · exact .inl (List.suffix_cons ..)
  | leave completed =>
      simp only [perform]
      cases hvisits : s.visits with
      | nil => exact .inl (List.nil_suffix ..)
      | cons visit visits => exact .inr rfl
  | takeResponse c =>
      simp only [perform]
      cases s.conversations[c]? <;> exact .inl List.suffix_rfl

theorem visits_enter {i : Nat} {conversation : Option Nat}
    (h : (s.perform (.enter i conversation)).1.isOk = true) :
    ∃ firing, (s.perform (.enter i conversation)).2.visits =
      ⟨i, firing, s.adapter.whereabouts⟩ :: s.visits := by
  simp only [perform] at h ⊢
  cases hi : s.callbacks[i]? with
  | none =>
      rw [hi] at h
      cases h
  | some registration =>
      rw [hi] at h
      dsimp only at h ⊢
      cases henter : s.adapter.run (Adapter.enter registration (s.conversation? conversation)) with
      | mk result a =>
          rw [henter] at h
          cases result with
          | error e => cases h
          | ok firing => exact ⟨firing, rfl⟩

theorem onward_of_refused (hs : s.Steady start) {i : Nat} {conversation : Option Nat}
    (h : (s.perform (.enter i conversation)).1.isOk = false) :
    s.adapter.Onward (s.perform (.enter i conversation)).2.adapter := by
  simp only [perform] at h ⊢
  cases hi : s.callbacks[i]? with
  | none => exact .refl _
  | some registration =>
      rw [hi] at h
      dsimp only at h ⊢
      cases henter : s.adapter.run (Adapter.enter registration (s.conversation? conversation)) with
      | mk result a =>
          rw [henter] at h
          cases result with
          | ok firing => cases h
          | error e => exact hs.onward_enter hi henter

/-- The callbacks around those moves go on running meanwhile. -/
theorem Balanced.visits_eq {moves : List Move} (h : s.Balanced moves) :
    (s.after moves).visits = s.visits := by
  suffices hsuffix : ∀ part, part <+: moves → s.visits <:+ (s.after part).visits from
    ((hsuffix moves List.prefix_rfl).eq_of_length h.1.symm).symm
  intro part
  induction part using List.reverseRecOn with
  | nil => exact fun _ => List.suffix_rfl
  | append_singleton part move ih =>
      intro hpart
      have hbefore := ih ((List.prefix_append part [move]).trans hpart)
      have hlength := h.2 _ hpart
      rw [after_append] at hlength ⊢
      rcases visits_perform (s.after part) move with hmore | htail
      · exact hbefore.trans hmore
      · -- what is left is not one of the callbacks around
        change _ ≤ ((s.after part).perform move).2.visits.length at hlength
        change _ <:+ ((s.after part).perform move).2.visits
        rw [htail] at hlength ⊢
        obtain ⟨inner, hinner⟩ := hbefore
        cases inner with
        | nil =>
            rw [← hinner, List.nil_append, List.length_tail] at hlength
            have hempty : s.visits = [] := List.length_eq_zero_iff.mp (by omega)
            rw [hempty]
            exact List.nil_suffix ..
        | cons visit inner =>
            rw [← hinner]
            exact ⟨inner, rfl⟩

/-- However a callback goes and however it is left, the context and the conversation are those
just before it was entered.  One that cannot be entered leaves them as they were, and so does
anything in which all callbacks are left. -/
theorem whereabouts_restored {recorder : Option Recorder}
    (hrecorder : ∀ r, recorder = some r →
      (∃ ops, (Operation.performAll ops .new).2 = r) ∧ r.active = rootContext)
    (network : Network) :
    let start := new (.new recorder network)
    (∀ before i conversation inner completed,
      start.orderly (before ++ .enter i conversation :: inner ++ [.leave completed]) = true →
      let outside := start.after before
      let inside := (outside.perform (.enter i conversation)).2
      (outside.perform (.enter i conversation)).1.isOk = true → inside.Balanced inner →
      ((inside.after inner).perform (.leave completed)).2.adapter.whereabouts =
        outside.adapter.whereabouts) ∧
    (∀ before i conversation,
      start.orderly (before ++ [.enter i conversation]) = true →
      let outside := start.after before
      (outside.perform (.enter i conversation)).1.isOk = false →
      (outside.perform (.enter i conversation)).2.adapter.whereabouts =
        outside.adapter.whereabouts) ∧
    ∀ moves, start.orderly moves = true → (start.after moves).visits = [] →
      (start.after moves).adapter.whereabouts = start.adapter.whereabouts := by
  intro start
  have hstart : start.Steady start.adapter.whereabouts := by
    refine steady_new (fun r hr => ?_) network
    obtain ⟨⟨ops, rfl⟩, hactive⟩ := hrecorder r hr
    exact ⟨Operation.intact_performAll ops Recorder.intact_new, hactive⟩
  refine ⟨fun before i conversation inner completed hmoves => ?_,
    fun before i conversation hmoves => ?_, fun moves hmoves hleft => ?_⟩
  · intro outside inside hentered hinner
    rw [orderly_append, orderly_append] at hmoves
    obtain ⟨⟨hbefore, hinside⟩, hleave⟩ := hmoves
    have hsteady := steady_after hstart (orderly_append.mpr ⟨hbefore, hinside⟩)
    rw [after_append, after_cons] at hsteady hleave
    obtain ⟨firing, hvisits⟩ := visits_enter hentered
    have hvisits' : (inside.after inner).visits = _ := hinner.visits_eq.trans hvisits
    have hback := (hsteady.leave hvisits' completed).1
    rw [perform, hvisits']
    exact hback
  · intro outside hrefused
    obtain ⟨hbefore, hallowed⟩ := orderly_append.mp hmoves
    exact (onward_of_refused (steady_after hstart hbefore) hrefused).whereabouts_eq
  · have hstacked := (steady_after hstart hmoves).stacked
    rw [hleft] at hstacked
    generalize (start.after moves).adapter.whereabouts = now at hstacked
    cases hstacked
    rfl

/-- A callback runs within another one, makes the recorder unusable there and is left as if
completed; so is the one around it, which listens in a conversation of its own. -/
theorem whereabouts_restored_unusable :
    let ops : List Operation := [.callback "click" (.string "b") ["e"] (.closure []), .switchTo 1,
      .restart, .switchTo 0]
    let recorder := (Operation.performAll ops .new).2
    let start := new (.new (some recorder) (.ofRoutes []))
    let before : List Move := [.operation (.pushArgs [.undefined, .closure []]), .register .listen,
      .openConversation]
    let inner : List Move := [.operation .popArgs, .operation (.pushArgs [.undefined, .closure []]),
      .register .immediate, .enter 1 none, .operation (.breakTo "absent" .undefined), .leave true]
    let outside := start.after before
    let inside := (outside.perform (.enter 0 (some 0))).2
    (∀ r, some recorder = some r →
      (∃ ops, (Operation.performAll ops .new).2 = r) ∧ r.active = rootContext) ∧
    start.orderly (before ++ .enter 0 (some 0) :: inner ++ [.leave true]) = true ∧
    (outside.perform (.enter 0 (some 0))).1.isOk = true ∧ inside.Balanced inner ∧
    inside.adapter.whereabouts = (some 2, some 0) ∧
    ((inside.after inner).perform (.leave true)).1.isOk = false ∧
    ((inside.after inner).perform (.leave true)).2.adapter.whereabouts =
      outside.adapter.whereabouts := by
  intro ops recorder start before inner outside inside
  have hrecorder : ∀ r, some recorder = some r →
      (∃ ops, (Operation.performAll ops .new).2 = r) ∧ r.active = rootContext := by
    intro r hr
    have hactive : recorder.active = rootContext := by decide +kernel
    obtain rfl : recorder = r := Option.some.inj hr
    exact ⟨⟨ops, rfl⟩, hactive⟩
  have hmoves : start.orderly (before ++ .enter 0 (some 0) :: inner ++ [.leave true]) = true := by
    decide +kernel
  have hentered : (outside.perform (.enter 0 (some 0))).1.isOk = true := by decide +kernel
  have hinner : inside.Balanced inner := by decide +kernel
  have hback := (whereabouts_restored hrecorder (.ofRoutes [])).1 before 0 (some 0) inner true
    hmoves hentered hinner
  refine ⟨hrecorder, hmoves, hentered, hinner, by decide +kernel, by decide +kernel, ?_⟩
  simp only [inside, outside, start]
  exact hback

end Scene

end TraceLoom
