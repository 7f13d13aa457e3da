import TraceLoom.Proofs.Host.Whereabouts
import TraceLoom.Proofs.Recorder.Echo

/-!
Adapters that do the same again.  Another adapter has a trace that covers what the first one comes
to record, and has the same routes.  Then it gives the same replies to the same moves, under other
numbers for contexts and conversations, and its trace stays as it is.
-/

namespace TraceLoom

open Trace

/-! ## What adapters record -/

namespace Recorder

variable {n m : Nat}

open Recording

theorem echoes_popArgs :
    Echoes n m popArgs popArgs id fun ts => ∀ t ∈ ts, Trace.Plain t :=
  (Echoes.of_map (p := Operation.Outcome.args) (q := Operation.Outcome.args)
    (echoes_perform (show Operation.popArgs.Plain from nofun) fun _ => rfl)
    fun _ _ h => Operation.Outcome.args.inj h).imp fun _ h => h.1 _ rfl

theorem echoes_callback {event : String} {arg closure : Trace} (params : List String)
    (harg : Trace.Plain arg) (hclosure : Trace.Plain closure) :
    Echoes n m (callback event arg params closure) (callback event arg params closure) (shift n m)
      (n ≤ ·) :=
  (Echoes.of_map (p := Operation.Outcome.context) (q := Operation.Outcome.context)
    (echoes_perform (show Operation.Plain (.callback event arg params closure) by
      simpa [Operation.Plain, Operation.expressions] using ⟨harg, hclosure⟩) fun _ => rfl)
    fun _ _ h => Operation.Outcome.context.inj h).imp fun _ h => h.2 _ rfl

/-- An operation without a result. -/
theorem echoes_of_done {x : Recording Unit} (op : Operation) (hx : op.perform = do x; return .done)
    (hop : op.Plain) (hplan : ∀ c, (op.plan? c).isSome = true) :
    Echoes n m x x id fun _ => True := by
  have h := echoes_perform (n := n) (m := m) hop hplan
  rw [hx] at h
  exact (Echoes.of_map (p := fun _ => Operation.Outcome.done) (q := fun _ => Operation.Outcome.done) h
    fun _ _ _ => rfl).imp fun _ _ => trivial

theorem echoes_registering (event : Event) :
    Echoes n m (registering event) (registering event) (shift n m) (n ≤ ·) := by
  refine echoes_popArgs.bind fun args hargs => echoes_callback _ ?_
    (plain_getD hargs fun _ => List.mem_of_getLast?)
  split
  · exact Trace.plain_leaf rfl rfl rfl
  · exact plain_getD hargs fun _ => List.mem_of_getElem?

theorem echoes_sending : Echoes n m sending sending id fun _ => True :=
  echoes_popArgs.bind fun _ hargs => echoes_of_done (.primitive "send" _) rfl
    (List.forall_mem_singleton.mpr (plain_getD hargs fun _ => List.mem_of_getElem?)) fun _ => rfl

theorem echoes_begin {args : List Trace} (hargs : ∀ t ∈ args, Trace.Plain t) :
    Echoes n m (begin args) (begin args) id fun _ => True :=
  (echoes_of_done .restart rfl nofun fun _ => rfl).bind fun _ _ =>
    echoes_of_done (.pushArgs args) rfl hargs fun _ => rfl

theorem echoes_finish : Echoes n m finish finish id fun _ => True :=
  (echoes_of_done .exit rfl nofun fun _ => rfl).bind fun _ _ =>
    echoes_of_done .restart rfl nofun fun _ => rfl

theorem echoes_switchTo {id : ContextId} (hid : Own n id) :
    Echoes n m (switchTo id) (switchTo (shift n m id)) (shift n m) (Own n) := by
  intro a a' previous ha hrun
  cases hc : a.context? id with
  | none =>
      rw [switchTo, run_bind, run_get] at hrun
      dsimp only at hrun
      rw [hc] at hrun
      cases hrun
  | some c =>
      rw [run_switchTo hc] at hrun
      cases hrun
      have hsound : ({ a with active := id } : Recorder).Sound :=
        ⟨ha.sound.tidy, ha.sound.contexts, ha.sound.fresh, ha.sound.distinct, ha.sound.root,
          ⟨c, hc⟩, ha.sound.failure⟩
      refine ⟨⟨⟨hsound, ha.pending, ha.failure, ha.le, hid⟩, .refl ha.sound.tidy.wellFormed, ha.own⟩,
        fun b hb hbsound _ => ?_⟩
      have hc' : b.context? (shift n m id) = some c := (hb.contexts id hid).trans hc
      have hmirrors := (hb.switchTo hid hc).2
      rw [Operation.run_switchTo, Operation.run_switchTo, hc, hc'] at hmirrors
      refine ⟨{ b with active := shift n m id }, ?_, hmirrors, ?_, rfl⟩
      · rw [run_switchTo hc', hb.active]
      · exact ⟨hbsound.tidy, hbsound.contexts, hbsound.fresh, hbsound.distinct, hbsound.root,
          ⟨c, hc'⟩, hbsound.failure⟩

theorem echoes_release {context : ContextId} (hcontext : Own n context) :
    Echoes n m (release context) (release (shift n m context)) id fun _ => True := by
  have hrun (r : Recorder) (id : ContextId) :
      run (release id) r = (.ok (), (run (Operation.release id).perform r).2) := rfl
  intro a a' _ ha hreleased
  rw [hrun] at hreleased
  cases hreleased
  have hplain (id : ContextId) : (Operation.release id).Plain := nofun
  have hkept := Operation.run_release context a
  refine ⟨⟨⟨(Operation.keepsSound_perform ha.sound (hplain context)).sound, fun entry hentry => ?_, ?_,
    ?_, ?_⟩, ?_, trivial⟩, fun b hb hbsound _ => ⟨_, hrun b _, (hb.release hcontext).2,
      (Operation.keepsSound_perform hbsound (hplain _)).sound, Operation.root_release _ b⟩⟩
  · rw [hkept] at hentry
    dsimp only at hentry
    split at hentry
    · exact ha.pending entry hentry
    · exact ha.pending entry (List.mem_of_mem_filter hentry)
  · rw [Operation.failure_release, ha.failure]
  · rw [hkept]
    dsimp only
    split <;> exact ha.le
  · rw [hkept]
    dsimp only
    split <;> exact ha.own
  · rw [Operation.root_release]
    exact .refl ha.sound.tidy.wellFormed

/-- Enters a context with arguments at hand. -/
def entering (context : ContextId) (args : List Trace) : Recording ContextId := do
  let previous ← switchTo context
  begin args
  return previous

/-- Goes back to a context, and gives up the one before unless it is needed again. -/
def returning (isRepeating : Bool) (context previous : ContextId) : Recording Unit := do
  let _ ← switchTo previous
  if !isRepeating then release context

/-- Leaves a context, whose list is closed if it is complete. -/
def leaving (completed isRepeating : Bool) (context previous : ContextId) : Recording Unit := do
  if completed then finish
  returning isRepeating context previous

theorem echoes_entering {id : ContextId} (hid : Own n id) {args : List Trace}
    (hargs : ∀ t ∈ args, Trace.Plain t) :
    Echoes n m (entering id args) (entering (shift n m id) args) (shift n m) (Own n) :=
  (echoes_switchTo hid).bind fun _ hprevious => (echoes_begin hargs).bind fun _ _ =>
    echoes_pure hprevious

theorem echoes_leaving (completed isRepeating : Bool) {context previous : ContextId}
    (hcontext : Own n context) (hprevious : Own n previous) :
    Echoes n m (leaving completed isRepeating context previous)
      (leaving completed isRepeating (shift n m context) (shift n m previous)) id
      fun _ => True := by
  have hreturning : Echoes n m (returning isRepeating context previous)
      (returning isRepeating (shift n m context) (shift n m previous)) id fun _ => True := by
    refine (echoes_switchTo hprevious).bind fun _ _ => ?_
    cases isRepeating with
    | true => exact echoes_pure (f := id) (v := ()) trivial
    | false => exact echoes_release hcontext
  cases completed with
  | true => exact echoes_finish.bind fun _ _ => hreturning
  | false => exact hreturning

variable {r r' : Recorder}

theorem run_switchTo_of_ok {id previous : ContextId} (h : run (switchTo id) r = (.ok previous, r')) :
    previous = r.active ∧ r' = { r with active := id } := by
  cases hc : r.context? id with
  | none =>
      rw [switchTo, run_bind, run_get] at h
      dsimp only at h
      rw [hc] at h
      cases h
  | some c =>
      rw [run_switchTo hc] at h
      cases h
      exact ⟨rfl, rfl⟩

theorem previous_of_entering {context previous : ContextId} {args : List Trace}
    (h : run (entering context args) r = (.ok previous, r')) : previous = r.active := by
  rw [entering, run_bind] at h
  rcases hswitch : run (switchTo context) r with ⟨_ | id, r₁⟩
  · rw [hswitch] at h
    cases h
  · rw [hswitch] at h
    dsimp only at h
    rw [run_bind] at h
    rcases hbegin : run (begin args) r₁ with ⟨_ | _, r₂⟩
    · rw [hbegin] at h
      cases h
    · rw [hbegin] at h
      cases h
      exact (run_switchTo_of_ok hswitch).1

theorem active_of_leaving {completed isRepeating : Bool} {context previous : ContextId}
    (h : run (leaving completed isRepeating context previous) r = (.ok (), r')) :
    r'.active = previous := by
  have hreturning {r r' : Recorder}
      (h : run (returning isRepeating context previous) r = (.ok (), r')) : r'.active = previous := by
    rw [returning, run_bind] at h
    rcases hswitch : run (switchTo previous) r with ⟨_ | id, r₁⟩
    · rw [hswitch] at h
      cases h
    · obtain ⟨-, rfl⟩ := run_switchTo_of_ok hswitch
      rw [hswitch] at h
      dsimp only at h
      cases isRepeating with
      | true =>
          cases h
          rfl
      | false =>
          obtain rfl : (run (release context) { r with active := previous }).2 = r' :=
            congrArg Prod.snd h
          change (if _ then _ else _ : Recorder).active = previous
          split <;> rfl
  cases completed with
  | false => exact hreturning h
  | true =>
      change run (finish >>= fun _ => returning isRepeating context previous) r = _ at h
      rw [run_bind] at h
      rcases hfinish : run finish r with ⟨_ | _, r₁⟩
      · rw [hfinish] at h
        cases h
      · rw [hfinish] at h
        exact hreturning h

end Recorder

namespace Adapter

variable {a b : Adapter} {r : Recorder}

theorem run_enter_eq_ok_iff (h : a.recorder = some r) {registration : Registration} {id : ContextId}
    (hid : registration.context = some id) {conversation : Option ConversationId} {firing : Firing} :
    a.run (enter registration conversation) = (.ok firing, b) ↔
      ∃ previous r', Recording.run
          (Recorder.entering id [.name "clos", .name registration.event.param]) r =
            (.ok previous, r') ∧
        firing = ⟨registration.event, some previous, a.conversation⟩ ∧
        b = { a with
          recorder := some r', conversation := conversation.or registration.conversation } := by
  rw [Recorder.entering, Recording.run_bind]
  cases hc : r.context? id with
  | none =>
      have hswitch : Recording.run (Recorder.switchTo id) r = (.error (.unknownContext id), r) := by
        rw [Recorder.switchTo, Recording.run_bind, Recording.run_get]
        dsimp only
        rw [hc]
        rfl
      rw [hswitch, enter, run_bind, run_get]
      dsimp only
      rw [h, hid]
      dsimp only
      rw [run_bind, run_record h, hswitch]
      simp
  | some c =>
      rw [run_enter h hid hc, Recorder.run_switchTo hc]
      dsimp only
      rw [Recording.run_bind]
      rcases Recording.run (Recorder.begin [.name "clos", .name registration.event.param])
        { r with active := id } with ⟨e | _, r'⟩
      · simp only [reduceCtorEq, false_and, exists_false, iff_false, Prod.mk.injEq, not_and]
        intro hok
        cases hswitch : (Recording.run (Recorder.switchTo r.active) r').1 <;> rw [hswitch] at hok <;>
          cases hok
      · simp only [Recording.run_pure, Prod.mk.injEq, Except.ok.injEq]
        constructor
        · rintro ⟨rfl, rfl⟩
          exact ⟨_, _, ⟨rfl, rfl⟩, rfl, rfl⟩
        · rintro ⟨_, _, ⟨rfl, rfl⟩, rfl, rfl⟩
          exact ⟨rfl, rfl⟩

/-- Going back to the context before, and what then comes of closing the list. -/
theorem run_leave_eq (h : a.recorder = some r) {firing : Firing} {previous : ContextId}
    (hprevious : firing.previousContext = some previous) (completed : Bool)
    {closed : Except TraceError Unit} {r' : Recorder}
    (hclosed : (if completed then Recording.run Recorder.finish r else (.ok (), r)) = (closed, r')) :
    a.run (leave firing completed) =
      ((Recording.run (Recorder.returning firing.event.isRepeating r.active previous) r').1.bind
          fun _ => closed,
        { a with
          recorder := some (Recording.run
            (Recorder.returning firing.event.isRepeating r.active previous) r').2
          conversation := firing.previousConversation }) := by
  have hback : run { a with recorder := some r', conversation := firing.previousConversation } (do
        let _ ← record (Recorder.switchTo previous)
        if !firing.event.isRepeating then
          record (Recorder.release r.active)
          MonadExcept.ofExcept closed
        else MonadExcept.ofExcept closed) =
      ((Recording.run (Recorder.returning firing.event.isRepeating r.active previous) r').1.bind
          fun _ => closed,
        { a with
          recorder := some (Recording.run
            (Recorder.returning firing.event.isRepeating r.active previous) r').2
          conversation := firing.previousConversation }) := by
    rw [run_bind, run_record rfl, Recorder.returning, Recording.run_bind]
    rcases Recording.run (Recorder.switchTo previous) r' with ⟨e | _, r''⟩
    · rfl
    · cases hrepeating : firing.event.isRepeating with
      | true => exact run_ofExcept _ _
      | false =>
          dsimp only
          rw [Bool.not_false, if_pos rfl, if_pos rfl, run_bind, run_record rfl]
          exact run_ofExcept _ _
  rw [leave, run_bind, run_modify]
  dsimp only
  rw [run_bind, run_get]
  dsimp only
  rw [h, hprevious]
  dsimp only
  cases completed with
  | false =>
      obtain ⟨rfl, rfl⟩ := Prod.mk.inj hclosed
      rw [if_neg Bool.false_ne_true, pure_bind]
      exact hback
  | true =>
      rw [if_pos rfl] at hclosed ⊢
      rw [run_bind, run_finish rfl, hclosed]
      exact hback

theorem run_leave_eq_ok_iff (h : a.recorder = some r) {firing : Firing} {previous : ContextId}
    (hprevious : firing.previousContext = some previous) (completed : Bool) :
    a.run (leave firing completed) = (.ok (), b) ↔
      ∃ r', Recording.run
          (Recorder.leaving completed firing.event.isRepeating r.active previous) r = (.ok (), r') ∧
        b = { a with recorder := some r', conversation := firing.previousConversation } := by
  cases completed with
  | false =>
      have hclosed : (if false then Recording.run Recorder.finish r else (.ok (), r)) = (.ok (), r) :=
        rfl
      rw [run_leave_eq h hprevious false hclosed]
      change _ ↔ ∃ r', Recording.run
        (Recorder.returning firing.event.isRepeating r.active previous) r = (.ok (), r') ∧ _
      rcases Recording.run (Recorder.returning firing.event.isRepeating r.active previous) r with
        ⟨e | _, r'⟩ <;> simp [Except.bind, eq_comm]
  | true =>
      change _ ↔ ∃ r', Recording.run (Recorder.finish >>= fun _ =>
        Recorder.returning firing.event.isRepeating r.active previous) r = (.ok (), r') ∧ _
      rw [Recording.run_bind]
      rcases hclosed : Recording.run Recorder.finish r with ⟨closed, r'⟩
      rw [run_leave_eq h hprevious true hclosed]
      cases closed with
      | error e =>
          rcases Recording.run (Recorder.returning firing.event.isRepeating r.active previous) r' with
            ⟨e | _, r''⟩ <;> simp [Except.bind]
      | ok _ =>
          dsimp only
          rcases Recording.run (Recorder.returning firing.event.isRepeating r.active previous) r' with
            ⟨e | _, r''⟩ <;> simp [Except.bind, eq_comm]

end Adapter

end TraceLoom
