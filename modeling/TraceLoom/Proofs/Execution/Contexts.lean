import TraceLoom.Proofs.Execution.Minding

/-!
The contexts of an evaluator in use.  A callback that is over gives its context back, so that
contexts do not pile up however long an evaluator is called.  Only two things stand in the way: a
request that turns out to be none when its callback has been registered, and a recorder out of use,
in which a callback cannot be entered.  Either ends the call, and one context is left behind.
-/

namespace TraceLoom

open Script Running
open Recorder (rootContext SameContexts)

/-! ## Firing -/

namespace Running

variable {α : Type} {m n : Machine} {held held' : List ContextId} {r r' : Recorder}
  {id : ContextId} {registration : Registration}

/-- The contexts that are held while a callback runs: its own is among them if it is not kept for
another time. -/
def heldBy (registration : Registration) (id : ContextId) (held : List ContextId) :
    List ContextId :=
  if registration.event.isRepeating then held else id :: held

theorem subset_heldBy : held ⊆ heldBy registration id held := by
  unfold heldBy
  split
  · exact List.Subset.refl _
  · exact List.subset_cons_self _ _

theorem kept_subset_heldBy (lost : List ContextId) :
    n.kept (lost ++ held) ⊆ n.kept (lost ++ heldBy registration id held) :=
  Machine.kept_mono (fun _ hl => hl) (List.append_subset.mpr ⟨List.subset_append_left _ _,
    List.Subset.trans subset_heldBy (List.subset_append_right _ _)⟩)

/-- A callback is entered, unless the recorder is out of use. -/
theorem run_enter_cases (hn : n.Allots held' r) (hid : registration.context = some id)
    (hmem : some id ∈ n.kept held') (conversation : Option ConversationId) :
    (∃ cause, n.run (adapting (Adapter.enter registration conversation)) =
        (.error (.trace (.poisoned cause)), n)) ∨
      ∃ k firing r', n.run (adapting (Adapter.enter registration conversation)) = (.ok firing, k) ∧
        firing.event = registration.event ∧ firing.previousContext = some r.active ∧
        k.Allots held' r' ∧ r'.active = id ∧ k.listener = n.listener := by
  obtain ⟨c, hc⟩ := Recorder.live_iff_mem_ids.mpr (hn.live_of_mem_kept hmem)
  have hlive : ({ r with active := id } : Recorder).Live id := ⟨c, hc⟩
  rw [Machine.run_adapting, Adapter.run_enter hn.recorder hid hc]
  rcases Recorder.run_begin_cases hlive [.name "clos", .name registration.event.param] with
    ⟨cause, hrun⟩ | ⟨r', hrun, hsame⟩
  · refine .inl ⟨cause, ?_⟩
    obtain ⟨d, hd⟩ := Recorder.live_iff_mem_ids.mpr (hn.live_of_mem_kept hn.active)
    have hback := Recorder.run_switchTo (r := { r with active := id }) hd
    rw [hrun]
    dsimp only
    rw [hback]
    dsimp only
    rw [← hn.recorder]
    rfl
  · rw [hrun]
    exact .inr ⟨_, _, r', rfl, rfl, rfl, (hn.switchTo hmem).congr rfl hsame rfl rfl,
      hsame.active, rfl⟩

/-- A callback that is over gives its context back, unless it may run again. -/
theorem allots_restored {lost : List ContextId}
    (hn : n.Allots (lost ++ heldBy registration id held) r) {previous : ContextId}
    (hmem : some previous ∈ n.kept (lost ++ held)) :
    Machine.Allots
      { n with adapter := { n.adapter with
        recorder := some (Adapter.restored r registration.event.isRepeating id previous) } }
      (lost ++ held) (Adapter.restored r registration.event.isRepeating id previous) := by
  have hback := hn.switchTo (kept_subset_heldBy lost hmem)
  unfold heldBy at hback
  cases hrepeating : registration.event.isRepeating with
  | true =>
      rw [hrepeating, if_pos rfl] at hback
      exact hback
  | false =>
      rw [hrepeating, if_neg Bool.false_ne_true] at hback
      have hheld := hback.perm List.perm_middle
      have hrelease := Recorder.run_release_of_ne hheld.ne_root (hheld.ne_active hmem)
      rw [Adapter.restored, if_neg Bool.false_ne_true, hrelease]
      exact hheld.without hmem

/-- Once a callback is left, the context from before is active again. -/
theorem run_leave_allots {lost : List ContextId}
    (hn : n.Allots (lost ++ heldBy registration id held) r) (hactive : r.active = id)
    {firing : Firing} {previous : ContextId} (hevent : firing.event = registration.event)
    (hprevious : firing.previousContext = some previous)
    (hmem : some previous ∈ n.kept (lost ++ held)) (completed : Bool) :
    ∃ left k r', n.run (adapting (Adapter.leave firing completed)) = (left, k) ∧
      k.Allots (lost ++ held) r' ∧ r'.active = previous ∧ k.listener = n.listener := by
  -- the end of the body, if it comes to that
  obtain ⟨closed, r₁, hclosed, hsame⟩ : ∃ closed r₁,
      (if completed then Recording.run Recorder.finish r else (.ok (), r)) = (closed, r₁) ∧
      r.SameContexts r₁ := by
    cases completed with
    | false => exact ⟨.ok (), r, rfl, .refl r⟩
    | true => exact ⟨_, _, rfl, (Recorder.retains_exit.bind fun _ => Recorder.retains_restart) r⟩
  have hn₁ : Machine.Allots { n with adapter := { n.adapter with recorder := some r₁ } }
      (lost ++ heldBy registration id held) r₁ := hn.congr rfl hsame rfl rfl
  have hrestored := allots_restored hn₁ hmem
  have hlive : previous ∈ r₁.ids := hn₁.live_of_mem_kept (kept_subset_heldBy lost hmem)
  obtain ⟨c, hc⟩ := Recorder.live_iff_mem_ids.mpr hlive
  rw [Machine.run_adapting, Adapter.run_leave hn.recorder hprevious completed hclosed hc, hactive,
    hevent]
  exact ⟨_, _, _, rfl, hrestored.congr rfl (.refl _) rfl rfl, Adapter.active_restored .., rfl⟩

/-- A callback runs, and gives its context back in the end. -/
theorem settles_fire {callback : Running α} (hm : m.Allots held r)
    (h : m.Proceeds n (heldBy registration id held)) (hid : registration.context = some id)
    (hmem : some id ∈ n.kept (heldBy registration id held))
    (conversation : Option ConversationId) (hcallback : Minds (fun _ => True) callback) :
    m.Settles held (fun _ held' => held' = held)
      (n.run (fire registration conversation callback)) := by
  obtain ⟨r₁, hn⟩ := h.allots
  rcases run_enter_cases hn hid hmem conversation with
    ⟨cause, hrun⟩ | ⟨k, firing, r₂, henter, hevent, hprevious, hk, hactive, hlistener⟩
  · rw [fire, Machine.run_bind, hrun]
    unfold heldBy at h
    split at h
    · exact .failed h
    · exact .stranded h rfl
  · have hbody := hcallback k _ r₂ hk
    cases hrun : k.run callback with
    | mk result l =>
        rw [hrun] at hbody
        obtain ⟨lost, hl, hlost⟩ := hbody.exists_lost
        obtain ⟨r₃, hl'⟩ := hl.allots
        have hactive' : r₃.active = id := by
          have hsame := hl.active
          rw [hl'.recorder, hk.recorder] at hsame
          exact (Option.some.inj hsame).trans hactive
        have hlisteners : ∀ listener, n.listener = some listener → l.listener = some listener :=
          fun listener hn => hl.listener listener (hlistener.trans hn)
        have hback : some r₁.active ∈ l.kept (lost.toList ++ held) :=
          Machine.kept_mono hlisteners (List.subset_append_right _ _) (h.active_mem hm hn)
        obtain ⟨left, l', r₄, hleave, hfinal, hactive₄, hlistener₄⟩ :=
          run_leave_allots hl' hactive' hevent hprevious hback result.toBool
        rw [Machine.run_fire henter hrun hleave]
        refine .of_lost ⟨⟨r₄, hfinal⟩, ?_, fun listener hm => ?_⟩ fun hsome => ?_
        · rw [hfinal.recorder, Option.map_some, hactive₄, ← h.active, hn.recorder]
          rfl
        · exact hlistener₄.trans (hlisteners listener (h.listener listener hm))
        · obtain ⟨e, rfl, he⟩ := hlost hsome
          exact ⟨e, rfl, he⟩

/-- The same for a callback that runs once, whose context is held for it. -/
theorem settles_fire_held {callback : Running α} (hm : m.Allots held r)
    (h : m.Proceeds n (id :: held)) (hid : registration.context = some id)
    (honce : registration.event.isRepeating = false) (conversation : Option ConversationId)
    (hcallback : Minds (fun _ => True) callback) :
    m.Settles held (fun _ held' => held' = held)
      (n.run (fire registration conversation callback)) := by
  have hheld : heldBy registration id held = id :: held := by
    rw [heldBy, honce, if_neg Bool.false_ne_true]
  refine settles_fire hm (hheld ▸ h) hid ?_ conversation hcallback
  rw [hheld, (n.kept_cons_perm id held).mem_iff]
  exact List.mem_cons_self

/-! ## Programs -/

theorem minds_callNative {onAnswer : Registration → Value → Value → Running Unit}
    {callee : Option Expr} (native : Native) (args : List Value)
    (hanswer : ∀ {m n : Machine} {held : List ContextId} {r : Recorder} {id : ContextId}
      {registration : Registration} {callback answer : Value}, m.Allots held r →
      m.Proceeds n (id :: held) → registration.context = some id →
      registration.event.isRepeating = false →
      args.getLast? = some callback ∧ callback.isCallable = true → answer.isCallable = false →
      m.Settles held (fun _ held' => held' = held)
        (n.run (onAnswer registration callback answer))) :
    Minds (fun _ => True) (callNative onAnswer callee native args) := by
  rw [callNative_eq]
  refine (minds_permit callee (.native native) args).bind fun _ _ m held r hm => ?_
  refine (settles_perform hm native args).bind ?_
  rintro (v | ⟨registration, callback, answer⟩) n held' h howes
  · exact .done h ⟨howes, trivial⟩
  · obtain ⟨hcallback, hinert, honce, id, hid, rfl⟩ := howes
    refine (hanswer hm h hid honce hcallback hinert).bind ?_
    rintro _ k _ hk rfl
    exact .done hk ⟨rfl, trivial⟩

/-- Whatever programs do, they mind the contexts. -/
theorem pervasive_minds : Pervasive .all fun Q x => Minds Q x where
  toElementary := elementary_minds
  permit callee _ args _ := minds_permit callee _ args
  native {n answer} _ _ hinert := by
    refine (minds_callNative n [answer] fun _ _ _ _ hcallback _ => ?_).imp fun v _ => v.reaches_all
    -- an answer is no callback
    obtain ⟨hlast, hcallable⟩ := hcallback
    rw [← Option.some.inj hlast] at hcallable
    exact absurd hcallable (Bool.eq_false_iff.mp hinert)
  answering {n args _ _} _ _ _ hbody := by
    refine (minds_callNative n args fun hm h hid honce _ hinert => ?_).imp fun v _ => v.reaches_all
    exact settles_fire_held hm h hid honce none
      ((hbody _ _ (Value.reaches_all _) (Value.reaches_all _) hinert).imp fun _ _ => trivial)
  inserted _ hs := hs.elim

theorem minds_call (function : Value) (args : List Value) :
    Minds (fun _ => True) (call function args) :=
  (pervasive_minds.callFrom (fun e _ => e.proper_all) function.reaches_all
    fun v _ => v.reaches_all).imp fun _ _ => trivial

theorem minds_program (env : Environment) (p : Program) :
    Minds (fun _ => True) (Stmt.execBlock (fun callee => callFrom callee) env p) :=
  (pervasive_minds.program env (Stmt.properList_all p)).imp fun _ _ => trivial

/-- The callbacks that wait give their contexts back one after the other. -/
theorem minds_drain (limit remaining : Nat) : Minds (fun _ => True) (drain limit remaining) := by
  induction remaining with
  | zero =>
      intro m held r hm
      cases hpop : m.tasks.pop? with
      | none =>
          rw [run_drain_of_none hpop]
          exact .done hm.proceeds_refl ⟨rfl, trivial⟩
      | some popped =>
          rw [run_drain_zero hpop]
          exact .failed hm.proceeds_refl
  | succ remaining ih =>
      intro m held r hm
      cases hpop : m.tasks.pop? with
      | none =>
          rw [run_drain_of_none hpop]
          exact .done hm.proceeds_refl ⟨rfl, trivial⟩
      | some popped =>
          obtain ⟨task, tasks⟩ := popped
          obtain ⟨id, hid, hn⟩ := hm.pop hpop
          rw [run_drain_succ hpop]
          refine Machine.Settles.bind (settles_fire_held hm ⟨⟨r, hn⟩, rfl, fun _ hl => hl⟩ hid
            (hm.once task (by rw [Queue.toList_of_pop? hpop]; exact List.mem_cons_self)) none
            (minds_call task.callback [task.arg])) ?_
          rintro _ k _ hk rfl
          exact ih.settles hk

theorem minds_runProgram (budget : Nat) (p : Program) :
    Minds (fun _ => True) (Machine.runProgram budget p) := by
  intro m held r hm
  rw [runProgram_eq, Machine.run_bind, Machine.run_get]
  refine Minds.bind (minds_program m.globals p) (fun flow _ => ?_) m held r hm
  have hvalue : Minds (fun _ => True) (topValue flow) := by
    cases flow with
    | next | returnWith v => exact minds_pure trivial
    | breakTo label => exact minds_throw _
  exact hvalue.bind fun value _ => (minds_drain budget budget).bind fun _ _ => minds_pure trivial

theorem minds_request (budget : Nat) (body : Json) :
    Minds (fun _ => True) (Machine.request budget body) := by
  intro m held r hm
  rw [Machine.request, Machine.run_bind, Machine.run_get]
  dsimp only
  cases hl : m.listener with
  | none => exact .failed hm.proceeds_refl
  | some l =>
      obtain ⟨id, hid, hmem⟩ := hm.exists_listening hl
      have hheld : heldBy l.registration id held = held := by
        rw [heldBy, hm.repeats l hl, if_pos rfl]
      have hopen : Spares (fun _ => True) Machine.openConversation :=
        fun _ r hr => ⟨fun _ _ => trivial, ⟨r, hr, .refl r⟩, rfl, rfl⟩
      have htake (c : ConversationId) : Spares (fun _ => True) (Machine.takeResponse c) :=
        fun _ r hr => ⟨fun _ _ => trivial, ⟨r, hr, .refl r⟩, rfl, rfl⟩
      refine (hopen.minds m held r hm).bind ?_
      rintro c n₁ _ h₁ ⟨rfl, -⟩
      refine ((minds_make (Q := fun _ => True) fun _ => trivial).settles h₁).bind ?_
      rintro arg n₂ _ h₂ ⟨rfl, -⟩
      refine Machine.Settles.bind (settles_fire hm (hheld.symm ▸ h₂) hid ?_ (some c)
        (minds_call l.callback [arg])) ?_
      · rw [hheld]
        exact Machine.kept_mono h₂.listener (List.Subset.refl _) hmem
      · rintro _ n₃ _ h₃ rfl
        exact ((minds_drain budget budget).bind fun _ _ => (htake c).minds).settles h₃

end Running

namespace Machine

variable {α : Type} {m n : Machine} {held : List ContextId} {r : Recorder}

/-- The callbacks that wait, and the listener. -/
def waiting (m : Machine) : List Registration :=
  m.tasks.toList.map (·.registration) ++ (m.listener.map fun l => l.registration).toList

/-- With no program's variables, callbacks or listener. -/
def cleared (m : Machine) : Machine :=
  { m with
    store := Store.empty.newGlobals.2
    globals := Store.empty.newGlobals.1
    tasks := .empty
    listener := none }

theorem run_reset (m : Machine) :
    m.run reset = m.cleared.run (m.waiting.forM fun x => adapting (Adapter.discard x)) := by
  have hleft : m.run reset = m.cleared.run (do
      m.tasks.toList.forM fun task => adapting (Adapter.discard task.registration)
      m.listener.forM fun l => adapting (Adapter.discard l.registration)) := rfl
  rw [hleft, waiting]
  simp only [List.forM_eq_forM, List.forM_append, List.forM_map]
  cases m.listener with
  | none => simp
  | some l => simp

/-- Callbacks are given up, and with them their contexts. -/
theorem exists_discards {ids : List ContextId} {xs : List Registration}
    (hxs : xs.map Registration.context = ids.map some) (hm : m.Allots (ids ++ held) r)
    (hactive : some r.active ∈ m.kept held) :
    ∃ n r', m.run (xs.forM fun x => adapting (Adapter.discard x)) = (.ok (), n) ∧
      n.Allots held r' ∧ r'.active = r.active ∧ n.tasks = m.tasks ∧ n.listener = m.listener := by
  induction xs generalizing m r ids with
  | nil =>
      obtain rfl : ids = [] := List.map_eq_nil_iff.mp hxs.symm
      exact ⟨m, r, rfl, hm, rfl, rfl, rfl⟩
  | cons x xs ih =>
      cases ids with
      | nil => cases hxs
      | cons id ids =>
          obtain ⟨hx, hxs⟩ := List.cons.inj hxs
          have hactive' : some r.active ∈ m.kept (ids ++ held) :=
            kept_mono (fun _ hl => hl) (List.subset_append_right _ _) hactive
          obtain ⟨n, r', hrun, hn, hactive_eq, htasks, hlistener⟩ :=
            ih hxs (hm.without hactive') hactive
          refine ⟨n, r', ?_, hn, hactive_eq, htasks, hlistener⟩
          rw [← hrun]
          change m.run (adapting (Adapter.discard x) >>= fun _ =>
            xs.forM fun x => adapting (Adapter.discard x)) = _
          rw [run_bind, run_adapting, Adapter.run_discard hm.recorder hx,
            Recorder.run_release_of_ne hm.ne_root (hm.ne_active hactive')]
          rfl

/-- Between two calls an evaluator is in the root context, and some contexts are lost to it. -/
def Rests (m : Machine) (lost : List ContextId) : Prop :=
  ∃ r, m.Allots lost r ∧ r.active = rootContext

theorem rests_new (config : Config) (network : Network) :
    (Machine.new config (.new (some .new) network)).Rests [] :=
  ⟨.new, ⟨rfl, List.nodup_singleton _, List.forall_mem_singleton.mpr Nat.zero_lt_one, .refl _,
    List.mem_cons_self, List.forall_mem_nil _, nofun⟩, rfl⟩

theorem map_context_waiting (m : Machine) : m.waiting.map Registration.context =
    m.queued ++ (m.listener.map fun l => l.registration.context).toList := by
  rw [waiting, List.map_append, List.map_map, queued]
  cases m.listener <;> rfl

/-- Once everything is given up, the contexts of all that waited are held. -/
theorem Allots.exists_cleared (h : m.Allots held r) :
    ∃ ids : List ContextId, m.waiting.map Registration.context = ids.map some ∧
      (some r.active ∈ some rootContext :: held.map some → m.cleared.Allots (ids ++ held) r) := by
  have hsome : ∀ x ∈ m.waiting.map Registration.context, x ∈ Set.range some := by
    intro x hx
    rw [map_context_waiting] at hx
    have hmem : x ∈ m.queued ++ m.kept held :=
      (List.mem_append.mp hx).elim (List.mem_append_left _) fun hx =>
        List.mem_append_right _ (List.mem_cons_of_mem _ (List.mem_append_left _ hx))
    obtain ⟨id, -, rfl⟩ := List.mem_map.mp (h.contexts.mem_iff.mpr hmem)
    exact ⟨id, rfl⟩
  obtain ⟨ids, hids⟩ : m.waiting.map Registration.context ∈ Set.range (List.map some) := by
    rw [Set.range_list_map]
    exact hsome
  refine ⟨ids, hids.symm, fun hactive => ?_⟩
  refine ⟨h.recorder, h.nodup, h.fresh, h.contexts.trans ?_, ?_, List.forall_mem_nil _, nofun⟩
  · change List.Perm _ (some rootContext :: (ids ++ held).map some)
    rw [List.map_append, hids, map_context_waiting, List.append_assoc]
    exact List.perm_middle
  · change some r.active ∈ some rootContext :: (ids ++ held).map some
    exact List.cons_subset_cons _ (List.map_subset _ (List.subset_append_right _ _)) hactive

/-- A reset gives back all contexts that are in use. -/
theorem Rests.run_reset {lost : List ContextId} (h : m.Rests lost) :
    ∃ n, m.run reset = (.ok (), n) ∧ n.Rests lost ∧ n.tasks.toList = [] ∧ n.listener = none := by
  obtain ⟨r, hm, hactive⟩ := h
  obtain ⟨ids, hids, hcleared⟩ := hm.exists_cleared
  have hroot : some r.active ∈ some rootContext :: lost.map some := hactive ▸ List.mem_cons_self
  obtain ⟨n, r', hrun, hn, hactive', htasks, hlistener⟩ :=
    exists_discards hids (hcleared hroot) hroot
  exact ⟨n, m.run_reset.trans hrun, ⟨r', hn, hactive'.trans hactive⟩, htasks ▸ rfl, hlistener⟩

/-- The number of contexts. -/
theorem Allots.length_contexts (h : m.Allots held r) :
    r.contexts.length = 1 + m.tasks.toList.length + m.listener.toList.length + held.length := by
  have hlength := h.contexts.length_eq
  have hlistener : (m.listener.map fun l => l.registration.context).toList.length =
      m.listener.toList.length := by
    cases m.listener <;> rfl
  simp only [Recorder.ids, queued, kept, List.length_map, List.length_append, List.length_cons,
    hlistener] at hlength
  omega

end Machine

/-! ## Calls -/

/-- A call ends with an error by which a context is left behind. -/
def leavesBehind {α : Type} : Except EvalError α → Bool
  | .error e => e.strands
  | .ok _ => false

/-- A machine after steps that it takes one after the other. -/
def Machine.after {α : Type} (m : Machine) : List (Running α) → Machine
  | [] => m
  | step :: steps => (m.run step).2.after steps

/-- A call loses at most one context, and none unless it ends with such an error. -/
theorem Call.exists_rests {m : Machine} {lost : List ContextId} (h : m.Rests lost) (budget : Nat)
    (call : Call) :
    ∃ more : Option ContextId, (m.run (call.step budget)).2.Rests (more.toList ++ lost) ∧
      (more.isSome → leavesBehind (m.run (call.step budget)).1 = true) := by
  have hminds {x : Running Outcome} (hx : Minds (fun _ => True) x) :
      ∃ more : Option ContextId, (m.run x).2.Rests (more.toList ++ lost) ∧
        (more.isSome → leavesBehind (m.run x).1 = true) := by
    obtain ⟨r, hm, hactive⟩ := h
    have hsettles := hx m lost r hm
    generalize m.run x = ended at hsettles ⊢
    obtain ⟨result, n⟩ := ended
    obtain ⟨more, hproceeds, hmore⟩ := hsettles.exists_lost
    obtain ⟨r', hn⟩ := hproceeds.allots
    have hsame := hproceeds.active
    rw [hn.recorder, hm.recorder] at hsame
    refine ⟨more, ⟨r', hn, (Option.some.inj hsame).trans hactive⟩, fun hsome => ?_⟩
    obtain ⟨e, rfl, hstrands⟩ := hmore hsome
    exact hstrands
  cases call with
  | reset =>
      obtain ⟨n, hrun, hn, -⟩ := h.run_reset
      refine ⟨none, ?_, nofun⟩
      rw [step, map_eq_pure_bind, Machine.run_bind, hrun]
      exact hn
  | run p =>
      rw [step, map_eq_pure_bind]
      exact hminds ((minds_runProgram budget p).bind fun _ _ => minds_pure trivial)
  | request body =>
      rw [step, map_eq_pure_bind]
      exact hminds ((minds_request budget body).bind fun _ _ => minds_pure trivial)

theorem Call.exists_rests_after {m : Machine} {lost : List ContextId} (h : m.Rests lost)
    (budget : Nat) (calls : List Call) :
    ∃ more : List ContextId, (m.after (calls.map (·.step budget))).Rests (more ++ lost) ∧
      more.length ≤ (m.results (calls.map (·.step budget))).countP leavesBehind := by
  induction calls generalizing m lost with
  | nil => exact ⟨[], h, Nat.le_refl _⟩
  | cons call calls ih =>
      obtain ⟨first, hfirst, hstrands⟩ := exists_rests h budget call
      obtain ⟨more, hmore, hle⟩ := ih hfirst
      refine ⟨more ++ first.toList, ?_, ?_⟩
      · rw [List.append_assoc]
        exact hmore
      · rw [List.map_cons, Machine.results, List.countP_cons, List.length_append]
        refine Nat.add_le_add hle ?_
        cases first with
        | none => exact Nat.zero_le _
        | some id =>
            rw [hstrands rfl]
            exact Nat.le_refl _

/-- Whatever an evaluator is called to do from its start, its contexts are the root's, one for each
callback that waits, one for the listener, and at most one for each call that left one behind. -/
theorem length_contexts_of_calls (config : Config) (network : Network) (budget : Nat)
    (calls : List Call) :
    let start := Machine.new config (.new (some .new) network)
    let steps := calls.map (·.step budget)
    let m := start.after steps
    ∃ r lost, m.adapter.recorder = some r ∧
      r.contexts.length = 1 + m.tasks.toList.length + m.listener.toList.length + lost ∧
      lost ≤ (start.results steps).countP leavesBehind := by
  intro start steps m
  obtain ⟨lost, ⟨r, hm, -⟩, hle⟩ :=
    Call.exists_rests_after (Machine.rests_new config network) budget calls
  rw [List.append_nil] at hm
  exact ⟨r, lost.length, hm.recorder, hm.length_contexts, hle⟩

/-- After a reset only the root context is left, unless a call left one behind. -/
theorem contexts_after_reset (config : Config) (network : Network) (budget : Nat)
    (calls : List Call) :
    let start := Machine.new config (.new (some .new) network)
    let steps := calls.map (·.step budget)
    (∀ result ∈ start.results steps, leavesBehind result = false) →
    ∃ n r, (start.after steps).run Machine.reset = (.ok (), n) ∧ n.adapter.recorder = some r ∧
      r.ids = [rootContext] := by
  intro start steps hnone
  obtain ⟨lost, hrests, hle⟩ :=
    Call.exists_rests_after (Machine.rests_new config network) budget calls
  have hcount : (start.results steps).countP leavesBehind = 0 :=
    List.countP_eq_zero.mpr fun result hresult => Bool.eq_false_iff.mp (hnone result hresult)
  obtain rfl : lost = [] := List.length_eq_zero_iff.mp (Nat.le_zero.mp (hcount ▸ hle))
  obtain ⟨n, hrun, ⟨r, hn, -⟩, htasks, hlistener⟩ := hrests.run_reset
  refine ⟨n, r, hrun, hn.recorder, ?_⟩
  have hcontexts := hn.contexts
  rw [Machine.queued, htasks, Machine.kept, hlistener] at hcontexts
  exact List.map_injective_iff.mpr (Option.some_injective _) (List.perm_singleton.mp hcontexts)

end TraceLoom
