import TraceLoom.Proofs.Execution.Chronicle
import TraceLoom.Proofs.Execution.Mistakes

/-!
What the contexts of an evaluator are for.  A context is the root's, or that of the listener, of a
callback that waits, or of one that runs; each is for one of them only.  A callback that has been
registered holds its context until it waits, is listened for or is given up.
-/

namespace TraceLoom

open Script Running
open Recorder (rootContext SameContexts)

/-! ## Recorders -/

namespace Recorder

variable {r : Recorder}

theorem run_popArgs_bind_cases {f : List Trace → Recording ContextId}
    (hf : ∀ args, ∃ event arg params closure, f args = callback event arg params closure)
    (r : Recorder) :
    (∃ e r', Recording.run (popArgs >>= f) r = (.error e, r') ∧ r.SameContexts r') ∨
      ∃ r' c, Recording.run (popArgs >>= f) r = (.ok r'.nextContext, r'.withNew c) ∧
        r.SameContexts r' := by
  have hpop : r.SameContexts (Recording.run popArgs r).2 := retains_popArgs r
  rw [Recording.run_bind]
  generalize Recording.run popArgs r = popped at hpop
  obtain ⟨result, r₁⟩ := popped
  cases result with
  | error e => exact .inl ⟨e, r₁, rfl, hpop⟩
  | ok args =>
      obtain ⟨event, arg, params, closure, hcallback⟩ := hf args
      dsimp only
      rw [hcallback]
      rcases run_callback_cases r₁ event arg params closure with
        ⟨e, r₂, hrun, h⟩ | ⟨r₂, c, hrun, h⟩
      · exact .inl ⟨e, r₂, hrun, hpop.trans h⟩
      · exact .inr ⟨r₂, c, hrun, hpop.trans h⟩

/-- A callback that is registered gets a context of its own. -/
theorem run_registering_cases (r : Recorder) (event : Event) :
    (∃ e r', Recording.run (registering event) r = (.error e, r') ∧ r.SameContexts r') ∨
      ∃ r' c, Recording.run (registering event) r = (.ok r'.nextContext, r'.withNew c) ∧
        r.SameContexts r' :=
  run_popArgs_bind_cases (fun _ => ⟨_, _, _, _, rfl⟩) r

theorem run_guarded_setContext {c : Context} (hfailure : r.failure = none)
    (hc : r.context? r.active = some c) (f : Context → Context) :
    Recording.run (Recording.guarded do Recording.setContext (f (← Recording.context))) r =
      (.ok (), r.replaceContext r.active (f c)) := by
  rw [Recording.run_guarded, hfailure]
  dsimp only
  rw [Recording.run_bind, Recording.run_context hc]
  rfl

/-- The body of a callback begins, unless the recorder is out of use. -/
theorem run_begin_cases (hlive : r.Live r.active) (args : List Trace) :
    (∃ cause, Recording.run (begin args) r = (.error (.poisoned cause), r)) ∨
      ∃ r', Recording.run (begin args) r = (.ok (), r') ∧ r.SameContexts r' := by
  cases hfailure : r.failure with
  | some cause =>
      refine .inl ⟨cause, ?_⟩
      rw [begin, Recording.run_bind, restart, Recording.run_guarded, hfailure]
  | none =>
      obtain ⟨c, hc⟩ := hlive
      have hc' : (r.replaceContext r.active c.restart).context? r.active = some c.restart := by
        rw [context?_replaceContext, if_pos rfl, hc]
        rfl
      have hrun : Recording.run (begin args) r = (.ok (), (r.replaceContext r.active
          c.restart).replaceContext r.active
            { c.restart with pending := args :: c.restart.pending }) := by
        rw [begin, Recording.run_bind, restart,
          run_guarded_setContext hfailure hc Context.restart]
        exact run_guarded_setContext (r := r.replaceContext r.active c.restart) hfailure hc'
          fun c => { c with pending := args :: c.pending }
      refine .inr ⟨_, hrun, ?_⟩
      have hbegin := (retains_restart.bind fun _ => retains_pushArgs args) r
      rwa [show (restart >>= fun _ => pushArgs args) = begin args from rfl, hrun] at hbegin

end Recorder

/-! ## The uses of contexts -/

namespace Machine

/-- The contexts of the callbacks that wait. -/
def queued (m : Machine) : List (Option ContextId) :=
  m.tasks.toList.map fun task => task.registration.context

/-- The other contexts in use: the root's, that of the listener and some that are held. -/
def kept (m : Machine) (held : List ContextId) : List (Option ContextId) :=
  some rootContext :: ((m.listener.map fun l => l.registration.context).toList ++ held.map some)

/-- Every context of the recorder is in use, by one at a time. -/
structure Allots (m : Machine) (held : List ContextId) (r : Recorder) : Prop where
  recorder : m.adapter.recorder = some r
  nodup : r.ids.Nodup
  fresh : ∀ id ∈ r.ids, id < r.nextContext
  contexts : (r.ids.map some).Perm (m.queued ++ m.kept held)
  active : some r.active ∈ m.kept held
  once : ∀ task ∈ m.tasks.toList, task.registration.event.isRepeating = false
  repeats : ∀ l, m.listener = some l → l.registration.event.isRepeating = true

/-- Later on, in the context from before and with the listener from before, all contexts are in use
again. -/
structure Proceeds (m n : Machine) (held : List ContextId) : Prop where
  allots : ∃ r, n.Allots held r
  active : n.adapter.recorder.map Recorder.active = m.adapter.recorder.map Recorder.active
  listener : ∀ l, m.listener = some l → n.listener = some l

variable {m n k : Machine} {held held' : List ContextId} {r r' : Recorder} {id : ContextId}

theorem kept_cons_perm (m : Machine) (id : ContextId) (held : List ContextId) :
    (m.kept (id :: held)).Perm (some id :: m.kept held) :=
  (List.perm_middle.cons _).trans (.swap ..)

theorem kept_mono (hlistener : ∀ l, m.listener = some l → n.listener = some l)
    (hheld : held ⊆ held') : m.kept held ⊆ n.kept held' := by
  refine List.cons_subset_cons _ (List.append_subset.mpr ⟨?_, ?_⟩)
  · cases hl : m.listener with
    | none => exact List.nil_subset _
    | some l =>
        rw [hlistener l hl]
        exact List.subset_append_left _ _
  · exact List.Subset.trans (List.map_subset _ hheld) (List.subset_append_right _ _)

namespace Allots

theorem perm_cons (h : m.Allots (id :: held) r) :
    (r.ids.map some).Perm (some id :: (m.queued ++ m.kept held)) :=
  h.contexts.trans (((m.kept_cons_perm id held).append_left _).trans List.perm_middle)

theorem live_of_mem_kept (h : m.Allots held r) (hid : some id ∈ m.kept held) : id ∈ r.ids :=
  (List.mem_map_of_injective (Option.some_injective _)).mp
    (h.contexts.mem_iff.mpr (List.mem_append_right _ hid))

/-- A context that is held is used for nothing else. -/
theorem not_mem_kept (h : m.Allots (id :: held) r) : some id ∉ m.queued ++ m.kept held :=
  (List.nodup_cons.mp (h.perm_cons.nodup_iff.mp (h.nodup.map (Option.some_injective _)))).1

theorem ne_root (h : m.Allots (id :: held) r) : id ≠ rootContext := by
  rintro rfl
  exact h.not_mem_kept (List.mem_append_right _ List.mem_cons_self)

theorem contexts_without (h : m.Allots (id :: held) r) :
    ((r.without id).ids.map some).Perm (m.queued ++ m.kept held) := by
  have hrest : (m.queued ++ m.kept held).filter (fun other => other ≠ some id) =
      m.queued ++ m.kept held :=
    List.filter_eq_self.mpr fun other hother =>
      decide_eq_true (ne_of_mem_of_not_mem hother h.not_mem_kept)
  have hids : (r.without id).ids.map some =
      (r.ids.map some).filter fun other => other ≠ some id := by
    rw [Recorder.ids_without, List.filter_map]
    simp [Function.comp_def]
  have hperm := h.perm_cons.filter fun other => other ≠ some id
  rwa [← hids, List.filter_cons_of_neg (by simp), hrest] at hperm

/-- Nothing is done about the contexts. -/
theorem congr (h : m.Allots held r) (hr : n.adapter.recorder = some r')
    (hsame : r.SameContexts r') (htasks : n.tasks = m.tasks) (hlistener : n.listener = m.listener) :
    n.Allots held r' := by
  have hqueued : n.queued = m.queued := by rw [queued, queued, htasks]
  have hkept : n.kept held = m.kept held := by rw [kept, kept, hlistener]
  refine ⟨hr, hsame.ids ▸ h.nodup, hsame.ids ▸ hsame.next ▸ h.fresh, ?_, ?_, htasks ▸ h.once,
    hlistener ▸ h.repeats⟩
  · rw [hsame.ids, hqueued, hkept]
    exact h.contexts
  · rw [hsame.active, hkept]
    exact h.active

theorem proceeds (h : m.Allots held r) (hr : n.adapter.recorder = some r')
    (hsame : r.SameContexts r') (htasks : n.tasks = m.tasks) (hlistener : n.listener = m.listener) :
    m.Proceeds n held where
  allots := ⟨r', h.congr hr hsame htasks hlistener⟩
  active := by rw [hr, h.recorder, Option.map_some, Option.map_some, hsame.active]
  listener l hl := hlistener ▸ hl

theorem proceeds_refl (h : m.Allots held r) : m.Proceeds m held :=
  h.proceeds h.recorder (.refl r) rfl rfl

/-- There is one more context. -/
theorem proceeds_withNew {c : Context} (h : m.Allots held r)
    (hr : n.adapter.recorder = some (r'.withNew c)) (hsame : r.SameContexts r')
    (htasks : n.tasks = m.tasks) (hlistener : n.listener = m.listener) :
    m.Proceeds n (r'.nextContext :: held) where
  allots := by
    have hqueued : n.queued = m.queued := by rw [queued, queued, htasks]
    have hkept : n.kept held = m.kept held := by rw [kept, kept, hlistener]
    have hids : (r'.withNew c).ids = r.ids ++ [r'.nextContext] := by
      rw [Recorder.ids_withNew, hsame.ids]
    have hfresh : ∀ id ∈ r.ids, id < r'.nextContext := hsame.next ▸ h.fresh
    refine ⟨_, hr, ?_, fun id hid => ?_, ?_, ?_, htasks ▸ h.once, hlistener ▸ h.repeats⟩
    · rw [hids]
      exact h.nodup.append (List.nodup_singleton _)
        (List.disjoint_singleton.mpr fun hmem => Nat.lt_irrefl _ (hfresh _ hmem))
    · rw [hids] at hid
      rcases List.mem_append.mp hid with hid | hid
      · exact Nat.lt_succ_of_lt (hfresh id hid)
      · exact List.mem_singleton.mp hid ▸ Nat.lt_succ_self _
    · rw [hids, List.map_append, List.map_singleton, hqueued]
      refine (List.perm_append_singleton _ _).trans ?_
      refine ((h.contexts.cons _).trans List.perm_middle.symm).trans (.append_left _ ?_)
      rw [← hkept]
      exact (n.kept_cons_perm _ _).symm
    · change some r'.active ∈ _
      rw [(n.kept_cons_perm _ _).mem_iff, hsame.active, hkept]
      exact List.mem_cons_of_mem _ h.active
  active := by
    rw [hr, h.recorder]
    exact congrArg some hsame.active
  listener l hl := hlistener ▸ hl

/-- Contexts are held in any order. -/
theorem perm (h : m.Allots held r) (hheld : held.Perm held') : m.Allots held' r where
  recorder := h.recorder
  nodup := h.nodup
  fresh := h.fresh
  contexts := h.contexts.trans
    (.append_left _ (.cons _ (.append_left _ (hheld.map some))))
  active := kept_mono (fun _ hl => hl) hheld.subset h.active
  once := h.once
  repeats := h.repeats

/-- Another context becomes the active one. -/
theorem switchTo (h : m.Allots held r) (hid : some id ∈ m.kept held) :
    Allots { m with adapter := { m.adapter with recorder := some { r with active := id } } } held
      { r with active := id } :=
  ⟨rfl, h.nodup, h.fresh, h.contexts, hid, h.once, h.repeats⟩

theorem exists_listening {l : Listener} (h : m.Allots held r) (hl : m.listener = some l) :
    ∃ id, l.registration.context = some id ∧ some id ∈ m.kept held := by
  have hmem : l.registration.context ∈ m.kept held := by simp [kept, hl]
  obtain ⟨id, -, hid⟩ := List.mem_map.mp (h.contexts.mem_iff.mpr (List.mem_append_right _ hmem))
  exact ⟨id, hid.symm, hid ▸ hmem⟩

/-- A callback that waited is about to run, and its context is held for it. -/
theorem pop {task : Task} {tasks : Queue Task} (h : m.Allots held r)
    (hpop : m.tasks.pop? = some (task, tasks)) :
    ∃ id, task.registration.context = some id ∧ Allots { m with tasks } (id :: held) r := by
  have htasks := Queue.toList_of_pop? hpop
  have hqueued : m.queued = task.registration.context :: queued { m with tasks } := by
    rw [queued, htasks]
    rfl
  obtain ⟨id, -, hid⟩ := List.mem_map.mp (h.contexts.mem_iff.mpr
    (List.mem_append_left _ (hqueued ▸ List.mem_cons_self)))
  refine ⟨id, hid.symm, h.recorder, h.nodup, h.fresh, h.contexts.trans ?_, ?_,
    fun other hother => h.once other (htasks ▸ List.mem_cons_of_mem _ hother), h.repeats⟩
  · rw [hqueued, ← hid]
    exact List.perm_middle.symm.trans (.append_left _ (kept_cons_perm _ id held).symm)
  · exact kept_mono (fun _ hl => hl) (List.subset_cons_self _ _) h.active

/-! A context that was held for a callback goes over to it, or is given back. -/

section

variable (h : m.Allots (id :: held) r) (hactive : some r.active ∈ m.kept held)

include h hactive

theorem enqueue {task : Task} (hid : task.registration.context = some id)
    (honce : task.registration.event.isRepeating = false) :
    Allots { m with tasks := m.tasks.push task } held r := by
  refine ⟨h.recorder, h.nodup, h.fresh, h.contexts.trans ?_, hactive, fun other hother => ?_,
    h.repeats⟩
  · rw [queued, queued, Queue.toList_push, List.map_append, List.map_singleton, hid,
      List.append_assoc, List.singleton_append]
    exact (m.kept_cons_perm id held).append_left _
  · rw [Queue.toList_push] at hother
    rcases List.mem_append.mp hother with hother | hother
    · exact h.once other hother
    · exact List.mem_singleton.mp hother ▸ honce

theorem listen {l : Listener} (hnone : m.listener = none)
    (hid : l.registration.context = some id) (hrepeats : l.registration.event.isRepeating = true) :
    Allots { m with listener := some l } held r := by
  refine ⟨h.recorder, h.nodup, h.fresh, h.contexts.trans (.append_left _ ?_), ?_, h.once,
    fun other hother => Option.some.inj hother ▸ hrepeats⟩
  · rw [kept, kept, hnone, Option.map_some, hid]
    rfl
  · exact kept_mono (fun l hl => by rw [hnone] at hl; cases hl) (List.Subset.refl _) hactive

theorem without :
    Allots { m with adapter := { m.adapter with recorder := some (r.without id) } } held
      (r.without id) := by
  refine ⟨rfl, ?_, fun other hother => ?_, h.contexts_without, hactive, h.once, h.repeats⟩
  · rw [Recorder.ids_without]
    exact h.nodup.filter _
  · rw [Recorder.ids_without] at hother
    exact h.fresh other (List.mem_of_mem_filter hother)

theorem ne_active : id ≠ r.active := by
  rintro rfl
  exact h.not_mem_kept (List.mem_append_right _ hactive)

end

end Allots

namespace Proceeds

theorem trans (h : m.Proceeds n held) (h' : n.Proceeds k held') : m.Proceeds k held' :=
  ⟨h'.allots, h'.active.trans h.active, fun l hl => h'.listener l (h.listener l hl)⟩

/-- The active context is in use for what it was before. -/
theorem active_mem (h : m.Proceeds n held') (hm : m.Allots held r) (hn : n.Allots held' r') :
    some r'.active ∈ n.kept held := by
  have hactive := h.active
  rw [hn.recorder, hm.recorder] at hactive
  rw [show some r'.active = some r.active from hactive]
  exact kept_mono h.listener (List.Subset.refl _) hm.active

end Proceeds

end Machine

end TraceLoom
