import TraceLoom.Proofs.Recorder.Course
import TraceLoom.Proofs.Recorder.Run

/-!
The contexts of a recorder, whatever is recorded and whether or not it is accepted.  No operation
but the two that are for it changes which context is active or drops one, and a new context gets a
number that none had before.
-/

namespace TraceLoom

namespace Recorder

variable {r r' r'' : Recorder} {id : ContextId}

/-- There is a context of this number. -/
def Live (r : Recorder) (id : ContextId) : Prop :=
  ∃ c, r.context? id = some c

/-- A recorder can go on: where it is, where it can go back to, and which numbers are new. -/
structure Intact (r : Recorder) : Prop where
  root : r.Live rootContext
  active : r.Live r.active
  fresh : ∀ id, r.Live id → id < r.nextContext

/-- The numbers of the contexts. -/
def ids (r : Recorder) : List ContextId :=
  r.contexts.map Prod.fst

/-- The later recorder is in the same context and has the same contexts. -/
structure SameContexts (r r' : Recorder) : Prop where
  active : r'.active = r.active
  next : r'.nextContext = r.nextContext
  ids : r'.ids = r.ids

/-- The later recorder is still in the same context, and may have more contexts. -/
structure Onward (r r' : Recorder) : Prop where
  active : r'.active = r.active
  next : r.nextContext ≤ r'.nextContext
  live : ∀ id, r.Live id → r'.Live id
  fresh : ∀ id, r'.Live id → r.Live id ∨ id < r'.nextContext

theorem live_iff_mem_ids : r.Live id ↔ id ∈ r.ids := by
  simp [Live, context?, ids, ← Option.isSome_iff_exists]

theorem ids_replaceContext (other : ContextId) (c : Context) :
    (r.replaceContext other c).ids = r.ids := by
  rw [ids, replaceContext, List.map_map]
  refine List.map_congr_left fun entry _ => ?_
  dsimp only [Function.comp_apply]
  split
  · rename_i h
    exact h.symm
  · rfl

theorem ids_without (r : Recorder) (id : ContextId) :
    (r.without id).ids = r.ids.filter fun other => other ≠ id := by
  rw [ids, without, ids, List.filter_map]
  rfl

namespace SameContexts

theorem refl (r : Recorder) : r.SameContexts r :=
  ⟨rfl, rfl, rfl⟩

theorem trans (h : r.SameContexts r') (h' : r'.SameContexts r'') : r.SameContexts r'' :=
  ⟨h'.active.trans h.active, h'.next.trans h.next, h'.ids.trans h.ids⟩

end SameContexts

namespace Onward

theorem refl (r : Recorder) : r.Onward r :=
  ⟨rfl, Nat.le_refl _, fun _ h => h, fun _ h => .inl h⟩

theorem trans (h : r.Onward r') (h' : r'.Onward r'') : r.Onward r'' where
  active := h'.active.trans h.active
  next := Nat.le_trans h.next h'.next
  live id hid := h'.live id (h.live id hid)
  fresh id hid := by
    rcases h'.fresh id hid with hid | hid
    · exact (h.fresh id hid).imp_right fun hlt => Nat.lt_of_lt_of_le hlt h'.next
    · exact .inr hid

theorem of_contexts (hactive : r'.active = r.active) (hnext : r'.nextContext = r.nextContext)
    (hcontexts : ∀ id, r'.Live id ↔ r.Live id) : r.Onward r' :=
  ⟨hactive, Nat.le_of_eq hnext.symm, fun id => (hcontexts id).mpr,
    fun id hid => .inl ((hcontexts id).mp hid)⟩

theorem intact (h : r.Onward r') (hr : r.Intact) : r'.Intact where
  root := h.live _ hr.root
  active := h.active ▸ h.live _ hr.active
  fresh id hid := (h.fresh id hid).elim
    (fun hold => Nat.lt_of_lt_of_le (hr.fresh id hold) h.next) fun hlt => hlt

end Onward

theorem SameContexts.onward (h : r.SameContexts r') : r.Onward r' :=
  .of_contexts h.active h.next fun id => by rw [live_iff_mem_ids, live_iff_mem_ids, h.ids]

theorem intact_new : Recorder.new.Intact := by
  have hroot : Recorder.new.Live rootContext := ⟨_, rfl⟩
  refine ⟨hroot, hroot, fun id hid => ?_⟩
  obtain ⟨c, hc⟩ := hid
  by_cases h : id = rootContext
  · exact h ▸ Nat.zero_lt_one
  · simp [context?, Recorder.new, List.lookup_cons, beq_eq_decide, h] at hc

theorem Intact.switchTo (h : r.Intact) (hid : r.Live id) : { r with active := id }.Intact :=
  ⟨h.root, hid, h.fresh⟩

theorem Intact.without (h : r.Intact) (hroot : id ≠ rootContext) (hactive : id ≠ r.active) :
    (r.without id).Intact where
  root := by
    rw [Live, context?_without, if_neg hroot.symm]
    exact h.root
  active := by
    rw [Live, context?_without]
    exact (if_neg hactive.symm).symm ▸ h.active
  fresh other hother := by
    rw [Live, context?_without] at hother
    split at hother
    · obtain ⟨c, hc⟩ := hother
      cases hc
    · exact h.fresh other hother

end Recorder

/-! ## Recordings -/

namespace Recording

open Recorder

variable {α β : Type} {x : Recording α} {f : α → Recording β}

/-- A recording that stays in its context. -/
def Remains (x : Recording α) : Prop :=
  ∀ r : Recorder, r.Onward (run x r).2

/-- A recording that stays in its context, and neither makes nor drops one. -/
def Retains (x : Recording α) : Prop :=
  ∀ r : Recorder, r.SameContexts (run x r).2

theorem Retains.remains (hx : Retains x) : Remains x :=
  fun r => (hx r).onward

theorem retains_pure (a : α) : Retains (pure a) :=
  SameContexts.refl

theorem retains_throw (e : TraceError) : Retains (throw e : Recording α) :=
  SameContexts.refl

theorem Retains.bind (hx : Retains x) (hf : ∀ a, Retains (f a)) : Retains (x >>= f) := by
  intro r
  rw [run_bind]
  have h : r.SameContexts (run x r).2 := hx r
  generalize run x r = result at h ⊢
  obtain ⟨result, r'⟩ := result
  cases result with
  | ok a => exact h.trans (hf a r')
  | error e => exact h

theorem retains_get_bind {f : Recorder → Recording β}
    (hf : ∀ r : Recorder, r.SameContexts (run (f r) r).2) : Retains (get >>= f) := by
  intro r
  rw [run_bind, run_get]
  exact hf r

theorem Retains.guarded (hx : Retains x) : Retains (guarded x) := by
  intro r
  rw [run_guarded]
  cases r.failure with
  | some cause => exact .refl r
  | none =>
      have h : r.SameContexts (run x r).2 := hx r
      dsimp only
      generalize run x r = result at h ⊢
      obtain ⟨result, r'⟩ := result
      cases result with
      | ok a => exact h
      | error e => exact ⟨h.active, h.next, h.ids⟩

theorem retains_context : Retains context := by
  refine retains_get_bind fun r => ?_
  cases r.context? r.active <;> exact .refl r

theorem retains_setContext (c : Context) : Retains (setContext c) := fun _ =>
  ⟨rfl, rfl, ids_replaceContext _ c⟩

theorem retains_topFrame : Retains topFrame := by
  refine retains_context.bind fun c => ?_
  cases c.frames with
  | nil => exact retains_throw _
  | cons f fs => exact retains_pure f

theorem retains_push (f : Frame) : Retains (push f) :=
  retains_context.bind fun _ => retains_setContext _

theorem retains_setTop (f : Frame) : Retains (setTop f) :=
  retains_context.bind fun _ => retains_setContext _

theorem retains_blockAt (path : Trace.Path) : Retains (blockAt path) := by
  refine retains_get_bind fun r => ?_
  cases Trace.blockAt? path r.root <;> exact .refl r

theorem retains_setBlock (path : Trace.Path) (b : List Trace) : Retains (setBlock path b) :=
  fun _ => ⟨rfl, rfl, rfl⟩

theorem retains_step (t : Trace) : Retains (step t) := by
  refine retains_topFrame.bind fun f => (retains_blockAt _).bind fun b => ?_
  have hmove : Retains (do setTop { f with cursor := f.cursor + 1 }; return (f.path, f.cursor)) :=
    (retains_setTop _).bind fun _ => retains_pure _
  cases b[f.cursor]? with
  | none => exact retains_throw _
  | some old =>
      dsimp only
      split
      · exact (retains_setBlock _ _).bind fun _ => hmove
      · refine (retains_setBlock _ _).bind fun _ => ?_
        cases (Trace.mergeIn old t).mismatch with
        | some m => exact (retains_throw _).bind fun _ => hmove
        | none => exact hmove

theorem retains_enter (t : Trace) (part : Part) (scope : Scope) : Retains (enter t part scope) :=
  (retains_step t).bind fun _ => retains_push _

theorem retains_close (f : Frame) : Retains (close f) := by
  refine (retains_blockAt _).bind fun b => ?_
  split
  · exact retains_pure _
  · split
    · split
      · exact retains_setBlock _ _
      · exact retains_throw _
    · exact retains_throw _

theorem retains_popPending : Retains popPending := by
  refine retains_context.bind fun c => ?_
  cases c.pending with
  | nil => exact retains_throw _
  | cons args rest => exact (retains_setContext _).bind fun _ => retains_pure _

end Recording

/-! ## Operations -/

namespace Recorder

open Recording

variable {r r' : Recorder} {id : ContextId}

theorem retains_restart : Retains restart :=
  (retains_context.bind fun _ => retains_setContext _).guarded

theorem retains_pushArgs (args : List Trace) : Retains (pushArgs args) :=
  (retains_context.bind fun _ => retains_setContext _).guarded

theorem retains_popArgs : Retains popArgs :=
  retains_popPending.guarded

theorem retains_primitive (event : String) (args : List Trace) : Retains (primitive event args) :=
  ((retains_step _).bind fun _ => retains_pure _).guarded

theorem retains_exit : Retains exit := by
  refine (retains_context.bind fun c => ?_).guarded
  cases c.frames with
  | nil => exact retains_throw _
  | cons f fs =>
      refine (retains_setContext _).bind fun _ => ?_
      split
      · exact retains_pure _
      · exact retains_close _

theorem retains_iterate : Retains iterate := by
  refine (retains_topFrame.bind fun f => ?_).guarded
  split
  · split
    · exact (retains_close _).bind fun _ => retains_setTop _
    · exact (retains_pure _).bind fun _ => retains_setTop _
  · exact retains_throw _

/-- Leaves the open lists up to the one with a label. -/
def leaveLabel (name : String) : Recording Unit := do
  let c ← context
  match unwind name c.frames with
  | some frames => setContext { c with frames }
  | none => do
    setContext { c with frames := [] }
    throw (.labelNotOpen name)

theorem retains_leaveLabel (name : String) : Retains (leaveLabel name) := by
  refine retains_context.bind fun c => ?_
  cases unwind name c.frames with
  | some frames => exact retains_setContext _
  | none => exact (retains_setContext _).bind fun _ => retains_throw _

theorem retains_breakTo (name : String) (value : Trace) : Retains (breakTo name value) := by
  refine ((retains_step _).bind fun at' => (retains_blockAt _).bind fun b => ?_).guarded
  split
  · split
    · exact (retains_setBlock _ _).bind fun _ => retains_leaveLabel name
    · exact retains_leaveLabel name
  · exact retains_leaveLabel name

theorem retains_call (name : String) (args : List Trace) : Retains (call name args) :=
  ((retains_enter _ _ _).bind fun _ => retains_context.bind fun _ => retains_setContext _).guarded

theorem retains_enterBody (label : String) (arity : Nat) : Retains (enterBody label arity) := by
  have hopen : Retains (do
      let args ← popPending
      openLabel label
      return args.take (arity + 1) ++ List.replicate (arity + 1 - args.length) .undefined) :=
    retains_popPending.bind fun _ => (retains_enter _ _ _).bind fun _ => retains_pure _
  refine Retains.guarded ?_
  split
  · exact (retains_throw _).bind fun _ => hopen
  · exact hopen

/-- The recorder with one more context. -/
def withNew (r : Recorder) (c : Context) : Recorder :=
  { r with nextContext := r.nextContext + 1, contexts := r.contexts ++ [(r.nextContext, c)] }

theorem live_withNew (c : Context) : (r.withNew c).Live id ↔ r.Live id ∨ id = r.nextContext := by
  by_cases h : id = r.nextContext <;>
    simp [Live, context?, withNew, List.lookup_append, List.lookup_cons, beq_eq_decide, h]

theorem ids_withNew (r : Recorder) (c : Context) : (r.withNew c).ids = r.ids ++ [r.nextContext] := by
  simp [ids, withNew]

theorem onward_withNew (r : Recorder) (c : Context) : r.Onward (r.withNew c) where
  active := rfl
  next := Nat.le_succ _
  live _ hid := (live_withNew c).mpr (.inl hid)
  fresh _ hid := ((live_withNew c).mp hid).imp_right fun h => Nat.lt_of_le_of_lt (Nat.le_of_eq h) (Nat.lt_succ_self _)

theorem run_callback (event : String) (arg : Trace) (params : List String) (closure : Trace)
    (hfailure : r.failure = none) :
    run (callback event arg params closure) r =
      match run (step (.callback event arg params closure [.hole])) r with
      | (.ok (path, index), r') =>
          (.ok r'.nextContext, r'.withNew (.idle (path ++ [⟨index, .body⟩])))
      | (.error e, r') => (.error e, { r' with failure := some e }) := by
  rw [callback, run_guarded, hfailure]
  dsimp only
  rw [run_bind]
  rcases run (step _) r with ⟨result, r'⟩
  cases result <;> rfl

/-- Registering a callback makes a context, unless it fails. -/
theorem run_callback_cases (r : Recorder) (event : String) (arg : Trace) (params : List String)
    (closure : Trace) :
    (∃ e r', run (callback event arg params closure) r = (.error e, r') ∧ r.SameContexts r') ∨
      ∃ r' c, run (callback event arg params closure) r = (.ok r'.nextContext, r'.withNew c) ∧
        r.SameContexts r' := by
  cases hfailure : r.failure with
  | some cause =>
      rw [callback, run_guarded, hfailure]
      exact .inl ⟨_, r, rfl, .refl r⟩
  | none =>
      have hstep : r.SameContexts (run (step (.callback event arg params closure [.hole])) r).2 :=
        retains_step _ r
      rw [run_callback event arg params closure hfailure]
      generalize run (step _) r = result at hstep
      obtain ⟨result, r'⟩ := result
      cases result with
      | error e => exact .inl ⟨e, _, rfl, hstep.active, hstep.next, hstep.ids⟩
      | ok place => exact .inr ⟨r', _, rfl, hstep⟩

theorem remains_callback (event : String) (arg : Trace) (params : List String) (closure : Trace) :
    Remains (callback event arg params closure) := by
  intro r
  rcases run_callback_cases r event arg params closure with ⟨e, r', hrun, h⟩ | ⟨r', c, hrun, h⟩
  · rw [hrun]
    exact h.onward
  · rw [hrun]
    exact h.onward.trans (onward_withNew r' c)

/-- A callback gets a context of its own, with a number that none had before. -/
theorem run_callback_of_ok {event : String} {arg closure : Trace} {params : List String}
    (h : run (callback event arg params closure) r = (.ok id, r')) :
    r.nextContext ≤ id ∧ id < r'.nextContext ∧ r'.Live id := by
  rcases run_callback_cases r event arg params closure with ⟨e, k, hrun, -⟩ | ⟨k, c, hrun, hk⟩
  · rw [hrun] at h
    cases h
  · rw [hrun] at h
    cases h
    exact ⟨Nat.le_of_eq hk.next.symm, Nat.lt_succ_self _, (live_withNew c).mpr (.inr rfl)⟩

end Recorder

namespace Operation

open Recorder Recording

/-- Anything that is recorded is recorded in the active context. -/
def isLocal : Operation → Bool
  | switchTo _ | release _ => false
  | _ => true

/-- Anything but the operations that are for it keeps the contexts. -/
theorem retains_perform {op : Operation} (h : op.isLocal = true)
    (hcallback : ∀ event arg params closure, op ≠ .callback event arg params closure) :
    Retains op.perform := by
  cases op with
  | switchTo _ | release _ => cases h
  | callback event arg params closure => exact absurd rfl (hcallback event arg params closure)
  | restart => exact retains_restart.bind fun _ => retains_pure _
  | bind name value =>
      exact (((retains_step _).bind fun _ => retains_pure _).guarded).bind fun _ => retains_pure _
  | assign target value =>
      exact (((retains_step _).bind fun _ => retains_pure _).guarded).bind fun _ => retains_pure _
  | primitive event args => exact (retains_primitive _ _).bind fun _ => retains_pure _
  | branch taken test => exact (retains_enter _ _ _).guarded.bind fun _ => retains_pure _
  | loop test => exact (retains_enter _ _ _).guarded.bind fun _ => retains_pure _
  | iterate => exact retains_iterate.bind fun _ => retains_pure _
  | label name => exact (retains_enter _ _ _).guarded.bind fun _ => retains_pure _
  | breakTo name value => exact (retains_breakTo _ _).bind fun _ => retains_pure _
  | call name args => exact (retains_call _ _).bind fun _ => retains_pure _
  | enterBody label arity => exact (retains_enterBody _ _).bind fun _ => retains_pure _
  | pushArgs args => exact (retains_pushArgs _).bind fun _ => retains_pure _
  | popArgs => exact retains_popArgs.bind fun _ => retains_pure _
  | exit => exact retains_exit.bind fun _ => retains_pure _

theorem remains_perform {op : Operation} (h : op.isLocal = true) : Remains op.perform := by
  cases op with
  | callback event arg params closure =>
      intro r
      have hcallback : r.Onward (run (Recorder.callback event arg params closure) r).2 :=
        remains_callback event arg params closure r
      rw [perform, run_bind]
      generalize run (Recorder.callback event arg params closure) r = result at hcallback ⊢
      obtain ⟨result, r'⟩ := result
      cases result <;> exact hcallback
  | _ =>
      refine (retains_perform h ?_).remains
      rintro _ _ _ _ ⟨⟩

/-- Whatever is done with a recorder, it can go on. -/
theorem intact_perform (op : Operation) {r : Recorder} (hr : r.Intact) :
    (run op.perform r).2.Intact := by
  cases op with
  | switchTo id =>
      rw [run_switchTo]
      cases hc : r.context? id with
      | none => exact hr
      | some c => exact hr.switchTo ⟨c, hc⟩
  | release id =>
      rw [run_release]
      dsimp only
      split
      · exact hr
      · rename_i hid
        exact hr.without (not_or.mp hid).1 (not_or.mp hid).2
  | _ => exact (remains_perform rfl r).intact hr

theorem intact_performAll (ops : List Operation) {r : Recorder} (hr : r.Intact) :
    (performAll ops r).2.Intact := by
  induction ops generalizing r with
  | nil => exact hr
  | cons op ops ih => exact ih (intact_perform op hr)

end Operation

end TraceLoom
