import TraceLoom.Proofs.Recorder.Cover
import TraceLoom.Proofs.Recorder.Run

/-!
Two recorders in step.  The second has recorded at least what the first has, and its contexts are
those of the first under other numbers.  It accepts an operation that the first accepts exactly
if its trace merges with the trace the first one has then, which gives its own new trace.
-/

namespace TraceLoom

open Trace

/-! ## Other numbers for contexts -/

/-- The number of a context where numbering goes on at `m` instead of `n`. -/
def shift (n m id : Nat) : Nat :=
  if id < n then id else id - n + m

/-- The root context, and the contexts made since numbering was at `n`. -/
def Own (n id : Nat) : Prop :=
  id = Recorder.rootContext ∨ n ≤ id

section

variable {n m id other : Nat}

theorem shift_of_le (h : n ≤ id) : shift n m id = id - n + m := by
  simp [shift, Nat.not_lt.mpr h]

theorem shift_succ (h : n ≤ id) : shift n m (id + 1) = shift n m id + 1 := by
  rw [shift_of_le h, shift_of_le (Nat.le_succ_of_le h)]
  omega

theorem shift_rootContext (hn : 0 < n) : shift n m Recorder.rootContext = Recorder.rootContext := by
  simp [shift, Recorder.rootContext, hn]

theorem own_rootContext : Own n Recorder.rootContext :=
  .inl rfl

/-- The contexts of a run keep different numbers. -/
theorem shift_eq_shift_iff (hn : 0 < n) (hm : 0 < m) (hid : Own n id) (hother : Own n other) :
    shift n m id = shift n m other ↔ id = other := by
  rcases hid with rfl | hid <;> rcases hother with rfl | hother
  · simp
  · rw [shift_rootContext hn, shift_of_le hother]
    simp only [Recorder.rootContext]
    omega
  · rw [shift_rootContext hn, shift_of_le hid]
    simp only [Recorder.rootContext]
    omega
  · rw [shift_of_le hid, shift_of_le hother]
    omega

end

namespace Operation

/-- The operation with other numbers for contexts. -/
def renamed (f : ContextId → ContextId) : Operation → Operation
  | switchTo id => .switchTo (f id)
  | release id => .release (f id)
  | op => op

def Outcome.renamed (f : ContextId → ContextId) : Outcome → Outcome
  | context id => .context (f id)
  | out => out

def contextIds : Operation → List ContextId
  | switchTo id => [id]
  | release id => [id]
  | _ => []

theorem renamed_of_plan? {op : Operation} {c : Context} {p : Plan} (h : op.plan? c = some p)
    (f : ContextId → ContextId) : op.renamed f = op := by
  cases op <;> first | rfl | cases h

theorem Plain.renamed {op : Operation} (h : op.Plain) (f : ContextId → ContextId) :
    (op.renamed f).Plain := by
  cases op <;> exact h

end Operation

/-! ## What accepted operations do -/

namespace Plan

variable {p : Plan} {r : Recorder}

theorem root_finished (r : Recorder) (finish : Finish) : (finished r finish).2.root = r.root := by
  cases finish <;> rfl

theorem carryOut_of_edited {root : List Trace} (h : p.edited r.root = .ok root) :
    p.carryOut r = finished (r.continueWith root p.context) p.finish := by
  simp [carryOut, h]

theorem exists_edited_of_isOk (h : (p.carryOut r).1.isOk = true) :
    ∃ root, p.edited r.root = .ok root := by
  cases hedited : p.edited r.root with
  | ok root => exact ⟨root, rfl⟩
  | error e =>
      rw [carryOut, hedited] at h
      cases h

theorem failure_finished {finish : Finish} (h : (finished r finish).1.isOk = true) :
    (finished r finish).2.failure = r.failure := by
  cases finish with
  | fail e => cases h
  | _ => rfl

end Plan

namespace Operation

open Recorder Recording

variable {r : Recorder} {op : Operation}

/-- An accepted operation makes the change it plans, or changes contexts only. -/
theorem cases_of_isOk (hr : r.Sound) (hop : op.Plain) (hfailure : r.failure = none)
    (h : (run op.perform r).1.isOk = true) :
    (∃ c p root, r.context? r.active = some c ∧ op.plan? c = some p ∧
      p.edited r.root = .ok root ∧
      run op.perform r = Plan.finished (r.continueWith root p.context) p.finish) ∨
    (∃ id c, op = switchTo id ∧ r.context? id = some c) ∨ ∃ id, op = release id := by
  obtain ⟨c, hc⟩ := hr.active
  cases hp : op.plan? c with
  | some p =>
      have hrun := run_perform hr hop hfailure hc hp
      rw [hrun] at h
      obtain ⟨root, hroot⟩ := Plan.exists_edited_of_isOk h
      exact .inl ⟨c, p, root, hc, hp, hroot, hrun.trans (Plan.carryOut_of_edited hroot)⟩
  | none =>
      cases op <;> cases hp
      · rename_i id
        rw [run_switchTo] at h
        cases hid : r.context? id with
        | none =>
            rw [hid] at h
            cases h
        | some d => exact .inr (.inl ⟨id, d, rfl, hid⟩)
      · exact .inr (.inr ⟨_, rfl⟩)

theorem root_release (id : ContextId) (r : Recorder) :
    (run (release id).perform r).2.root = r.root := by
  rw [run_release]
  dsimp only
  split <;> rfl

theorem failure_release (id : ContextId) (r : Recorder) :
    (run (release id).perform r).2.failure = r.failure := by
  rw [run_release]
  dsimp only
  split <;> rfl

/-- A usable recorder that accepts an operation stays usable, and its trace only grows. -/
theorem grows_perform (hr : r.Sound) (hop : op.Plain) (hfailure : r.failure = none)
    (h : (run op.perform r).1.isOk = true) :
    (run op.perform r).2.failure = none ∧
      joinBody r.root (run op.perform r).2.root = some (run op.perform r).2.root := by
  have hrefl : joinBody r.root r.root = some r.root := Covers.refl hr.tidy.wellFormed
  rcases cases_of_isOk hr hop hfailure h with
    ⟨c, p, root, hc, hp, hroot, hrun⟩ | ⟨id, c, rfl, hid⟩ | ⟨id, rfl⟩
  · have hedited := Plan.toOption_edited (fits_of_plan? hp) hop.begun hr.tidy hr.tidy hrefl
      (hr.contexts _ (mem_of_context? hc)).stands hroot
    rw [hrun] at h ⊢
    rw [Plan.failure_finished h, Plan.root_finished]
    refine ⟨hfailure, ?_⟩
    rw [root_continueWith, ← hedited, hroot]
    rfl
  · rw [run_switchTo, hid]
    exact ⟨hfailure, hrefl⟩
  · rw [failure_release, root_release]
    exact ⟨hfailure, hrefl⟩

end Operation

/-! ## Recorders in step -/

/-- The second recorder covers what the first has recorded, and has its contexts under other
numbers. -/
structure Mirrors (n m : Nat) (a b : Recorder) : Prop where
  pos : 0 < n
  pos' : 0 < m
  failure : a.failure = none
  failure' : b.failure = none
  le : n ≤ a.nextContext
  nextContext : b.nextContext = shift n m a.nextContext
  own : Own n a.active
  active : b.active = shift n m a.active
  contexts : ∀ id, Own n id → b.context? (shift n m id) = a.context? id
  covers : Covers b.root a.root

namespace Mirrors

open Operation Recorder Recording

variable {n m : Nat} {a b : Recorder}

theorem continueWith (h : Mirrors n m a b) {root root' : List Trace} (hcovers : Covers root' root)
    (d : Context) : Mirrors n m (a.continueWith root d) (b.continueWith root' d) := by
  refine { h with
    contexts := fun id hid => ?_
    covers := hcovers }
  rw [context?_continueWith, context?_continueWith, h.active, h.contexts id hid,
    h.contexts a.active h.own]
  simp only [shift_eq_shift_iff h.pos h.pos' hid h.own]

/-- Recorders in step finish an accepted operation alike. -/
theorem finished (h : Mirrors n m a b) {finish : Finish}
    (hgive : ∀ id, finish ≠ .give (.context id)) (hok : (Plan.finished a finish).1.isOk = true) :
    (Plan.finished b finish).1 =
        (Plan.finished a finish).1.map (Outcome.renamed (shift n m)) ∧
      Mirrors n m (Plan.finished a finish).2 (Plan.finished b finish).2 := by
  cases finish with
  | give out =>
      refine ⟨?_, h⟩
      cases out with
      | context id => exact absurd rfl (hgive id)
      | _ => rfl
  | register base =>
      refine ⟨by simp [Plan.finished, Except.map, Outcome.renamed, h.nextContext], ?_⟩
      refine { h with
        le := Nat.le_succ_of_le h.le
        nextContext := by simp [Plan.finished, h.nextContext, shift_succ h.le]
        contexts := fun id hid => ?_ }
      have hlookup : ∀ r : Recorder, ∀ id, (Plan.finished r (.register base)).2.context? id =
          (r.context? id).or (if id = r.nextContext then some (Context.idle base) else none) := by
        intro r id
        by_cases hid : id = r.nextContext <;>
          simp [Plan.finished, context?, List.lookup_append, List.lookup_cons, beq_eq_decide, hid]
      rw [hlookup, hlookup, h.contexts id hid, h.nextContext]
      simp only [shift_eq_shift_iff h.pos h.pos' hid (.inr h.le)]
  | fail e => cases hok

theorem switchTo (h : Mirrors n m a b) {id : ContextId} {c : Context} (hid : Own n id)
    (hc : a.context? id = some c) :
    (run (Operation.switchTo (shift n m id)).perform b).1 =
        (run (Operation.switchTo id).perform a).1.map (Outcome.renamed (shift n m)) ∧
      Mirrors n m (run (Operation.switchTo id).perform a).2
        (run (Operation.switchTo (shift n m id)).perform b).2 := by
  rw [run_switchTo, run_switchTo, h.contexts id hid, hc]
  exact ⟨by simp [Except.map, Outcome.renamed, h.active],
    { h with own := hid, active := rfl, contexts := h.contexts }⟩

theorem release (h : Mirrors n m a b) {id : ContextId} (hid : Own n id) :
    (run (Operation.release (shift n m id)).perform b).1 =
        (run (Operation.release id).perform a).1.map (Outcome.renamed (shift n m)) ∧
      Mirrors n m (run (Operation.release id).perform a).2
        (run (Operation.release (shift n m id)).perform b).2 := by
  have hroot : shift n m id = rootContext ↔ id = rootContext := by
    have hshift := shift_eq_shift_iff h.pos h.pos' hid own_rootContext
    rwa [shift_rootContext h.pos] at hshift
  have hactive : shift n m id = b.active ↔ id = a.active := by
    rw [h.active, shift_eq_shift_iff h.pos h.pos' hid h.own]
  rw [run_release, run_release]
  refine ⟨rfl, ?_⟩
  simp only [hroot, hactive]
  split
  · exact h
  · refine { h with contexts := fun other hother => ?_ }
    have hother' := h.contexts other hother
    simp only [context?, lookup_filter_ne] at hother' ⊢
    simp only [shift_eq_shift_iff h.pos h.pos' hother hid, hother']

theorem context?_active (h : Mirrors n m a b) : b.context? b.active = a.context? a.active := by
  rw [h.active, h.contexts a.active h.own]

/-- The change that both recorders plan can be made in the second if the traces merge. -/
theorem toOption_edited (h : Mirrors n m a b) (ha : a.Sound) (hb : b.Sound) {op : Operation}
    {c : Context} {p : Plan} {root : List Trace} (hop : op.Plain)
    (hc : a.context? a.active = some c) (hp : op.plan? c = some p)
    (hroot : p.edited a.root = .ok root) : (p.edited b.root).toOption = joinBody b.root root :=
  Plan.toOption_edited (fits_of_plan? hp) hop.begun hb.tidy ha.tidy h.covers
    (ha.contexts _ (mem_of_context? hc)).stands hroot

/-- A recorder in step does what the other does if the traces merge. -/
theorem perform_of_join (h : Mirrors n m a b) (ha : a.Sound) (hb : b.Sound) {op : Operation}
    (hop : op.Plain) (hown : ∀ id ∈ op.contextIds, Own n id)
    (hok : (run op.perform a).1.isOk = true) {root : List Trace}
    (hjoin : joinBody b.root (run op.perform a).2.root = some root) :
    (run (op.renamed (shift n m)).perform b).1 =
        (run op.perform a).1.map (Outcome.renamed (shift n m)) ∧
      (run (op.renamed (shift n m)).perform b).2.root = root ∧
      Mirrors n m (run op.perform a).2 (run (op.renamed (shift n m)).perform b).2 := by
  have hsame : joinBody b.root a.root = some b.root := h.covers
  rcases cases_of_isOk ha hop h.failure hok with
    ⟨c, p, root', hc, hp, hroot, hrun⟩ | ⟨id, c, rfl, hid⟩ | ⟨id, rfl⟩
  -- a planned change: the second recorder plans the same, as its context is the same
  · rw [hrun, Plan.root_finished, root_continueWith] at hjoin
    rw [hrun] at hok
    have hedited := h.toOption_edited ha hb hop hc hp hroot
    rw [hjoin] at hedited
    have hroot' : p.edited b.root = .ok root := by
      cases hx : p.edited b.root <;> simp_all [Except.toOption]
    have htidy : Tidy (block root') := by
      have hsound := (keepsSound_perform ha hop).sound.tidy
      rwa [hrun, trace, Plan.root_finished] at hsound
    have hmirrors := (h.continueWith (covers_of_joinBody hb.tidy.wellFormed htidy.wellFormed hjoin) p.context).finished
      (fits_of_plan? hp).give hok
    rw [renamed_of_plan? hp, run_perform hb hop h.failure' (h.context?_active.trans hc) hp,
      Plan.carryOut_of_edited hroot', hrun]
    exact ⟨hmirrors.1, Plan.root_finished _ _, hmirrors.2⟩
  -- the trace stays, so merging it changes nothing
  · have hid' := hown id List.mem_cons_self
    obtain ⟨hresult, hmirrors⟩ := h.switchTo hid' hid
    rw [run_switchTo, hid] at hjoin
    refine ⟨hresult, ?_, hmirrors⟩
    rw [Operation.renamed, run_switchTo, h.contexts id hid', hid]
    exact Option.some.inj (hsame.symm.trans hjoin)
  · obtain ⟨hresult, hmirrors⟩ := h.release (hown id List.mem_cons_self)
    rw [root_release] at hjoin
    refine ⟨hresult, ?_, hmirrors⟩
    rw [Operation.renamed, root_release]
    exact Option.some.inj (hsame.symm.trans hjoin)

/-- A recorder in step refuses what the other does if the traces do not merge. -/
theorem perform_of_join_eq_none (h : Mirrors n m a b) (ha : a.Sound) (hb : b.Sound)
    {op : Operation} (hop : op.Plain) (hok : (run op.perform a).1.isOk = true)
    (hjoin : joinBody b.root (run op.perform a).2.root = none) :
    (run (op.renamed (shift n m)).perform b).1.isOk = false := by
  have hsame : joinBody b.root a.root = some b.root := h.covers
  rcases cases_of_isOk ha hop h.failure hok with
    ⟨c, p, root, hc, hp, hroot, hrun⟩ | ⟨id, c, rfl, hid⟩ | ⟨id, rfl⟩
  · rw [hrun, Plan.root_finished, root_continueWith] at hjoin
    have hedited := h.toOption_edited ha hb hop hc hp hroot
    rw [renamed_of_plan? hp, run_perform hb hop h.failure' (h.context?_active.trans hc) hp,
      Plan.carryOut]
    cases hx : p.edited b.root with
    | error e => rfl
    | ok x => simp [hx, hjoin, Except.toOption] at hedited
  · rw [run_switchTo, hid, hsame] at hjoin
    cases hjoin
  · rw [root_release, hsame] at hjoin
    cases hjoin

end Mirrors

end TraceLoom
