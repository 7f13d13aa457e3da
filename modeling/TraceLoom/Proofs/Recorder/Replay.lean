import TraceLoom.Proofs.Recorder.Mirror

/-!
Runs done again.  A run that one recorder accepts is accepted by another that has recorded at
least as much exactly if the traces merge, and the merged trace is what the other one is left
with.  So doing a run twice changes nothing.
-/

namespace TraceLoom

open Trace

namespace Operation

open Recording

def accepted (results : List (Except TraceError Outcome)) : Bool :=
  results.all Except.isOk

variable {op : Operation} {ops : List Operation} {r : Recorder}

theorem accepted_performAll_cons : accepted (performAll (op :: ops) r).1 = true ↔
    (run op.perform r).1.isOk = true ∧
      accepted (performAll ops (run op.perform r).2).1 = true := by
  simp [accepted, performAll_cons]

theorem accepted_map (f : Outcome → Outcome) (results : List (Except TraceError Outcome)) :
    accepted (results.map (·.map f)) = accepted results := by
  have hisOk : ∀ result : Except TraceError Outcome, (result.map f).isOk = result.isOk := by
    rintro (e | out) <;> rfl
  simp [accepted, hisOk, Function.comp_def]

theorem made_renamed (f : ContextId → ContextId) (ops : List Operation)
    (results : List (Except TraceError Outcome)) :
    made (ops.map (·.renamed f)) (results.map (·.map (Outcome.renamed f))) =
      (made ops results).map f := by
  fun_induction made ops results with
  | case1 event arg params record ops id results ih => exact congrArg (f id :: ·) ih
  | case2 op ops result results hnot ih =>
      cases op with
      | callback event arg params record =>
          rcases result with e | out
          · exact ih
          · cases out with
            | context id => exact absurd rfl (hnot _ _ _ _ _ rfl)
            | _ => exact ih
      | _ => exact ih
  | case3 ops results hcallback hcons =>
      cases ops with
      | nil => rfl
      | cons op ops => cases results with
          | nil => cases op <;> rfl
          | cons result results => exact absurd rfl (hcons _ _ _ _ rfl)

/-- A usable recorder that accepts a run stays usable, and its trace only grows. -/
theorem grows_performAll (hr : r.Sound) (hops : ∀ op ∈ ops, op.Plain) (hfailure : r.failure = none)
    (h : accepted (performAll ops r).1 = true) :
    (performAll ops r).2.failure = none ∧
      joinBody r.root (performAll ops r).2.root = some (performAll ops r).2.root := by
  induction ops generalizing r with
  | nil => exact ⟨hfailure, Covers.refl hr.tidy.wellFormed⟩
  | cons op ops ih =>
      obtain ⟨hok, hrest⟩ := accepted_performAll_cons.mp h
      obtain ⟨hop, hops'⟩ := List.forall_mem_cons.mp hops
      have hsound := (keepsSound_perform hr hop).sound
      obtain ⟨hfailure', hgrows⟩ := grows_perform hr hop hfailure hok
      obtain ⟨hfailure'', hgrows'⟩ := ih hsound hops' hfailure' hrest
      refine ⟨hfailure'', ?_⟩
      have htrans := joinBody_trans hr.tidy.wellFormed hsound.tidy.wellFormed
        (sound_performAll hsound hops').tidy.wellFormed hgrows'
      rw [performAll_cons]
      dsimp only
      rw [htrans, hgrows, Option.bind_some, hgrows']

/-- Merging with the trace after a run is merging with the trace after its first operation, and
with the rest. -/
theorem joinBody_performAll_cons {b : List Trace} (hb : Tidy (block b)) (hr : r.Sound)
    (hops : ∀ op' ∈ op :: ops, op'.Plain) (hfailure : r.failure = none)
    (h : accepted (performAll (op :: ops) r).1 = true) :
    joinBody b (performAll (op :: ops) r).2.root =
      (joinBody b (run op.perform r).2.root).bind
        (joinBody · (performAll ops (run op.perform r).2).2.root) := by
  obtain ⟨hok, hrest⟩ := accepted_performAll_cons.mp h
  obtain ⟨hop, hops'⟩ := List.forall_mem_cons.mp hops
  have hsound := (keepsSound_perform hr hop).sound
  have hgrows := grows_performAll hsound hops' (grows_perform hr hop hfailure hok).1 hrest
  exact joinBody_trans hb.wellFormed hsound.tidy.wellFormed
    (sound_performAll hsound hops').tidy.wellFormed hgrows.2

end Operation

/-! ## Runs in step -/

namespace Mirrors

open Operation Recording

variable {n m : Nat} {a b : Recorder} {ops : List Operation}

/-- A recorder in step goes through a run as the other does if the traces merge, and is left with
the merged trace. -/
theorem performAll_of_join (h : Mirrors n m a b) (ha : a.Sound) (hb : b.Sound)
    (hops : ∀ op ∈ ops, op.Plain) (hown : ∀ op ∈ ops, ∀ id ∈ op.contextIds, Own n id)
    (hok : accepted (performAll ops a).1 = true) {root : List Trace}
    (hjoin : joinBody b.root (performAll ops a).2.root = some root) :
    (performAll (ops.map (·.renamed (shift n m))) b).1 =
        (performAll ops a).1.map (·.map (Outcome.renamed (shift n m))) ∧
      (performAll (ops.map (·.renamed (shift n m))) b).2.root = root := by
  induction ops generalizing a b with
  | nil => exact ⟨rfl, Option.some.inj (Eq.trans (Eq.symm h.covers) hjoin)⟩
  | cons op ops ih =>
      obtain ⟨hfirst, hrest⟩ := accepted_performAll_cons.mp hok
      obtain ⟨hop, hops'⟩ := List.forall_mem_cons.mp hops
      obtain ⟨hown, hown'⟩ := List.forall_mem_cons.mp hown
      have ha' := (keepsSound_perform ha hop).sound
      have hb' := (keepsSound_perform hb (hop.renamed (shift n m))).sound
      rw [joinBody_performAll_cons hb.tidy ha hops h.failure hok, Option.bind_eq_some_iff] at hjoin
      obtain ⟨root', hjoin, hjoin'⟩ := hjoin
      obtain ⟨hresult, rfl, hmirrors⟩ := h.perform_of_join ha hb hop hown hfirst hjoin
      obtain ⟨hresults, hroot⟩ := ih hmirrors ha' hb' hops' hown' hrest hjoin'
      rw [List.map_cons, performAll_cons, performAll_cons]
      exact ⟨by rw [hresult, hresults, List.map_cons], hroot⟩

/-- A recorder in step refuses a run that the other goes through if the traces do not merge. -/
theorem performAll_of_join_eq_none (h : Mirrors n m a b) (ha : a.Sound) (hb : b.Sound)
    (hops : ∀ op ∈ ops, op.Plain) (hown : ∀ op ∈ ops, ∀ id ∈ op.contextIds, Own n id)
    (hok : accepted (performAll ops a).1 = true)
    (hjoin : joinBody b.root (performAll ops a).2.root = none) :
    accepted (performAll (ops.map (·.renamed (shift n m))) b).1 = false := by
  induction ops generalizing a b with
  | nil => cases Eq.trans (Eq.symm h.covers) hjoin
  | cons op ops ih =>
      obtain ⟨hfirst, hrest⟩ := accepted_performAll_cons.mp hok
      obtain ⟨hop, hops'⟩ := List.forall_mem_cons.mp hops
      obtain ⟨hown, hown'⟩ := List.forall_mem_cons.mp hown
      have ha' := (keepsSound_perform ha hop).sound
      have hb' := (keepsSound_perform hb (hop.renamed (shift n m))).sound
      rw [joinBody_performAll_cons hb.tidy ha hops h.failure hok] at hjoin
      rw [List.map_cons, Bool.eq_false_iff, ne_eq, accepted_performAll_cons]
      rintro ⟨hfirst', hrest'⟩
      cases hjoin' : joinBody b.root (run op.perform a).2.root with
      | none =>
          have hnone := h.perform_of_join_eq_none ha hb hop hfirst hjoin'
          rw [hfirst'] at hnone
          cases hnone
      | some root' =>
          obtain ⟨-, rfl, hmirrors⟩ := h.perform_of_join ha hb hop hown hfirst hjoin'
          rw [hjoin', Option.bind_some] at hjoin
          have hnone := ih hmirrors ha' hb' hops' hown' hrest hjoin
          rw [hrest'] at hnone
          cases hnone

end Mirrors

/-! ## Runs from the start of the program -/

namespace Recorder

open Operation Recording

/-- Operations can leave a recorder like this. -/
def Reachable (r : Recorder) : Prop :=
  ∃ ops, (∀ op ∈ ops, op.Plain) ∧ (performAll ops .new).2 = r

theorem Reachable.sound {r : Recorder} (h : r.Reachable) : r.Sound := by
  obtain ⟨ops, hops, rfl⟩ := h
  exact sound_performAll sound_new hops

/-- A recorder that a run can start on. -/
structure Ready (r : Recorder) : Prop where
  sound : r.Sound
  failure : r.failure = none
  active : r.active = rootContext

/-- A run that a recorder accepts.  It starts over and uses only contexts of its own. -/
structure Accepts (r : Recorder) (ops : List Operation) : Prop where
  plain : ∀ op ∈ ops, op.Plain
  restarts : ops.head? = some .restart
  accepted : accepted (performAll ops r).1 = true
  own : ∀ op ∈ ops, ∀ id ∈ op.contextIds,
    id = rootContext ∨ id ∈ made ops (performAll ops r).1

variable {r a b : Recorder} {ops : List Operation}

theorem ready_new : Recorder.new.Ready :=
  ⟨sound_new, rfl, rfl⟩

theorem Accepts.own_nextContext (h : r.Accepts ops) (hr : r.Sound) :
    ∀ op ∈ ops, ∀ id ∈ op.contextIds, Own r.nextContext id :=
  fun op hop id hid => (h.own op hop id hid).imp_right ((made_performAll hr h.plain).2 id)

theorem Sound.context?_eq_none (h : r.Sound) {id : ContextId} (hid : r.nextContext ≤ id) :
    r.context? id = none := by
  cases hc : r.context? id with
  | none => rfl
  | some c => exact absurd (h.fresh _ (mem_of_context? hc)) (Nat.not_lt.mpr hid)

theorem Sound.nextContext_pos (h : r.Sound) : 0 < r.nextContext := by
  obtain ⟨c, hc, -⟩ := h.root
  exact h.fresh _ (mem_of_context? hc)

def restarted (r : Recorder) : Recorder :=
  r.continueWith r.root (Context.idle []).restart

theorem Ready.run_restart (h : r.Ready) :
    run Operation.restart.perform r = (.ok .done, r.restarted) := by
  obtain ⟨c, hc, hbase⟩ := h.sound.root
  have hrestart : Operation.restart.Plain := fun t ht => nomatch ht
  rw [run_perform h.sound hrestart h.failure (h.active ▸ hc) rfl]
  have hcontext : c.restart = (Context.idle []).restart := by
    simp [Context.restart, Context.idle, hbase]
  rw [restarted, ← hcontext]
  rfl

theorem Ready.sound_restarted (h : r.Ready) : r.restarted.Sound := by
  have hrestart : Operation.restart.Plain := fun t ht => nomatch ht
  have hkeeps := keepsSound_perform h.sound hrestart
  rw [h.run_restart] at hkeeps
  exact hkeeps.sound

theorem Ready.performAll_restart (h : r.Ready) (ops : List Operation) :
    performAll (.restart :: ops) r =
      (.ok .done :: (performAll ops r.restarted).1, (performAll ops r.restarted).2) := by
  rw [performAll_cons, h.run_restart]

/-- Once both start over, a recorder is in step with another that has recorded no more. -/
theorem mirrors_restarted (ha : a.Ready) (hb : b.Ready) (hcovers : Covers b.root a.root) :
    Mirrors a.nextContext b.nextContext a.restarted b.restarted := by
  have hpos := ha.sound.nextContext_pos
  obtain ⟨c, hc, -⟩ := ha.sound.root
  obtain ⟨d, hd, -⟩ := hb.sound.root
  unfold restarted
  refine ⟨hpos, hb.sound.nextContext_pos, ha.failure, hb.failure, Nat.le_refl _, ?_, .inl ha.active,
    ?_, ?_, hcovers⟩
  · rw [nextContext_continueWith, nextContext_continueWith, shift_of_le (Nat.le_refl _),
      Nat.sub_self, Nat.zero_add]
  · rw [active_continueWith, active_continueWith, ha.active, hb.active, shift_rootContext hpos]
  · -- both root contexts start over at the root; no other own context is live yet
    rintro id (rfl | hid)
    · simp [context?_continueWith, shift_rootContext hpos, ha.active, hb.active, hc, hd]
    · have hid' : b.nextContext ≤ shift a.nextContext b.nextContext id := by
        rw [shift_of_le hid]
        exact Nat.le_add_left ..
      have hne : ∀ {r : Recorder} {id}, r.Ready → r.nextContext ≤ id → id ≠ r.active := by
        rintro r id hr hid rfl
        rw [hr.active] at hid
        exact Nat.not_le.mpr hr.sound.nextContext_pos hid
      rw [context?_continueWith, context?_continueWith, if_neg (hne hb hid'), if_neg (hne ha hid),
        hb.sound.context?_eq_none hid', ha.sound.context?_eq_none hid]

theorem Accepts.performAll_of_join (h : a.Accepts ops) (ha : a.Ready) (hb : b.Ready)
    (hcovers : Covers b.root a.root) {root : List Trace}
    (hjoin : joinBody b.root (performAll ops a).2.root = some root) :
    (performAll (ops.map (·.renamed (shift a.nextContext b.nextContext))) b).1 =
        (performAll ops a).1.map
          (·.map (Outcome.renamed (shift a.nextContext b.nextContext))) ∧
      (performAll (ops.map (·.renamed (shift a.nextContext b.nextContext))) b).2.root = root := by
  obtain ⟨rest, rfl⟩ := List.head?_eq_some_iff.mp h.restarts
  have hok := h.accepted
  rw [ha.performAll_restart] at hok hjoin
  obtain ⟨hresults, hroot⟩ := (mirrors_restarted ha hb hcovers).performAll_of_join
    ha.sound_restarted hb.sound_restarted (fun op hop => h.plain op (List.mem_cons_of_mem _ hop))
    (fun op hop => h.own_nextContext ha.sound op (List.mem_cons_of_mem _ hop)) hok hjoin
  change (performAll (.restart :: rest.map _) b).1 = _ ∧
    (performAll (.restart :: rest.map _) b).2.root = root
  rw [ha.performAll_restart, hb.performAll_restart, hresults]
  exact ⟨rfl, hroot⟩

theorem Accepts.performAll_of_join_eq_none (h : a.Accepts ops) (ha : a.Ready) (hb : b.Ready)
    (hcovers : Covers b.root a.root) (hjoin : joinBody b.root (performAll ops a).2.root = none) :
    Operation.accepted
      (performAll (ops.map (·.renamed (shift a.nextContext b.nextContext))) b).1 = false := by
  obtain ⟨rest, rfl⟩ := List.head?_eq_some_iff.mp h.restarts
  have hok := h.accepted
  rw [ha.performAll_restart] at hok hjoin
  change Operation.accepted (performAll (.restart :: rest.map _) b).1 = false
  rw [hb.performAll_restart]
  exact (mirrors_restarted ha hb hcovers).performAll_of_join_eq_none
    ha.sound_restarted hb.sound_restarted (fun op hop => h.plain op (List.mem_cons_of_mem _ hop))
    (fun op hop => h.own_nextContext ha.sound op (List.mem_cons_of_mem _ hop)) hok hjoin

def atRoot (r : Recorder) : Recorder :=
  { r with active := rootContext }

theorem performAll_atRoot (hr : r.Sound) (ops : List Operation) :
    performAll (.switchTo rootContext :: ops) r =
      (.ok (.context r.active) :: (performAll ops r.atRoot).1, (performAll ops r.atRoot).2) := by
  obtain ⟨c, hc, -⟩ := hr.root
  rw [performAll_cons, run_switchTo, hc]
  rfl

theorem Sound.ready_atRoot (hr : r.Sound) (hfailure : r.failure = none) : r.atRoot.Ready := by
  obtain ⟨c, hc, -⟩ := hr.root
  exact ⟨⟨hr.tidy, hr.contexts, hr.fresh, hr.distinct, hr.root, ⟨c, hc⟩, hr.failure⟩, hfailure, rfl⟩

/-- The number a context of a run has when the run is done again. -/
def againId (ops : List Operation) (r : Recorder) : ContextId → ContextId :=
  shift r.nextContext (performAll ops r).2.nextContext

/-- Does a run, goes back to the root context and does the run again; what that gives the second
time. -/
def performAgain (ops : List Operation) (r : Recorder) :
    List (Except TraceError Outcome) × Recorder :=
  performAll (.switchTo rootContext :: ops.map (·.renamed (againId ops r))) (performAll ops r).2

/-- Back in the root context, a run that was accepted is accepted again, gives the same but for
the numbers of its contexts, and leaves the trace as it was. -/
theorem performAgain_eq (hr : r.Reachable) (hfailure : r.failure = none)
    (hactive : r.active = rootContext) (h : r.Accepts ops) :
    Operation.accepted (performAgain ops r).1 = true ∧
      (performAgain ops r).1 = .ok (.context (performAll ops r).2.active) ::
        (performAll ops r).1.map (·.map (Outcome.renamed (againId ops r))) ∧
      made (ops.map (·.renamed (againId ops r))) (performAgain ops r).1.tail =
        (made ops (performAll ops r).1).map (againId ops r) ∧
      (performAgain ops r).2.trace = (performAll ops r).2.trace := by
  have hready : r.Ready := ⟨hr.sound, hfailure, hactive⟩
  have hsound := sound_performAll hr.sound h.plain
  obtain ⟨hfailure', hgrows⟩ := grows_performAll hr.sound h.plain hfailure h.accepted
  have hcovers := covers_left_of_joinBody hr.sound.tidy.wellFormed hsound.tidy.wellFormed hgrows
  obtain ⟨hresults, hroot⟩ := h.performAll_of_join hready (hsound.ready_atRoot hfailure') hcovers
    (Covers.refl hsound.tidy.wellFormed)
  have hagain : performAgain ops r = (.ok (.context (performAll ops r).2.active) ::
      (performAll ops r).1.map (·.map (Outcome.renamed (againId ops r))),
      (performAll (ops.map (·.renamed (againId ops r))) (performAll ops r).2.atRoot).2) := by
    rw [performAgain, performAll_atRoot hsound]
    exact Prod.ext (congrArg (List.cons _) hresults) rfl
  rw [hagain]
  refine ⟨?_, rfl, made_renamed _ ops _, congrArg block hroot⟩
  rw [Operation.accepted, List.all_cons]
  exact (accepted_map _ _).trans h.accepted

/-- A run that goes through a loop twice, and leaves its callback by breaking out of two labels. -/
theorem performAgain_eq_callback :
    let click : Operation := .callback "click" (.string "b") ["e"] (.closure [])
    let ops : List Operation :=
      [.restart, click, .switchTo 2, .restart, .label "outer", .label "inner",
        .breakTo "outer" .undefined, .switchTo 0, .loop (.string "t"), .iterate,
        .bind "x" .undefined, .iterate, .bind "x" .undefined, .exit, .pushArgs [.string "a"],
        .popArgs, .release 2]
    let r := (performAll [click] .new).2
    (r.Reachable ∧ r.failure = none ∧ r.active = rootContext ∧ r.Accepts ops) ∧
      Operation.accepted (performAgain ops r).1 = true ∧
      (performAgain ops r).1 = .ok (.context (performAll ops r).2.active) ::
        (performAll ops r).1.map (·.map (Outcome.renamed (againId ops r))) ∧
      made (ops.map (·.renamed (againId ops r))) (performAgain ops r).1.tail =
        (made ops (performAll ops r).1).map (againId ops r) ∧
      (performAgain ops r).2.trace = (performAll ops r).2.trace := by
  intro click ops r
  have hr : r.Reachable := ⟨[click], by decide, rfl⟩
  have hops : r.Accepts ops := ⟨by decide, rfl, by decide, by decide⟩
  exact ⟨⟨hr, rfl, rfl, hops⟩, performAgain_eq hr rfl rfl hops⟩

end Recorder

end TraceLoom
