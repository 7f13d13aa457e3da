import TraceLoom.Proofs.Recorder.Invariant

/-!
Runs of a recorder: operations one after another, over any contexts, some of which may fail.
Whatever is done with a recorder, it stays sound, never loses a path, and never gives a context
the number of an earlier one.
-/

namespace TraceLoom

namespace Operation

open Recording

/-- Performs operations one after another, also after one that failed. -/
def performAll : List Operation → Recorder → List (Except TraceError Outcome) × Recorder
  | [], r => ([], r)
  | op :: ops, r =>
      let (result, r) := run op.perform r
      let (results, r) := performAll ops r
      (result :: results, r)

/-- The contexts made by the callbacks among operations with given results. -/
def made : List Operation → List (Except TraceError Outcome) → List ContextId
  | callback .. :: ops, .ok (.context id) :: results => id :: made ops results
  | _ :: ops, _ :: results => made ops results
  | _, _ => []

variable {r : Recorder}

theorem performAll_cons (op : Operation) (ops : List Operation) (r : Recorder) :
    performAll (op :: ops) r =
      ((run op.perform r).1 :: (performAll ops (run op.perform r).2).1,
        (performAll ops (run op.perform r).2).2) := rfl

theorem sound_performAll (hr : r.Sound) {ops : List Operation} (hops : ∀ op ∈ ops, op.Plain) :
    (performAll ops r).2.Sound := by
  induction ops generalizing r with
  | nil => exact hr
  | cons op ops ih =>
      obtain ⟨hop, hops⟩ := List.forall_mem_cons.mp hops
      exact ih (keepsSound_perform hr hop).sound hops

theorem ne_danglingPath_of_performAll (hr : r.Sound) {ops : List Operation}
    (hops : ∀ op ∈ ops, op.Plain) :
    ∀ result ∈ (performAll ops r).1, result ≠ .error .danglingPath := by
  induction ops generalizing r with
  | nil => simp [performAll]
  | cons op ops ih =>
      obtain ⟨hop, hops⟩ := List.forall_mem_cons.mp hops
      have hkeeps := keepsSound_perform hr hop
      exact List.forall_mem_cons.mpr ⟨hkeeps.path, ih hkeeps.sound hops⟩

/-! ## Numbers of contexts -/

theorem nextContext_le_carryOut (p : Plan) (r : Recorder) :
    r.nextContext ≤ (p.carryOut r).2.nextContext := by
  unfold Plan.carryOut
  cases p.edited r.root with
  | error e => exact Nat.le_refl _
  | ok root => cases p.finish with
      | register base => exact Nat.le_succ _
      | _ => exact Nat.le_refl _

theorem nextContext_le_perform (hr : r.Sound) {op : Operation} (hop : op.Plain) :
    r.nextContext ≤ (run op.perform r).2.nextContext := by
  obtain ⟨c, hc⟩ := hr.active
  cases hp : op.plan? c with
  | some p =>
      cases hfailure : r.failure with
      | none =>
          rw [run_perform hr hop hfailure hc hp]
          exact nextContext_le_carryOut p r
      | some cause =>
          have hsame := run_perform_of_failure hp hfailure
          exact Nat.le_of_eq (congrArg (·.2.nextContext) hsame).symm
  | none =>
      cases op <;> cases hp
      · rw [run_switchTo]
        split <;> exact Nat.le_refl _
      · rw [run_release]
        dsimp only
        split <;> exact Nat.le_refl _

/-- A callback gives the next number, which is then used up. -/
theorem run_callback_eq_ok (hr : r.Sound) {event : String} {arg record : Trace}
    {params : List String} (hop : (callback event arg params record).Plain) {id : ContextId}
    (h : (run (callback event arg params record).perform r).1 = .ok (.context id)) :
    id = r.nextContext ∧
      (run (callback event arg params record).perform r).2.nextContext = r.nextContext + 1 := by
  obtain ⟨c, hc⟩ := hr.active
  cases hfailure : r.failure with
  | some cause =>
      rw [run_perform_of_failure (c := c) rfl hfailure] at h
      cases h
  | none =>
      rw [run_perform hr hop hfailure hc rfl] at h ⊢
      cases hopen : c.frames with
      | nil => simp [Plan.statement, hopen, Plan.carryOut_refuse hr hc] at h
      | cons f fs =>
          simp only [Plan.statement, hopen, Plan.carryOut] at h ⊢
          split at h
          · cases h
          · obtain rfl : r.nextContext = id := by simpa [Plan.finished] using h
            exact ⟨rfl, rfl⟩

/-- Callbacks give ever larger numbers. -/
theorem made_performAll (hr : r.Sound) {ops : List Operation} (hops : ∀ op ∈ ops, op.Plain) :
    (made ops (performAll ops r).1).Pairwise (· < ·) ∧
      ∀ id ∈ made ops (performAll ops r).1, r.nextContext ≤ id := by
  induction ops generalizing r with
  | nil => exact ⟨.nil, by simp [made]⟩
  | cons op ops ih =>
      obtain ⟨hop, hops⟩ := List.forall_mem_cons.mp hops
      obtain ⟨hrest, hbound⟩ := ih (keepsSound_perform hr hop).sound hops
      have hle := nextContext_le_perform hr hop
      rw [performAll_cons]
      unfold made
      split
      · rename_i event arg params record ops' id results hcons hresults
        obtain ⟨rfl, rfl⟩ := List.cons.inj hcons
        obtain ⟨hid, rfl⟩ := List.cons.inj hresults
        obtain ⟨rfl, hnext⟩ := run_callback_eq_ok hr hop hid
        rw [hnext] at hbound
        refine ⟨.cons (fun id hid => hbound id hid) hrest, fun id hid => ?_⟩
        rcases List.mem_cons.mp hid with rfl | hid
        · exact Nat.le_refl _
        · exact Nat.le_of_succ_le (hbound id hid)
      · rename_i op' ops' result results _ hcons hresults
        obtain ⟨rfl, rfl⟩ := List.cons.inj hcons
        obtain ⟨rfl, rfl⟩ := List.cons.inj hresults
        exact ⟨hrest, fun id hid => Nat.le_trans hle (hbound id hid)⟩
      · rename_i hnot
        exact absurd rfl (hnot _ _ _ _ rfl)

end Operation

/-- Whatever is done with a new recorder, it is sound, no path leads nowhere, and no two
callbacks get one context. -/
theorem Recorder.sound_of_run (ops : List Operation) (hops : ∀ op ∈ ops, op.Plain) :
    (Operation.performAll ops .new).2.Sound ∧
      (Operation.made ops (Operation.performAll ops .new).1).Nodup ∧
      ∀ result ∈ (Operation.performAll ops .new).1, result ≠ .error .danglingPath := by
  refine ⟨Operation.sound_performAll sound_new hops, ?_,
    Operation.ne_danglingPath_of_performAll sound_new hops⟩
  exact (Operation.made_performAll sound_new hops).1.imp Nat.ne_of_lt

/-- Two contexts in one callback body, one of which breaks to a label that is not open. -/
theorem Recorder.sound_of_run_callback :
    let ops : List Operation :=
      [.label "main", .callback "click" (.string "b") ["e"] (.closure []), .exit, .switchTo 1,
        .restart, .bind "x" .undefined, .restart, .breakTo "other" .undefined, .switchTo 0,
        .release 1]
    (∀ op ∈ ops, op.Plain) ∧
      (Operation.performAll ops .new).2.Sound ∧
      (Operation.made ops (Operation.performAll ops .new).1).Nodup ∧
      ∀ result ∈ (Operation.performAll ops .new).1, result ≠ .error .danglingPath := by
  intro ops
  have hops : ∀ op ∈ ops, op.Plain := by decide
  exact ⟨hops, sound_of_run ops hops⟩

end TraceLoom
