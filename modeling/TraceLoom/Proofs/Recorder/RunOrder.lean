import TraceLoom.Proofs.Recorder.Replay

/-!
Runs that a new recorder accepts, done on any recorder.  Doing one step by step gives what merging
with its whole trace gives, so the order in which runs are done does not matter.
-/

namespace TraceLoom

open Trace

/-! ## Parameters of recorded callbacks -/

namespace Trace

theorem isLocal_hasNamedParams : IsLocal hasNamedParams where
  body _ _ := rfl
  setPart hb ht _ := by
    rw [hasNamedParams, params_setPart]
    exact ht
  set _ _ _ := rfl

theorem Plain.namedParams {t : Trace} (h : Plain t) : NamedParams t := by
  refine every_mono (fun s hs => ?_) h
  cases s <;> simp_all [Trace.isExpression, hasNamedParams, params]

theorem namedParams_block_iff {b : List Trace} :
    NamedParams (block b) ↔ ∀ s ∈ b, NamedParams s := by
  rw [NamedParams, every_block_iff]
  exact and_iff_right rfl

end Trace

namespace Operation

def params : Operation → List String
  | callback _ _ params _ => params
  | _ => []

def Named (op : Operation) : Prop :=
  ∀ p ∈ op.params, Script.isNameText p = true

instance (op : Operation) : Decidable op.Named :=
  inferInstanceAs (Decidable (∀ p ∈ op.params, Script.isNameText p = true))

theorem namedParams_of_statement? {op : Operation} {t : Trace} (hop : op.Plain) (hnamed : op.Named)
    (ht : op.statement? = some t) : NamedParams t := by
  have hplain : ∀ s ∈ op.expressions, Trace.Plain s := hop
  have hchildren : ∀ s ∈ t.children, Trace.Plain s ∨ s = hole ∨ s = block [hole] := by
    cases op <;> cases ht <;> simp_all [children, parts, expressions]
  refine every_eq_true_iff.mpr ⟨List.all_eq_true.mpr ?_, fun s hs => ?_⟩
  · cases op <;> cases ht <;> simp_all [Named, params, Trace.params]
  · rcases hchildren s hs with hs | rfl | rfl
    · exact hs.namedParams
    · decide
    · decide

end Operation

/-- A change puts nothing into a list but what it records. -/
theorem Edit.mem_of_apply {e : Edit} {k : Nat} {b c : List Trace} (h : e.apply k b = .ok c) :
    ∀ s ∈ c, s ∈ b ∨ ∃ t rest, e = record t rest ∧ s ∈ t :: rest := by
  intro s hs
  cases e with
  | record t rest =>
      rw [apply] at h
      split at h
      · cases h
      · split at h
        · obtain rfl := Except.ok.inj h
          rcases List.mem_append.mp hs with hs | hs
          · exact .inl (List.mem_of_mem_take hs)
          · exact .inr ⟨t, rest, rfl, hs⟩
        · split at h
          · cases h
          · exact .inl (Except.ok.inj h ▸ hs)
  | close =>
      rw [apply] at h
      split at h
      · exact .inl (Except.ok.inj h ▸ hs)
      · split at h
        · obtain rfl := Except.ok.inj h
          exact .inl (List.mem_of_mem_take hs)
        · cases h

theorem Plan.namedParams_edited {p : Plan} {frames : List Frame} {statement? : Option Trace}
    {a b : List Trace} (hfits : p.Fits frames statement?)
    (hstatement : ∀ {t}, statement? = some t → NamedParams t) (ha : NamedParams (block a))
    (h : p.edited a = .ok b) : NamedParams (block b) := by
  unfold edited at h
  cases hedit : p.edit with
  | none =>
      obtain rfl : a = b := by simpa [hedit] using h
      exact ha
  | some edit =>
      obtain ⟨f, e⟩ := edit
      cases hlist : blockAt? f.path a with
      | none => simp [hedit, hlist] at h
      | some c => cases happly : e.apply f.cursor c with
          | error error => simp [hedit, hlist, happly, Except.map] at h
          | ok d =>
              obtain rfl : replaceAt f.path d a = b := by
                simpa [hedit, hlist, happly, Except.map] using h
              have hc : NamedParams (block c) := isLocal_hasNamedParams.every_blockAt? ha hlist
              refine isLocal_hasNamedParams.every_replaceAt ha hlist
                (namedParams_block_iff.mpr fun s hs => ?_)
              rcases Edit.mem_of_apply happly s hs with hs | ⟨t, rest, rfl, hs⟩
              · exact namedParams_block_iff.mp hc s hs
              · obtain ⟨-, hclose | ⟨u, hu, hrecord⟩⟩ := hfits.edit f _ hedit
                · cases hclose
                · obtain ⟨rfl, rfl⟩ := Edit.record.inj hrecord
                  rcases List.mem_cons.mp hs with rfl | hs
                  · exact hstatement hu
                  · rw [eq_hole_of_mem_followers hs]
                    decide

namespace Operation

open Recording Recorder

variable {r : Recorder} {op : Operation} {ops : List Operation}

theorem namedParams_perform (hr : r.Sound) (hop : op.Plain) (hnamed : op.Named)
    (h : NamedParams r.trace) : NamedParams (run op.perform r).2.trace := by
  obtain ⟨c, hc⟩ := hr.active
  cases hp : op.plan? c with
  | some p =>
      cases hfailure : r.failure with
      | some cause =>
          rw [run_perform_of_failure hp hfailure]
          exact h
      | none =>
          rw [run_perform hr hop hfailure hc hp, Plan.carryOut]
          cases hedited : p.edited r.root with
          | error e => exact h
          | ok root =>
              have hroot := Plan.namedParams_edited (fits_of_plan? hp)
                (namedParams_of_statement? hop hnamed) h hedited
              rw [trace, Plan.root_finished]
              exact hroot
  | none =>
      cases op <;> cases hp
      · rw [run_switchTo]
        split <;> exact h
      · rw [trace, root_release]
        exact h

theorem namedParams_performAll (hr : r.Sound) (hops : ∀ op ∈ ops, op.Plain ∧ op.Named)
    (h : NamedParams r.trace) : NamedParams (performAll ops r).2.trace := by
  induction ops generalizing r with
  | nil => exact h
  | cons op ops ih =>
      obtain ⟨⟨hop, hnamed⟩, hops⟩ := List.forall_mem_cons.mp hops
      exact ih (keepsSound_perform hr hop).sound hops (namedParams_perform hr hop hnamed h)

end Operation

/-! ## Runs of a new recorder -/

namespace Recorder

open Operation Recording

variable {r : Recorder} {ops : List Operation}

/-- The trace of a run on a new recorder. -/
def recorded (ops : List Operation) : Trace :=
  (performAll ops .new).2.trace

/-- Does a run of a new recorder on another one, where its contexts have the next numbers. -/
def performOn (ops : List Operation) (r : Recorder) :
    List (Except TraceError Outcome) × Recorder :=
  performAll (ops.map (·.renamed (shift 1 r.nextContext))) r

theorem Ready.covers_new (h : r.Ready) : Covers r.root Recorder.new.root :=
  joinBody_open_right (Tidy.isBody h.sound.tidy)

theorem merge_trace_eq_ok_iff {a b : Recorder} {m : Trace} : merge a.trace b.trace = .ok m ↔
    ∃ root, joinBody a.root b.root = some root ∧ block root = m := by
  rw [merge_eq_ok_iff, trace, trace, join_block, Option.map_eq_some_iff]

/-- A run that merges goes through step by step, and leaves the merged trace. -/
theorem Accepts.performOn_of_merge (h : Recorder.new.Accepts ops) (hr : r.Ready) {m : Trace}
    (hm : merge r.trace (recorded ops) = .ok m) :
    (performOn ops r).1 =
        (performAll ops .new).1.map (·.map (Outcome.renamed (shift 1 r.nextContext))) ∧
      (performOn ops r).2.trace = m := by
  obtain ⟨root, hjoin, rfl⟩ := merge_trace_eq_ok_iff.mp hm
  obtain ⟨hresults, hroot⟩ := h.performAll_of_join ready_new hr hr.covers_new hjoin
  exact ⟨hresults, congrArg block hroot⟩

/-- A run is accepted step by step exactly if its trace merges. -/
theorem Accepts.accepted_performOn_iff (h : Recorder.new.Accepts ops) (hr : r.Ready) :
    Operation.accepted (performOn ops r).1 = true ↔ ∃ m, merge r.trace (recorded ops) = .ok m := by
  constructor
  · intro hok
    cases hjoin : joinBody r.root (performAll ops .new).2.root with
    | some root => exact ⟨_, merge_trace_eq_ok_iff.mpr ⟨root, hjoin, rfl⟩⟩
    | none =>
        have hnone := h.performAll_of_join_eq_none ready_new hr hr.covers_new hjoin
        cases hok.symm.trans hnone
  · rintro ⟨m, hm⟩
    rw [(h.performOn_of_merge hr hm).1, accepted_map]
    exact h.accepted

/-! ## Many runs -/

/-- Does runs one after another, each from the root context, as long as all goes through. -/
def recordRuns : List (List Operation) → Recorder → Option Recorder
  | [], r => some r
  | ops :: runs, r =>
      let (results, r) :=
        performAll (.switchTo rootContext :: ops.map (·.renamed (shift 1 r.nextContext))) r
      if Operation.accepted results then recordRuns runs r else none

theorem recordRuns_cons (hr : r.Sound) (ops : List Operation) (runs : List (List Operation)) :
    recordRuns (ops :: runs) r =
      if Operation.accepted (performOn ops r.atRoot).1 then
        recordRuns runs (performOn ops r.atRoot).2
      else none := by
  rw [recordRuns, performAll_atRoot hr]
  rfl

/-- Merges the traces of runs into a group, one after another. -/
def mergeRuns (g : Grouping) (runs : List (List Operation)) : Grouping :=
  runs.foldl (fun g ops => .pair g (.one (recorded ops))) g

variable {runs : List (List Operation)} {g : Grouping}

theorem traces_mergeRuns (g : Grouping) (runs : List (List Operation)) :
    (mergeRuns g runs).traces = g.traces ++ runs.map recorded := by
  induction runs generalizing g with
  | nil => simp [mergeRuns]
  | cons ops runs ih => simpa [mergeRuns, Grouping.traces] using ih (.pair g (.one (recorded ops)))

theorem merged_mergeRuns_of_error {e : Mismatch} (h : g.merged = .error e) :
    (mergeRuns g runs).merged = .error e := by
  induction runs generalizing g with
  | nil => exact h
  | cons ops runs ih =>
      refine ih ?_
      rw [Grouping.merged, h]
      rfl

/-- Doing runs one after another is merging with their traces one after another. -/
theorem recordRuns_map_trace (hr : r.Sound) (hfailure : r.failure = none)
    (hruns : ∀ ops ∈ runs, Recorder.new.Accepts ops) (hg : g.merged = .ok r.trace) :
    (recordRuns runs r).map trace = (mergeRuns g runs).merged.toOption := by
  induction runs generalizing r g with
  | nil =>
      rw [mergeRuns, List.foldl_nil, hg]
      rfl
  | cons ops runs ih =>
      obtain ⟨hops, hruns⟩ := List.forall_mem_cons.mp hruns
      have hready := hr.ready_atRoot hfailure
      have hpair : (Grouping.pair g (.one (recorded ops))).merged = merge r.trace (recorded ops) := by
        rw [Grouping.merged, hg]
        rfl
      have haccepted := hops.accepted_performOn_iff hready
      rw [recordRuns_cons hr]
      change _ = (mergeRuns (.pair g (.one (recorded ops))) runs).merged.toOption
      cases hm : merge r.trace (recorded ops) with
      | error e =>
          have hrefused : ¬ Operation.accepted (performOn ops r.atRoot).1 = true := by
            rw [haccepted]
            rintro ⟨m, hm'⟩
            cases hm.symm.trans hm'
          rw [if_neg hrefused, merged_mergeRuns_of_error (hpair.trans hm)]
          rfl
      | ok m =>
          obtain ⟨-, htrace⟩ := hops.performOn_of_merge hready hm
          rw [if_pos (haccepted.mpr ⟨m, hm⟩)]
          have hplain : ∀ op ∈ ops.map (·.renamed (shift 1 r.atRoot.nextContext)), op.Plain := by
            simpa using fun op hop => (hops.plain op hop).renamed _
          exact ih (sound_performAll hready.sound hplain)
            (grows_performAll hready.sound hplain hfailure (haccepted.mpr ⟨m, hm⟩)).1 hruns
            ((hpair.trans hm).trans (congrArg Except.ok htrace.symm))

theorem mergeable_trace (hr : r.Sound) (hnamed : NamedParams r.trace) : Mergeable r.trace :=
  ⟨hr.tidy.wellFormed, hnamed⟩

theorem Accepts.mergeable_recorded (h : Recorder.new.Accepts ops) (hnamed : ∀ op ∈ ops, op.Named) :
    Mergeable (recorded ops) :=
  mergeable_trace (sound_performAll sound_new h.plain)
    (namedParams_performAll sound_new (fun op hop => ⟨h.plain op hop, hnamed op hop⟩) (by decide))

theorem rel_of_sameOutcome {x y : Option Recorder} {m m' : Except Mismatch Trace}
    (hx : x.map trace = m.toOption) (hy : y.map trace = m'.toOption) (h : SameOutcome m m') :
    Option.Rel (fun a b => Alike a.trace b.trace) x y := by
  cases m with
  | error e => cases m' with
      | error e' =>
          obtain rfl := Option.map_eq_none_iff.mp hx
          obtain rfl := Option.map_eq_none_iff.mp hy
          exact .none
      | ok t => cases h
  | ok t => cases m' with
      | error e => cases h
      | ok t' =>
          obtain ⟨a, rfl, rfl⟩ := Option.map_eq_some_iff.mp hx
          obtain ⟨b, rfl, rfl⟩ := Option.map_eq_some_iff.mp hy
          exact .some h

/-- Runs in two orders either both go through and leave traces that are alike, or both do not. -/
theorem recordRuns_perm {runs' : List (List Operation)} (hr : r.Sound) (hfailure : r.failure = none)
    (hnamed : NamedParams r.trace)
    (hruns : ∀ ops ∈ runs, Recorder.new.Accepts ops ∧ ∀ op ∈ ops, op.Named)
    (hperm : runs.Perm runs') :
    Option.Rel (fun a b => Alike a.trace b.trace) (recordRuns runs r) (recordRuns runs' r) := by
  have hmerge := recordRuns_map_trace (g := .one r.trace) hr hfailure
    (fun ops hops => (hruns ops hops).1) rfl
  have hmerge' := recordRuns_map_trace (g := .one r.trace) hr hfailure
    (fun ops hops => (hruns ops (hperm.mem_iff.mpr hops)).1) rfl
  have hmergeable : ∀ t ∈ (mergeRuns (.one r.trace) runs).traces, Mergeable t := by
    intro t ht
    rw [traces_mergeRuns] at ht
    rcases List.mem_append.mp ht with ht | ht
    · rw [List.mem_singleton.mp ht]
      exact mergeable_trace hr hnamed
    · obtain ⟨ops, hops, rfl⟩ := List.mem_map.mp ht
      exact (hruns ops hops).1.mergeable_recorded (hruns ops hops).2
  have hsame := sameOutcome_of_mem_iff (h := mergeRuns (.one r.trace) runs') hmergeable fun t => by
    rw [traces_mergeRuns, traces_mergeRuns]
    exact ((hperm.map recorded).append_left _).mem_iff
  exact rel_of_sameOutcome hmerge hmerge' hsame

/-- Doing a run step by step goes through exactly if its trace merges, and then leaves the merged
trace.  So it does not matter in which order runs are done. -/
theorem performOn_eq_merge (hr : r.Reachable) (hfailure : r.failure = none)
    (hactive : r.active = rootContext) :
    (∀ ops, Recorder.new.Accepts ops →
      (Operation.accepted (performOn ops r).1 = true ↔
        ∃ m, merge r.trace (recorded ops) = .ok m) ∧
      ∀ m, merge r.trace (recorded ops) = .ok m →
        (performOn ops r).1 = (performAll ops .new).1.map
            (·.map (Outcome.renamed (shift 1 r.nextContext))) ∧
          (performOn ops r).2.trace = m) ∧
    ∀ runs runs', (∀ ops ∈ runs, Recorder.new.Accepts ops ∧ ∀ op ∈ ops, op.Named) →
      NamedParams r.trace → runs.Perm runs' →
        Option.Rel (fun a b => Alike a.trace b.trace) (recordRuns runs r) (recordRuns runs' r) := by
  have hready : r.Ready := ⟨hr.sound, hfailure, hactive⟩
  refine ⟨fun ops hops => ⟨hops.accepted_performOn_iff hready, fun m hm => ?_⟩,
    fun runs runs' hruns hnamed hperm => ?_⟩
  · exact hops.performOn_of_merge hready hm
  · exact recordRuns_perm hr.sound hfailure hnamed hruns hperm

/-- Two runs that take different branches, one of which stops inside a callback. -/
theorem performOn_eq_merge_branches :
    let left : List Operation :=
      [.restart, .branch false (.string "c"), .callback "click" (.string "b") ["e"] (.closure []),
        .switchTo 1, .restart, .bind "y" .undefined]
    let right : List Operation :=
      [.restart, .branch true (.string "c"), .bind "x" (.string "1"), .exit]
    let r := (performAll [.branch true (.string "c")] .new).2
    (r.Reachable ∧ r.failure = none ∧ r.active = rootContext ∧ Recorder.new.Accepts left ∧
        Recorder.new.Accepts right ∧ NamedParams r.trace) ∧
      (Operation.accepted (performOn left r).1 = true ↔
        ∃ m, merge r.trace (recorded left) = .ok m) ∧
      (∃ m, merge r.trace (recorded left) = .ok m ∧ (performOn left r).2.trace = m) ∧
      Option.Rel (fun a b => Alike a.trace b.trace) (recordRuns [left, right] r)
        (recordRuns [right, left] r) := by
  intro left right r
  have hr : r.Reachable := ⟨_, by decide, rfl⟩
  have hleft : Recorder.new.Accepts left := ⟨by decide, rfl, by decide, by decide⟩
  have hright : Recorder.new.Accepts right := ⟨by decide, rfl, by decide, by decide⟩
  have hnamed : NamedParams r.trace := by decide
  have hruns : ∀ ops ∈ [left, right], Recorder.new.Accepts ops ∧ ∀ op ∈ ops, op.Named := by
    intro ops hops
    rcases List.mem_pair.mp hops with rfl | rfl
    · exact ⟨hleft, by decide⟩
    · exact ⟨hright, by decide⟩
  have hmerge := performOn_eq_merge hr rfl rfl
  obtain ⟨haccepted, htrace⟩ := hmerge.1 left hleft
  obtain ⟨m, hm⟩ := haccepted.mp (by decide)
  exact ⟨⟨hr, rfl, rfl, hleft, hright, hnamed⟩, haccepted, ⟨m, hm, (htrace m hm).2⟩,
    hmerge.2 _ _ hruns hnamed (.swap ..)⟩

end Recorder

end TraceLoom
