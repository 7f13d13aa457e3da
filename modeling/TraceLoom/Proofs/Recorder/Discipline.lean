import TraceLoom.Proofs.Recorder.Invariant

/-!
What an operation leaves of the contexts: its own context goes on as planned, the others stay.  A
recorder is misused only if the plan says so.
-/

namespace TraceLoom

open Trace

/-- Errors of a recorder that is used out of order. -/
def TraceError.IsMisuse : TraceError → Prop
  | exitPastTop | noOpenBlock | labelNotOpen _ | scopeMismatch .. | unknownContext _ | danglingPath
  | arity .. => True
  | _ => False

/-- The arguments that wait are expressions. -/
def Context.PlainPending (c : Context) : Prop :=
  ∀ args ∈ c.pending, ∀ t ∈ args, Plain t

namespace Recorder

variable {r r' r'' : Recorder}

/-- The arguments that wait in any context are expressions. -/
def PlainPending (r : Recorder) : Prop :=
  ∀ entry ∈ r.contexts, entry.2.PlainPending

/-- The active context may have gone on, contexts may be new; the others are as before. -/
structure Stays (r r' : Recorder) : Prop where
  active : r'.active = r.active
  others : ∀ {id : ContextId} {c : Context}, id ≠ r.active → r.context? id = some c →
    r'.context? id = some c
  fresh : r.nextContext ≤ r'.nextContext

@[refl] theorem Stays.refl (r : Recorder) : r.Stays r :=
  ⟨rfl, fun _ => id, Nat.le_refl _⟩

@[trans] theorem Stays.trans (h : r.Stays r') (h' : r'.Stays r'') : r.Stays r'' :=
  ⟨h'.active.trans h.active, fun hne hc => h'.others (h.active ▸ hne) (h.others hne hc),
    Nat.le_trans h.fresh h'.fresh⟩

theorem stays_fail (r : Recorder) (e : TraceError) : r.Stays { r with failure := some e } :=
  ⟨rfl, fun _ => id, Nat.le_refl _⟩

theorem stays_continueWith (r : Recorder) (root : List Trace) (c : Context) :
    r.Stays (r.continueWith root c) :=
  ⟨rfl, fun hne hc => by rw [context?_continueWith, if_neg hne, hc], Nat.le_refl _⟩

theorem fresh_context? (hr : r.Sound) : r.context? r.nextContext = none := by
  refine Option.eq_none_iff_forall_ne_some.mpr fun c hc => ?_
  exact Nat.lt_irrefl _ (hr.fresh _ (mem_of_context? hc))

theorem plainPending_continueWith (h : r.PlainPending) (root : List Trace) {c : Context}
    (hc : c.PlainPending) : (r.continueWith root c).PlainPending := by
  intro entry hentry
  obtain ⟨old, hold, rfl⟩ := List.mem_map.mp hentry
  split
  · exact hc
  · exact h old hold

end Recorder

namespace Plan

open Recorder

variable {r : Recorder} {c : Context} {p : Plan}

theorem not_misuse_of_apply {e : Edit} {cursor : Nat} {b : List Trace} {error : TraceError}
    (h : e.apply cursor b = .error error) : ¬ error.IsMisuse := by
  cases e <;> simp only [Edit.apply] at h <;> repeat' split at h
  all_goals cases h
  all_goals exact id

theorem not_misuse_of_edited {root : List Trace} {error : TraceError}
    (h : p.edited root = .error error) (hpath : error ≠ .danglingPath) : ¬ error.IsMisuse := by
  unfold edited at h
  split at h
  · cases h
  · rename_i f e _
    split at h
    · cases h
      exact absurd rfl hpath
    · rename_i b _
      cases happly : e.apply f.cursor b with
      | error cause =>
          rw [happly] at h
          cases h
          exact not_misuse_of_apply happly
      | ok b' =>
          rw [happly] at h
          cases h

/-- What becomes of arguments: a plan keeps them plain and gives plain ones. -/
structure KeepsPlain (p : Plan) : Prop where
  refused : p.refused.PlainPending
  context : p.context.PlainPending
  args : ∀ ts, p.finish = .give (.args ts) → ∀ t ∈ ts, Plain t

theorem keepsPlain_statement (hc : c.PlainPending) {t : Trace} {pending : List (List Trace)}
    (hpending : ∀ args ∈ pending, ∀ t ∈ args, Plain t)
    {frames : Frame → List Frame → List Frame} {finish : Frame → List Frame → Finish}
    (hfinish : ∀ f fs ts, finish f fs = .give (.args ts) → ∀ t ∈ ts, Plain t) :
    (statement c t pending frames finish).KeepsPlain := by
  unfold statement
  split
  · exact ⟨hc, hc, nofun⟩
  · exact ⟨hc, hpending, hfinish _ _⟩

end Plan

namespace Operation

open Recorder Plan Recording

variable {r : Recorder} {c : Context} {op : Operation} {p : Plan}

theorem keepsPlain_plan (hop : op.Plain) (hc : c.PlainPending) (hp : op.plan? c = some p) :
    p.KeepsPlain := by
  have hcons {args : List Trace} (hargs : ∀ t ∈ args, Trace.Plain t) :
      ∀ ts ∈ args :: c.pending, ∀ t ∈ ts, Trace.Plain t :=
    List.forall_mem_cons.mpr ⟨hargs, hc⟩
  have hexpressions : ∀ t ∈ op.expressions, Trace.Plain t := hop
  cases op <;> cases hp
  case restart => exact ⟨hc, by simp [Plan.pass, Context.restart, Context.PlainPending], nofun⟩
  case bind | assign | primitive | branch | loop | label | callback =>
    exact keepsPlain_statement hc hc nofun
  case call => exact keepsPlain_statement hc (hcons hexpressions) nofun
  case pushArgs => exact ⟨hc, hcons hexpressions, nofun⟩
  case iterate =>
    unfold Plan.iterate
    split
    · exact ⟨hc, hc, nofun⟩
    · split
      · exact ⟨hc, hc, nofun⟩
      · exact ⟨hc, hc, nofun⟩
  case breakTo =>
    refine keepsPlain_statement hc hc fun f fs ts h => ?_
    split at h <;> cases h
  case enterBody =>
    unfold Plan.enterBody
    split
    · exact ⟨hc, hc, nofun⟩
    · split
      · exact ⟨hc, hc, nofun⟩
      · rename_i args rest hpending
        obtain ⟨hargs, hrest⟩ := List.forall_mem_cons.mp (by simpa only [Context.PlainPending, hpending] using hc)
        refine keepsPlain_statement (c := { c with pending := rest }) hrest hrest fun f fs ts h t ht => ?_
        cases h
        rcases List.mem_append.mp ht with htake | hpad
        · exact hargs t (List.mem_of_mem_take htake)
        · rw [(List.mem_replicate.mp hpad).2]
          decide
  case popArgs =>
    unfold Plan.popArgs
    split
    · exact ⟨hc, hc, nofun⟩
    · rename_i args rest hpending
      obtain ⟨hargs, hrest⟩ := List.forall_mem_cons.mp (by simpa only [Context.PlainPending, hpending] using hc)
      refine ⟨hc, hrest, fun ts h => ?_⟩
      cases h
      exact hargs
  case exit =>
    unfold Plan.exit
    split
    · exact ⟨hc, hc, nofun⟩
    · exact ⟨hc, hc, nofun⟩

/-- What there is after an operation that has a plan. -/
structure Performed (r : Recorder) (p : Plan)
    (result : Except TraceError Outcome × Recorder) : Prop where
  sound : result.2.Sound
  pending : result.2.PlainPending
  stays : r.Stays result.2
  error : ∀ {e : TraceError}, result.1 = .error e → e.IsMisuse → p.finish = .fail e
  ok : ∀ {out : Outcome}, result.1 = .ok out →
    result.2.context? result.2.active = some p.context ∧
      (p.finish = .give out ∨ ∃ base, p.finish = .register base ∧ out = .context r.nextContext ∧
        result.2.context? r.nextContext = some (.idle base) ∧
        result.2.nextContext = r.nextContext + 1)
  args : ∀ {ts : List Trace}, result.1 = .ok (.args ts) → ∀ t ∈ ts, Trace.Plain t

theorem performed (hr : r.Sound) (hpending : r.PlainPending) (hop : op.Plain)
    (hc : r.context? r.active = some c) (hp : op.plan? c = some p) :
    Performed r p (run op.perform r) := by
  have hkeeps := keepsSound_perform hr hop
  have hplain := keepsPlain_plan hop (hpending _ (mem_of_context? hc)) hp
  cases hfailure : r.failure with
  | some cause =>
      rw [run_perform_of_failure hp hfailure]
      refine ⟨hr, hpending, .refl r, fun h hmisuse => ?_, fun h => ?_, fun h => ?_⟩
      · cases h
        exact hmisuse.elim
      · cases h
      · cases h
  | none =>
      rw [run_perform hr hop hfailure hc hp] at hkeeps ⊢
      unfold carryOut at hkeeps ⊢
      cases hedited : p.edited r.root with
      | error e =>
          rw [hedited] at hkeeps
          refine ⟨hkeeps.sound, plainPending_continueWith hpending r.root hplain.refused,
            (stays_continueWith r r.root p.refused).trans (stays_fail _ e), fun h hmisuse => ?_,
            fun h => ?_, fun h => ?_⟩
          · cases h
            exact absurd hmisuse (not_misuse_of_edited hedited fun heq => hkeeps.path (heq ▸ rfl))
          · cases h
          · cases h
      | ok root =>
          rw [hedited] at hkeeps
          have hlive := context?_active_continueWith hc root p.context
          have hstays := stays_continueWith r root p.context
          have hpending' := plainPending_continueWith hpending root hplain.context
          dsimp only at hkeeps ⊢
          cases hfinish : p.finish with
          | give out =>
              rw [hfinish] at hkeeps
              refine ⟨hkeeps.sound, hpending', hstays, fun h => ?_, fun h => ?_, fun h => ?_⟩
              · cases h
              · cases h
                exact ⟨hlive, .inl hfinish⟩
              · cases h
                exact hplain.args _ hfinish
          | register base =>
              rw [hfinish] at hkeeps
              have hnew := fresh_context? hr
              have hkept {id : ContextId} {d : Context}
                  (hd : (r.continueWith root p.context).context? id = some d) :
                  (finished (r.continueWith root p.context) (.register base)).2.context? id =
                    some d := by
                simp only [finished, Recorder.context?, List.lookup_append] at hd ⊢
                rw [hd, Option.some_or]
              refine ⟨hkeeps.sound, fun entry hentry => ?_,
                hstays.trans ⟨rfl, fun _ => hkept, Nat.le_succ _⟩, fun h => ?_, fun h => ?_,
                fun h => ?_⟩
              · rcases List.mem_append.mp hentry with hold | hlast
                · exact hpending' entry hold
                · rw [List.mem_singleton.mp hlast]
                  exact fun _ hargs => absurd hargs List.not_mem_nil
              · cases h
              · cases h
                refine ⟨hkept hlive, .inr ⟨base, hfinish, rfl, ?_, rfl⟩⟩
                have hmissing : (r.continueWith root p.context).context? r.nextContext = none := by
                  rw [context?_continueWith]
                  split
                  · rename_i heq
                    rw [← heq, hnew]
                    rfl
                  · exact hnew
                simp only [finished, Recorder.context?, List.lookup_append] at hmissing ⊢
                rw [nextContext_continueWith, hmissing]
                simp
              · cases h
          | fail e =>
              rw [hfinish] at hkeeps
              refine ⟨hkeeps.sound, hpending', hstays.trans (stays_fail _ e), fun h _ => ?_,
                fun h => ?_, fun h => ?_⟩
              · cases h
                exact hfinish
              · cases h
              · cases h

end Operation

end TraceLoom
