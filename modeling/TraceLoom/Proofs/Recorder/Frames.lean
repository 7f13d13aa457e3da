import TraceLoom.Proofs.Recorder.Discipline

/-!
What operations make of the open statement lists, where these are as the operations need them.
-/

namespace TraceLoom

open Recording

/-- Of the open lists the innermost has gone on; the others are as they were. -/
inductive Advances : List Frame → List Frame → Prop
  | intro (f : Frame) (fs : List Frame) (cursor : Nat) : Advances (f :: fs) ({ f with cursor } :: fs)

namespace Advances

variable {frames frames' frames'' : List Frame}

theorem refl (h : frames ≠ []) : Advances frames frames := by
  cases frames with
  | nil => exact absurd rfl h
  | cons f fs => exact .intro f fs f.cursor

theorem trans (h : Advances frames frames') (h' : Advances frames' frames'') :
    Advances frames frames'' := by
  cases h with
  | intro f fs cursor =>
      cases h' with
      | intro _ _ cursor' => exact .intro f fs cursor'

theorem next (f : Frame) (fs : List Frame) : Advances (f :: fs) (f.next :: fs) :=
  .intro f fs _

theorem ne_nil (h : Advances frames frames') : frames' ≠ [] := by
  cases h
  exact List.cons_ne_nil _ _

theorem unwind_eq (h : Advances frames frames') (name : String) :
    unwind name frames' = unwind name frames := by
  cases h
  rfl

end Advances

/-- In the innermost list another one was opened. -/
structure Opens (scope : Scope) (frames frames' : List Frame) : Prop where
  intro ::
  exists_cons : ∃ top rest, frames' = top :: rest ∧ top.scope = scope ∧ Advances frames rest

namespace Opens

variable {scope : Scope} {frames frames' frames'' : List Frame} {name : String}

theorem inside (f : Frame) (fs : List Frame) (part : Part) (scope : Scope) :
    Opens scope (f :: fs) (f.inside part scope :: f.next :: fs) :=
  ⟨_, _, rfl, rfl, .next f fs⟩

theorem ne_nil (h : Opens scope frames frames') : frames' ≠ [] := by
  obtain ⟨top, rest, rfl, -⟩ := h
  exact List.cons_ne_nil _ _

theorem advances (h : Opens scope frames frames') (h' : Advances frames' frames'') :
    Opens scope frames frames'' := by
  obtain ⟨top, rest, rfl, htop, hrest⟩ := h
  cases h' with
  | intro _ _ cursor => exact ⟨_, rest, rfl, htop, hrest⟩

/-- A list that is no body of the label stays open until what is around it is left. -/
theorem unwind_eq (h : Opens scope frames frames') (hscope : scope ≠ .label name) :
    unwind name frames' = unwind name frames := by
  obtain ⟨top, rest, rfl, rfl, hrest⟩ := h
  rw [unwind, if_neg hscope, hrest.unwind_eq]

theorem unwind_self (h : Opens (.label name) frames frames') :
    ∃ rest, unwind name frames' = some rest ∧ Advances frames rest := by
  obtain ⟨top, rest, rfl, htop, hrest⟩ := h
  exact ⟨rest, by rw [unwind, if_pos htop], hrest⟩

end Opens

namespace Operation

/-- With lists that are open in this way, an operation is not out of order, and if it succeeds it
leaves lists open in another way. -/
def Leads (op : Operation) (frames : List Frame) (Q : List Frame → Prop) : Prop :=
  ∀ c : Context, c.frames = frames → ∀ p, op.plan? c = some p →
    (∀ e, p.finish = .fail e → ¬ e.IsMisuse) ∧ ((∀ e, p.finish ≠ .fail e) → Q p.context.frames)

variable {f : Frame} {fs : List Frame} {Q : List Frame → Prop}

theorem Leads.imp {op : Operation} {frames : List Frame} {Q' : List Frame → Prop}
    (h : op.Leads frames Q) (himp : ∀ frames, Q frames → Q' frames) : op.Leads frames Q' :=
  fun c hc p hp => ⟨(h c hc p hp).1, fun hfinish => himp _ ((h c hc p hp).2 hfinish)⟩

/-- A statement that is recorded. -/
theorem leads_statement {op : Operation} {t : Trace} {pending : Context → List (List Trace)}
    {frames : Frame → List Frame → List Frame} {finish : Frame → List Frame → Finish}
    (hplan : ∀ c, op.plan? c = some (.statement c t (pending c) frames finish))
    (hfinish : ∀ e, finish f fs ≠ .fail e) (hQ : Q (frames f fs)) : op.Leads (f :: fs) Q := by
  intro c hc p hp
  obtain rfl := Option.some.inj ((hplan c).symm.trans hp)
  simp only [Plan.statement, hc]
  exact ⟨fun e h => absurd h (hfinish e), fun _ => hQ⟩

section

variable {frames : List Frame} (h : frames ≠ [])

include h

theorem leads_bind (n : String) (t : Trace) : (bind n t).Leads frames (Advances frames) := by
  obtain ⟨f, fs, rfl⟩ := List.exists_cons_of_ne_nil h
  exact leads_statement (fun _ => rfl) nofun (.next f fs)

theorem leads_assign (x : Target) (t : Trace) : (assign x t).Leads frames (Advances frames) := by
  obtain ⟨f, fs, rfl⟩ := List.exists_cons_of_ne_nil h
  exact leads_statement (fun _ => rfl) nofun (.next f fs)

theorem leads_primitive (event : String) (ts : List Trace) :
    (primitive event ts).Leads frames (Advances frames) := by
  obtain ⟨f, fs, rfl⟩ := List.exists_cons_of_ne_nil h
  exact leads_statement (fun _ => rfl) nofun (.next f fs)

theorem leads_callback (event : String) (arg : Trace) (params : List String) (record : Trace) :
    (callback event arg params record).Leads frames (Advances frames) := by
  obtain ⟨f, fs, rfl⟩ := List.exists_cons_of_ne_nil h
  exact leads_statement (fun _ => rfl) nofun (.next f fs)

theorem leads_branch (taken : Bool) (t : Trace) :
    (branch taken t).Leads frames (Opens .block frames) := by
  obtain ⟨f, fs, rfl⟩ := List.exists_cons_of_ne_nil h
  exact leads_statement (fun _ => rfl) nofun (.inside f fs _ .block)

theorem leads_loop (t : Trace) : (loop t).Leads frames (Opens (.loop false) frames) := by
  obtain ⟨f, fs, rfl⟩ := List.exists_cons_of_ne_nil h
  exact leads_statement (fun _ => rfl) nofun (.inside f fs _ (.loop false))

theorem leads_label (n : String) : (label n).Leads frames (Opens (.label n) frames) := by
  obtain ⟨f, fs, rfl⟩ := List.exists_cons_of_ne_nil h
  exact leads_statement (fun _ => rfl) nofun (.inside f fs _ (.label n))

theorem leads_call (n : String) (ts : List Trace) :
    (call n ts).Leads frames (Opens .call frames) := by
  obtain ⟨f, fs, rfl⟩ := List.exists_cons_of_ne_nil h
  exact leads_statement (fun _ => rfl) nofun (.inside f fs _ .call)

theorem leads_enterBody {n : String} {arity : Nat} (harity : arity ≤ Recorder.maxArity) :
    (enterBody n arity).Leads frames (Opens (.label n) frames) := by
  obtain ⟨f, fs, rfl⟩ := List.exists_cons_of_ne_nil h
  intro c hc p hp
  cases hp
  rw [Plan.enterBody, if_neg (Nat.not_lt.mpr harity)]
  split
  · simp [Plan.refuse, TraceError.IsMisuse]
  · simpa [Plan.statement, hc, Plan.entered] using Opens.inside f fs .body (.label n)

end

theorem leads_breakTo {n : String} {frames frames' : List Frame}
    (h : unwind n frames = some frames') (t : Trace) : (breakTo n t).Leads frames (· = frames') := by
  cases frames with
  | nil => simp [unwind] at h
  | cons f fs =>
      have hnext : unwind n (f.next :: fs) = some frames' :=
        ((Advances.next f fs).unwind_eq n).trans h
      exact leads_statement (fun _ => rfl) (by simp [hnext]) (by simp [hnext])

theorem leads_iterate {iterating : Bool} {frames frames' : List Frame}
    (h : Opens (.loop iterating) frames frames') :
    iterate.Leads frames' (Opens (.loop true) frames) := by
  obtain ⟨top, rest, rfl, htop, hrest⟩ := h
  intro c hc p hp
  cases hp
  simp only [Plan.iterate, hc, htop]
  exact ⟨nofun, fun _ => ⟨_, rest, rfl, rfl, hrest⟩⟩

theorem leads_exit {scope : Scope} {frames frames' : List Frame}
    (h : Opens scope frames frames') : exit.Leads frames' (Advances frames) := by
  obtain ⟨top, rest, rfl, -, hrest⟩ := h
  intro c hc p hp
  cases hp
  simpa [Plan.exit, hc] using hrest

/-- The outermost list may be left, too. -/
theorem leads_exit_last {frames : List Frame} (h : frames ≠ []) :
    exit.Leads frames fun frames' => frames' = frames.tail := by
  obtain ⟨f, fs, rfl⟩ := List.exists_cons_of_ne_nil h
  intro c hc p hp
  cases hp
  simp [Plan.exit, hc]

theorem leads_restart (frames : List Frame) :
    restart.Leads frames fun frames' => ∃ f, frames' = [f] := by
  intro c _ p hp
  cases hp
  simp [Plan.pass, Context.restart]

theorem leads_pushArgs (ts : List Trace) (frames : List Frame) :
    (pushArgs ts).Leads frames (· = frames) := by
  rintro c rfl p hp
  cases hp
  simp [Plan.pass]

theorem leads_popArgs (frames : List Frame) : popArgs.Leads frames (· = frames) := by
  rintro c rfl p hp
  cases hp
  unfold Plan.popArgs
  split
  · simp [Plan.refuse, TraceError.IsMisuse]
  · simp [Plan.pass]

end Operation

end TraceLoom
