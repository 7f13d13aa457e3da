import TraceLoom.Proofs.Recorder.Edit

/-!
Operations as plans: which change an operation makes to the innermost open list, and what becomes
of its context.  A plan depends on the context only; the trace decides whether the change can be
made.  On sound recorders operations do what they plan.
-/

namespace TraceLoom

open Trace

/-- What can follow a statement that was just recorded. -/
def Trace.followers (t : Trace) : List Trace :=
  if t.isBreak then [] else [.hole]

theorem Trace.eq_hole_of_mem_followers {t u : Trace} (h : u ∈ t.followers) : u = .hole := by
  unfold followers at h
  split at h <;> simp_all

/-- How an operation ends once its change is made. -/
inductive Finish where
  | give (out : Operation.Outcome)
  /-- Gives a new context with this base. -/
  | register (base : Path)
  | fail (error : TraceError)

structure Plan where
  /-- The change and the frame of its list. -/
  edit : Option (Frame × Edit)
  /-- The context if the change cannot be made. -/
  refused : Context
  context : Context
  finish : Finish

namespace Plan

/-- The trace after the change of a plan. -/
def edited (p : Plan) (root : List Trace) : Except TraceError (List Trace) :=
  match p.edit with
  | none => .ok root
  | some (f, e) =>
      match blockAt? f.path root with
      | none => .error .danglingPath
      | some b => (e.apply f.cursor b).map (replaceAt f.path · root)

def finished (r : Recorder) : Finish → Except TraceError Operation.Outcome × Recorder
  | .give out => (.ok out, r)
  | .register base =>
      (.ok (.context r.nextContext), { r with
        nextContext := r.nextContext + 1
        contexts := r.contexts ++ [(r.nextContext, Context.idle base)] })
  | .fail error => (.error error, { r with failure := some error })

/-- Carries a plan out on a usable recorder. -/
def carryOut (p : Plan) (r : Recorder) : Except TraceError Operation.Outcome × Recorder :=
  match p.edited r.root with
  | .error error =>
      (.error error, { r.continueWith r.root p.refused with failure := some error })
  | .ok root => finished (r.continueWith root p.context) p.finish

/-- The plan of an operation that is refused whatever was recorded. -/
def refuse (c : Context) (error : TraceError) : Plan :=
  ⟨none, c, c, .fail error⟩

/-- The plan of an operation that does not change the trace. -/
def pass (c : Context) (d : Context) (out : Operation.Outcome) : Plan :=
  ⟨none, c, d, .give out⟩

/-- The plan to record a statement, with what becomes of the frames and of the pending calls. -/
def statement (c : Context) (t : Trace) (pending : List (List Trace))
    (frames : Frame → List Frame → List Frame) (finish : Frame → List Frame → Finish) : Plan :=
  match c.frames with
  | [] => refuse c .noOpenBlock
  | f :: fs => ⟨some (f, .record t t.followers), c, ⟨c.base, frames f fs, pending⟩, finish f fs⟩

def passed (f : Frame) (fs : List Frame) : List Frame :=
  f.next :: fs

def entered (part : Part) (scope : Scope) (f : Frame) (fs : List Frame) : List Frame :=
  f.inside part scope :: f.next :: fs

def iterate (c : Context) : Plan :=
  match c.frames with
  | [] => refuse c .noOpenBlock
  | f :: fs =>
      match f.scope with
      | .loop iterating =>
          { edit := if iterating then some (f, .close) else none
            refused := c
            context := { c with frames := { f with cursor := 0, scope := .loop true } :: fs }
            finish := .give .done }
      | other => refuse c (.scopeMismatch "loop" other.describe)

def breakTo (c : Context) (n : String) (t : Trace) : Plan :=
  statement c (.breakTo n t) c.pending
    (fun f fs => (Recording.unwind n (f.next :: fs)).getD [])
    fun f fs => if (Recording.unwind n (f.next :: fs)).isSome then .give .done
      else .fail (.labelNotOpen n)

def enterBody (c : Context) (n : String) (arity : Nat) : Plan :=
  if arity > Recorder.maxArity then refuse c (.arity arity Recorder.maxArity)
  else match c.pending with
    | [] => refuse c .noPendingArgs
    | args :: rest =>
        statement { c with pending := rest } (.label n [.hole]) rest (entered .body (.label n))
          fun _ _ => .give <| .args <|
            args.take (arity + 1) ++ List.replicate (arity + 1 - args.length) .undefined

def popArgs (c : Context) : Plan :=
  match c.pending with
  | [] => refuse c .noPendingArgs
  | args :: rest => pass c { c with pending := rest } (.args args)

def exit (c : Context) : Plan :=
  match c.frames with
  | [] => refuse c .exitPastTop
  | f :: fs =>
      { edit := if f.scope = .loop false then none else some (f, .close)
        refused := { c with frames := fs }
        context := { c with frames := fs }
        finish := .give .done }

end Plan

namespace Operation

open Plan (passed entered)

/-- What an operation does in a context; nothing for operations that change contexts. -/
def plan? (c : Context) : Operation → Option Plan
  | restart => some (.pass c c.restart .done)
  | bind n t => some (.statement c (.bind n t) c.pending passed fun _ _ => .give .done)
  | assign x t => some (.statement c (.assign x t) c.pending passed fun _ _ => .give .done)
  | primitive event ts =>
      some (.statement c (.primitive event ts) c.pending passed fun _ _ => .give .done)
  | branch taken test =>
      some (.statement c (.ifElse test [.hole] [.hole]) c.pending
        (entered (if taken then .whenTrue else .whenFalse) .block) fun _ _ => .give .done)
  | loop test =>
      some (.statement c (.whileDo test [.hole]) c.pending (entered .body (.loop false))
        fun _ _ => .give .done)
  | iterate => some (.iterate c)
  | label n =>
      some (.statement c (.label n [.hole]) c.pending (entered .body (.label n))
        fun _ _ => .give .done)
  | breakTo n t => some (.breakTo c n t)
  | call n args =>
      some (.statement c (.bind n (.block [.hole])) (args :: c.pending) (entered .bound .call)
        fun _ _ => .give .done)
  | enterBody n arity => some (.enterBody c n arity)
  | pushArgs args => some (.pass c { c with pending := args :: c.pending } .done)
  | popArgs => some (.popArgs c)
  | callback event arg params record =>
      some (.statement c (.callback event arg params record [.hole]) c.pending passed
        fun f _ => .register (f.path ++ [⟨f.cursor, .body⟩]))
  | exit => some (.exit c)
  | switchTo _ => none
  | release _ => none

end Operation

namespace Plan

theorem carryOut_refuse {r : Recorder} {c : Context} (hr : r.Sound)
    (hc : r.context? r.active = some c) (e : TraceError) :
    (refuse c e).carryOut r = (.error e, { r with failure := some e }) := by
  simp [refuse, carryOut, edited, finished, Recorder.continueWith_self hr.distinct hc]

theorem carryOut_continueWith (p : Plan) (r : Recorder) (c : Context) :
    p.carryOut (r.continueWith r.root c) = p.carryOut r := by
  simp [carryOut]

end Plan

namespace Operation

def expressions : Operation → List Trace
  | bind _ t => [t]
  | assign x t => x.exps ++ [t]
  | primitive _ ts => ts
  | branch _ t => [t]
  | loop t => [t]
  | breakTo _ t => [t]
  | call _ ts => ts
  | pushArgs ts => ts
  | callback _ arg _ record => [arg, record]
  | _ => []

def Plain (op : Operation) : Prop :=
  ∀ t ∈ op.expressions, Trace.Plain t

instance (op : Operation) : Decidable op.Plain :=
  inferInstanceAs (Decidable (∀ t ∈ op.expressions, Trace.Plain t))

def statement? : Operation → Option Trace
  | bind n t => some (.bind n t)
  | assign x t => some (.assign x t)
  | primitive event ts => some (.primitive event ts)
  | branch _ test => some (.ifElse test [.hole] [.hole])
  | loop test => some (.whileDo test [.hole])
  | label n => some (.label n [.hole])
  | breakTo n t => some (.breakTo n t)
  | call n _ => some (.bind n (.block [.hole]))
  | enterBody n _ => some (.label n [.hole])
  | callback event arg params record => some (.callback event arg params record [.hole])
  | _ => none

end Operation

/-- A statement as it is recorded: plain but for statement lists that have only begun. -/
structure Trace.Begun (t : Trace) : Prop where
  tidy : Tidy t
  openBodies : every hasOpenBodies t = true
  ne_hole : t ≠ hole

theorem Trace.begun_of_parts {t : Trace} (hne : t ≠ .hole)
    (hexps : ∀ s ∈ t.parts.exps, Trace.Plain s ∨ s = .block [.hole])
    (hbodies : ∀ b ∈ t.parts.bodies, b = [.hole]) (hfields : t.parts.fields = []) : t.Begun := by
  have hexp : ∀ s ∈ t.parts.exps,
      s.isEnding = false ∧ Tidy s ∧ every hasOpenBodies s = true := by
    intro s hs
    rcases hexps s hs with hs | rfl
    · exact ⟨hs.isEnding, hs.tidy, hs.hasOpenBodies⟩
    · decide
  have hchild : ∀ s ∈ t.children, Tidy s ∧ every hasOpenBodies s = true := by
    intro s hs
    simp only [children, List.mem_append, List.mem_flatten, hfields, List.map_nil,
      List.not_mem_nil, or_false] at hs
    rcases hs with hs | ⟨b, hb, hs⟩
    · exact (hexp s hs).2
    · rw [hbodies b hb, List.mem_singleton] at hs
      subst hs
      decide
  refine ⟨every_eq_true_iff.mpr ⟨?_, fun s hs => (hchild s hs).1⟩,
    every_eq_true_iff.mpr ⟨?_, fun s hs => (hchild s hs).2⟩, hne⟩
  · simp only [isTidy, hasDistinctKeys, hfields, Bool.and_eq_true, List.all_eq_true]
    refine ⟨⟨⟨rfl, fun s hs => ?_⟩, fun b hb => ?_⟩, by simp⟩
    · simp [(hexp s hs).1]
    · rw [hbodies b hb]
      rfl
  · refine List.all_eq_true.mpr fun b hb => ?_
    rw [hbodies b hb]
    rfl

namespace Operation

open Recording Recorder
open Plan (passed entered carryOut_refuse)

theorem Plain.begun {op : Operation} {t : Trace} (h : op.Plain) (ht : op.statement? = some t) :
    t.Begun := by
  have hplain : ∀ s ∈ op.expressions, Trace.Plain s := h
  cases op <;> cases ht <;>
    exact begun_of_parts (by simp) (by simp_all [parts, expressions]) (by simp [parts]) rfl

variable {r : Recorder} {c : Context} {f : Frame} {fs : List Frame} {b : List Trace}

theorem run_guarded_map {α : Type} (m : Recording α) (out : α → Outcome)
    (hr : r.failure = none) :
    run (do return out (← guarded m)) r =
      match run m r with
      | (.ok a, r') => (.ok (out a), r')
      | (.error e, r') => (.error e, { r' with failure := some e }) := by
  rw [run_bind, run_guarded, hr]
  dsimp only
  rcases run m r with ⟨x, r'⟩
  cases x <;> rfl

theorem exists_block (hr : r.Sound) (hc : r.context? r.active = some c)
    (hf : f ∈ c.frames) : ∃ b, blockAt? f.path r.root = some b ∧ Tidy (block b) := by
  obtain ⟨b, hb, -⟩ := (hr.contexts _ (mem_of_context? hc)).stands f hf
  exact ⟨b, hb, isLocal_isTidy.every_blockAt? hr.tidy hb⟩

/-- An operation that records a statement does what it plans if its steps do. -/
theorem run_statement {α : Type} {m : Recording α} {out : α → Outcome} {a : α} {t : Trace}
    {pending : List (List Trace)} {frames : Frame → List Frame → List Frame}
    (hr : r.Sound) (hfailure : r.failure = none) (hc : r.context? r.active = some c)
    (hnil : c.frames = [] → run m r = (.error .noOpenBlock, r))
    (hcons : ∀ f fs b, c.frames = f :: fs → blockAt? f.path r.root = some b → Tidy (block b) →
      run m r =
        match (Edit.record t t.followers).apply f.cursor b with
        | .error e => (.error e, r)
        | .ok b' => (.ok a,
            r.continueWith (replaceAt f.path b' r.root) ⟨c.base, frames f fs, pending⟩)) :
    run (do return out (← guarded m)) r =
      (Plan.statement c t pending frames fun _ _ => .give (out a)).carryOut r := by
  rw [run_guarded_map m out hfailure]
  unfold Plan.statement
  cases hframes : c.frames with
  | nil => rw [hnil hframes, carryOut_refuse hr hc]
  | cons f fs =>
      obtain ⟨b, hb, htidy⟩ := exists_block hr hc (f := f) (by simp [hframes])
      rw [hcons f fs b hframes hb htidy]
      simp only [Plan.carryOut, Plan.edited, hb]
      cases (Edit.record t t.followers).apply f.cursor b with
      | error e => simp [Except.map, continueWith_self hr.distinct hc]
      | ok b' => rfl

theorem run_passed {t : Trace} (hc : r.context? r.active = some c)
    (ht : every hasOpenBodies t = true) (hbreak : t.isBreak = false) (hf : c.frames = f :: fs)
    (hb : blockAt? f.path r.root = some b) (htidy : Tidy (block b)) :
    run (do let _ ← step t) r =
      match (Edit.record t t.followers).apply f.cursor b with
      | .error e => (.error e, r)
      | .ok b' => (.ok ⟨⟩,
          r.continueWith (replaceAt f.path b' r.root) ⟨c.base, passed f fs, c.pending⟩) := by
  rw [run_bind, run_step hc hf hb htidy ht, followers, if_neg (by simp [hbreak])]
  cases (Edit.record t [hole]).apply f.cursor b <;> rfl

theorem run_passed_nil (hc : r.context? r.active = some c) (hf : c.frames = []) (t : Trace) :
    run (do let _ ← step t) r = (.error .noOpenBlock, r) := by
  rw [run_bind, run_step_nil hc hf]

theorem run_entered {t : Trace} (hc : r.context? r.active = some c)
    (ht : every hasOpenBodies t = true) (hbreak : t.isBreak = false) (part : Part) (scope : Scope)
    (hf : c.frames = f :: fs) (hb : blockAt? f.path r.root = some b) (htidy : Tidy (block b)) :
    run (enter t part scope) r =
      match (Edit.record t t.followers).apply f.cursor b with
      | .error e => (.error e, r)
      | .ok b' => (.ok ⟨⟩, r.continueWith (replaceAt f.path b' r.root)
          ⟨c.base, entered part scope f fs, c.pending⟩) := by
  rw [run_enter hc hf hb htidy ht, followers, if_neg (by simp [hbreak])]
  rfl

theorem run_entered_nil (hc : r.context? r.active = some c) (hf : c.frames = []) (t : Trace)
    (part : Part) (scope : Scope) : run (enter t part scope) r = (.error .noOpenBlock, r) := by
  rw [enter, run_bind, run_step_nil hc hf]

theorem isBreak_of_mergeIn {t u : Trace} (h : (mergeIn t u).mismatch = none) (ht : t ≠ hole)
    (hu : u.isBreak = true) : t.isBreak = true := by
  cases u <;> simp [isBreak] at hu
  cases t <;> first | rfl | exact absurd rfl ht | simp [mergeIn, Merged.stopped] at h

theorem run_iterate (hr : r.Sound) (hfailure : r.failure = none)
    (hc : r.context? r.active = some c) : run iterate.perform r = (Plan.iterate c).carryOut r := by
  refine (run_guarded_map _ (fun _ => .done) hfailure).trans ?_
  unfold Plan.iterate
  cases hframes : c.frames with
  | nil => rw [run_bind, run_topFrame_nil hc hframes, carryOut_refuse hr hc]
  | cons f fs =>
      obtain ⟨b, hb, htidy⟩ := exists_block hr hc (f := f) (by simp [hframes])
      rw [run_bind, run_topFrame hc hframes]
      dsimp only
      cases f.scope with
      | loop iterating =>
          cases iterating with
          | false => simp [run_setTop hc, hframes, Plan.carryOut, Plan.edited, Plan.finished]
          | true =>
              simp only [if_true, run_bind, run_close hb htidy, Plan.carryOut, Plan.edited, hb]
              cases Edit.close.apply f.cursor b with
              | error e => simp [Except.map, continueWith_self hr.distinct hc]
              | ok b' =>
                  dsimp only [Except.map]
                  rw [run_setTop (r := { r with root := replaceAt f.path b' r.root }) hc, hframes]
                  rfl
      | _ => rw [carryOut_refuse hr hc]; rfl

theorem run_breakTo {n : String} {t : Trace} (hr : r.Sound) (hop : (breakTo n t).Plain)
    (hfailure : r.failure = none) (hc : r.context? r.active = some c) :
    run (breakTo n t).perform r = (Plan.breakTo c n t).carryOut r := by
  refine (run_guarded_map _ (fun _ => .done) hfailure).trans ?_
  unfold Plan.breakTo Plan.statement
  cases hframes : c.frames with
  | nil => rw [run_bind, run_step_nil hc hframes, carryOut_refuse hr hc]
  | cons f fs =>
      obtain ⟨b, hb, htidy⟩ := exists_block hr hc (f := f) (by simp [hframes])
      have hlive (root : List Trace) :=
        run_context (context?_active_continueWith hc root ⟨c.base, f.next :: fs, c.pending⟩)
      rw [run_bind, run_step hc hframes hb htidy (hop.begun rfl).openBodies]
      simp only [Plan.carryOut, Plan.edited, hb, Edit.apply, followers, isBreak, if_true]
      cases hold : b[f.cursor]? with
      | none => simp [Except.map, continueWith_self hr.distinct hc]
      | some old =>
          by_cases hhole : old = hole
          · subst hhole
            have hlength := length_of_isEnding (tidy_block_iff.mp htidy).1 hold rfl
            simp only [isHole, if_true]
            rw [run_bind, run_blockAt (blockAt?_replaceAt hb _)]
            have hnext : (b.take f.cursor ++ [.breakTo n t, hole])[f.cursor + 1]? = some hole := by
              simp [hlength]
            have hnextLength : (b.take f.cursor ++ [.breakTo n t, hole]).length = f.cursor + 2 := by
              simp [hlength]
            have htake : (b.take f.cursor ++ [.breakTo n t, hole]).take (f.cursor + 1) =
                b.take f.cursor ++ [.breakTo n t] := by
              simp [List.take_append, List.take_take, hlength]
            simp only [hnext, hnextLength, htake, if_true]
            rw [run_bind, run_setBlock_continueWith, replaceAt_replaceAt hb]
            dsimp only
            rw [run_bind, hlive]
            dsimp only
            cases unwind n (f.next :: fs) <;>
              simp [Plan.finished, Except.map, run_setContext, run_bind]
          · simp only [isHole_eq_true_iff, hhole, if_false]
            cases hmerge : (mergeIn old (.breakTo n t)).mismatch with
            | some m => simp [Except.map, continueWith_self hr.distinct hc]
            | none =>
                have hbreak : old.isBreak = true := isBreak_of_mergeIn hmerge hhole rfl
                have hlength := length_of_isEnding (tidy_block_iff.mp htidy).1 hold
                  (by simp [isEnding, hbreak])
                dsimp only
                rw [run_bind, run_blockAt (blockAt?_replaceAt hb _)]
                have hnext : b[f.cursor + 1]? = none := by
                  simp [hlength]
                simp only [hnext]
                rw [run_bind, hlive]
                dsimp only
                cases unwind n (f.next :: fs) <;>
                  simp [Plan.finished, Except.map, run_setContext, run_bind]

theorem run_call {n : String} {args : List Trace} (hr : r.Sound) (hop : (call n args).Plain)
    (hfailure : r.failure = none) (hc : r.context? r.active = some c) :
    run (call n args).perform r =
      (Plan.statement c (.bind n (.block [.hole])) (args :: c.pending) (entered .bound .call)
        fun _ _ => .give .done).carryOut r := by
  refine run_statement (a := ⟨⟩) hr hfailure hc (fun hf => ?_) fun f fs b hf hb htidy => ?_
  · rw [run_bind, run_entered_nil hc hf]
  · rw [run_bind, run_entered hc (hop.begun rfl).openBodies rfl _ _ hf hb htidy]
    cases (Edit.record (.bind n (.block [.hole])) _).apply f.cursor b with
    | error e => rfl
    | ok b' =>
        dsimp only
        rw [run_bind, run_context (context?_active_continueWith hc _ _)]
        simp [run_setContext]

theorem run_enterBody {n : String} {arity : Nat} (hr : r.Sound) (hop : (enterBody n arity).Plain)
    (hfailure : r.failure = none) (hc : r.context? r.active = some c) :
    run (enterBody n arity).perform r = (Plan.enterBody c n arity).carryOut r := by
  refine (run_guarded_map _ .args hfailure).trans ?_
  unfold Plan.enterBody
  by_cases harity : arity > maxArity
  · rw [if_pos harity, if_pos harity, carryOut_refuse hr hc]
    rfl
  · simp only [harity, if_false]
    rw [run_bind, run_popPending hc]
    cases hpending : c.pending with
    | nil => rw [carryOut_refuse hr hc]
    | cons args rest =>
        have hcontext := hr.contexts _ (mem_of_context? hc)
        have hr' : (r.continueWith r.root { c with pending := rest }).Sound :=
          hr.continueWith hc hr.tidy hr.contexts ⟨hcontext.base, hcontext.stands, hcontext.nested⟩
            rfl
        have hc' := context?_active_continueWith hc r.root { c with pending := rest }
        have hfailure' : (r.continueWith r.root { c with pending := rest }).failure = none :=
          hfailure
        dsimp only
        rw [← Plan.carryOut_continueWith _ r { c with pending := rest }]
        refine Eq.trans (run_guarded_map _ .args hfailure').symm
          (run_statement hr' hfailure' hc' (fun hf => ?_) fun f fs b hf hb htidy => ?_)
        · rw [run_bind, openLabel, run_entered_nil hc' hf]
        · rw [run_bind, openLabel, run_entered hc' (hop.begun rfl).openBodies rfl _ _ hf hb htidy]
          cases (Edit.record (.label n [hole]) _).apply f.cursor b <;> rfl

theorem run_callback {event : String} {arg record : Trace} {params : List String} (hr : r.Sound)
    (hop : (callback event arg params record).Plain) (hfailure : r.failure = none)
    (hc : r.context? r.active = some c) :
    run (callback event arg params record).perform r =
      (Plan.statement c (.callback event arg params record [hole]) c.pending passed
        fun f _ => .register (f.path ++ [⟨f.cursor, .body⟩])).carryOut r := by
  refine (run_guarded_map _ .context hfailure).trans ?_
  unfold Plan.statement
  cases hframes : c.frames with
  | nil => rw [run_bind, run_step_nil hc hframes, carryOut_refuse hr hc]
  | cons f fs =>
      obtain ⟨b, hb, htidy⟩ := exists_block hr hc (f := f) (by simp [hframes])
      rw [run_bind, run_step hc hframes hb htidy (hop.begun rfl).openBodies]
      simp only [Plan.carryOut, Plan.edited, hb, followers, isBreak, Bool.false_eq_true, if_false]
      cases (Edit.record (.callback event arg params record [hole]) [hole]).apply f.cursor b with
      | error e => simp [Except.map, continueWith_self hr.distinct hc]
      | ok b' => rfl

theorem run_exit (hr : r.Sound) (hfailure : r.failure = none)
    (hc : r.context? r.active = some c) : run exit.perform r = (Plan.exit c).carryOut r := by
  refine (run_guarded_map _ (fun _ => .done) hfailure).trans ?_
  unfold Plan.exit
  rw [run_bind, run_context hc]
  dsimp only
  cases hframes : c.frames with
  | nil =>
      rw [carryOut_refuse hr hc]
      rfl
  | cons f fs =>
      obtain ⟨b, hb, htidy⟩ := exists_block hr hc (f := f) (by simp [hframes])
      have hclose := run_close (r := r.continueWith r.root { c with frames := fs }) hb htidy
      dsimp only
      rw [run_bind, run_setContext]
      simp only [Plan.carryOut, Plan.edited]
      by_cases hscope : f.scope = .loop false
      · simp [hscope, Plan.finished]
      · simp only [hscope, if_false, hb]
        rw [hclose]
        cases Edit.close.apply f.cursor b <;> rfl

/-- On a sound recorder that is usable, an operation does what it plans. -/
theorem run_perform {op : Operation} {p : Plan} (hr : r.Sound) (hop : op.Plain)
    (hfailure : r.failure = none) (hc : r.context? r.active = some c)
    (hp : op.plan? c = some p) : run op.perform r = p.carryOut r := by
  have hopen : ∀ {t : Trace}, op.statement? = some t → every hasOpenBodies t = true :=
    fun ht => (hop.begun ht).openBodies
  have hpass : ∀ {t : Trace}, op.statement? = some t → t.isBreak = false →
      run (do let _ ← guarded (do let _ ← step t); return .done) r =
        (Plan.statement c t c.pending passed fun _ _ => .give .done).carryOut r :=
    fun ht hbreak => run_statement hr hfailure hc (fun hf => run_passed_nil hc hf _)
      fun _ _ _ => run_passed hc (hopen ht) hbreak
  have henter : ∀ {t : Trace} part scope, op.statement? = some t → t.isBreak = false →
      run (do let _ ← guarded (enter t part scope); return .done) r =
        (Plan.statement c t c.pending (entered part scope) fun _ _ => .give .done).carryOut r :=
    fun part scope ht hbreak => run_statement hr hfailure hc
      (fun hf => run_entered_nil hc hf _ _ _)
      fun _ _ _ => run_entered hc (hopen ht) hbreak part scope
  suffices hsuffices : some (run op.perform r) = (op.plan? c).map (·.carryOut r) by
    rw [hp] at hsuffices
    exact Option.some.inj hsuffices
  cases op with
  | restart =>
      refine congrArg some ((run_guarded_map _ (fun _ => .done) hfailure).trans ?_)
      rw [run_bind, run_context hc]
      rfl
  | bind n t => exact congrArg some (hpass rfl rfl)
  | assign x t => exact congrArg some (hpass rfl rfl)
  | primitive event ts => exact congrArg some (hpass rfl rfl)
  | branch taken test => exact congrArg some (henter _ _ rfl rfl)
  | loop test => exact congrArg some (henter _ _ rfl rfl)
  | iterate => exact congrArg some (run_iterate hr hfailure hc)
  | label n => exact congrArg some (henter _ _ rfl rfl)
  | breakTo n t => exact congrArg some (run_breakTo hr hop hfailure hc)
  | call n args => exact congrArg some (run_call hr hop hfailure hc)
  | enterBody n arity => exact congrArg some (run_enterBody hr hop hfailure hc)
  | pushArgs args =>
      refine congrArg some ((run_guarded_map _ (fun _ => .done) hfailure).trans ?_)
      rw [run_bind, run_context hc]
      rfl
  | popArgs =>
      refine congrArg some ((run_guarded_map _ .args hfailure).trans ?_)
      rw [run_popPending hc, Plan.popArgs]
      cases c.pending with
      | nil => exact (carryOut_refuse hr hc _).symm
      | cons args rest => rfl
  | callback event arg params record => exact congrArg some (run_callback hr hop hfailure hc)
  | exit => exact congrArg some (run_exit hr hfailure hc)
  | switchTo id => cases hp
  | release id => cases hp

end Operation

end TraceLoom
