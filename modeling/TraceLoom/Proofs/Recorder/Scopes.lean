import TraceLoom.Proofs.Recorder.Growth

/-!
Where open lists come from.  An operation leaves lists open as they were, begins an iteration or
the context again, or opens a part of the statement it records.  So the statement around an open
list is of the kind that opened it, and none but a base lies directly in a callback.
-/

namespace TraceLoom

open Trace

/-- Whether a scope opens a part of statements with a head. -/
def Scope.Fits : Scope → Part → Head → Prop
  | .block, .whenTrue, .ifElse => True
  | .block, .whenFalse, .ifElse => True
  | .loop _, .body, .whileDo => True
  | .label n, .body, .label n' => n = n'
  | .call, .bound, .bind _ => True
  | _, _, _ => False

namespace Operation

/-- The part of its statement that an operation opens, and the scope of the new list. -/
def opens : Operation → Option (Part × Scope)
  | branch taken _ => some (if taken then .whenTrue else .whenFalse, .block)
  | loop _ => some (.body, .loop false)
  | label n => some (.body, .label n)
  | call _ _ => some (.bound, .call)
  | enterBody n _ => some (.body, .label n)
  | _ => none

theorem fits_of_opens {op : Operation} {part : Part} {scope : Scope}
    (h : op.opens = some (part, scope)) :
    ∃ t, op.statement? = some t ∧ scope.Fits part t.head := by
  cases op <;> simp only [opens, Option.some.injEq, Prod.mk.injEq, reduceCtorEq] at h
  case branch taken test =>
    obtain ⟨rfl, rfl⟩ := h
    exact ⟨_, rfl, by cases taken <;> exact trivial⟩
  all_goals
    obtain ⟨rfl, rfl⟩ := h
    exact ⟨_, rfl, by simp [Scope.Fits, head]⟩

/-- How a list comes to be open after an operation that went as planned. -/
inductive Origin (op : Operation) (c : Context) (p : Plan) : Frame → Prop
  | stayed {f g : Frame} (hf : f ∈ c.frames) (hpath : g.path = f.path) (hscope : g.scope = f.scope) :
      Origin op c p g
  | iterated {f : Frame} {fs : List Frame} {iterating : Bool} (hop : op = iterate)
      (hframes : c.frames = f :: fs) (hscope : f.scope = .loop iterating) :
      Origin op c p { f with cursor := 0, scope := .loop true }
  | restarted (hop : op = restart) : Origin op c p ⟨c.base, 0, .block⟩
  | entered {f : Frame} {fs : List Frame} {t : Trace} {part : Part} {scope : Scope}
      (hframes : c.frames = f :: fs) (hopens : op.opens = some (part, scope))
      (hedit : p.edit = some (f, .record t t.followers)) (ht : op.statement? = some t) :
      Origin op c p (f.inside part scope)

open Recording Plan

variable {op : Operation} {c : Context} {p : Plan}

theorem origin_of_mem {f g : Frame} {fs : List Frame} (hframes : c.frames = f :: fs)
    (hg : g ∈ f.next :: fs) : Origin op c p g := by
  rcases List.mem_cons.mp hg with rfl | hg
  · exact .stayed (f := f) (by simp [hframes]) rfl rfl
  · exact .stayed (f := g) (by simp [hframes, hg]) rfl rfl

theorem origin_refuse {d : Context} (hd : d.frames = c.frames) {e : TraceError} :
    ∀ g ∈ (refuse d e).context.frames, Origin op c p g :=
  fun _ hg => .stayed (hd ▸ hg) rfl rfl

/-- The lists that are open after a statement was recorded. -/
theorem origin_statement {d : Context} (hd : d.frames = c.frames) {t : Trace}
    {pending : List (List Trace)} {frames : Frame → List Frame → List Frame}
    {finish : Frame → List Frame → Finish} (ht : op.statement? = some t)
    (hframes : ∀ f fs, ∀ g ∈ frames f fs,
      g ∈ f.next :: fs ∨ ∃ part scope, op.opens = some (part, scope) ∧ g = f.inside part scope) :
    ∀ g ∈ (Plan.statement d t pending frames finish).context.frames,
      Origin op c (Plan.statement d t pending frames finish) g := by
  unfold Plan.statement
  cases hopen : d.frames with
  | nil => exact origin_refuse hd
  | cons f fs =>
      intro g hg
      rw [hd] at hopen
      rcases hframes f fs g hg with hg | ⟨part, scope, hopens, rfl⟩
      · exact origin_of_mem hopen hg
      · exact .entered hopen hopens rfl ht

theorem mem_of_passed (f : Frame) (fs : List Frame) :
    ∀ g ∈ passed f fs, g ∈ f.next :: fs ∨
      ∃ part scope, op.opens = some (part, scope) ∧ g = f.inside part scope :=
  fun _ hg => .inl hg

theorem mem_of_entered {part : Part} {scope : Scope} (h : op.opens = some (part, scope)) (f : Frame)
    (fs : List Frame) : ∀ g ∈ entered part scope f fs, g ∈ f.next :: fs ∨
      ∃ part scope, op.opens = some (part, scope) ∧ g = f.inside part scope := by
  intro g hg
  rcases List.mem_cons.mp hg with rfl | hg
  · exact .inr ⟨part, scope, h, rfl⟩
  · exact .inl hg

theorem origin_of_plan? (hp : op.plan? c = some p) :
    ∀ g ∈ p.context.frames, Origin op c p g := by
  have hsame : ∀ g ∈ c.frames, Origin op c p g := fun g hg => .stayed hg rfl rfl
  cases op <;> cases hp
  case restart =>
    intro g hg
    obtain rfl := List.mem_singleton.mp hg
    exact .restarted rfl
  case bind | assign | primitive | callback => exact origin_statement rfl rfl mem_of_passed
  case branch | loop | label | call => exact origin_statement rfl rfl (mem_of_entered rfl)
  case pushArgs => exact hsame
  case iterate =>
    unfold Plan.iterate
    cases hframes : c.frames with
    | nil => exact origin_refuse rfl
    | cons f fs =>
        dsimp only
        cases hscope : f.scope with
        | loop iterating =>
            intro g hg
            rcases List.mem_cons.mp hg with rfl | hg
            · exact .iterated rfl hframes hscope
            · exact .stayed (f := g) (by simp [hframes, hg]) rfl rfl
        | _ => exact origin_refuse rfl
  case breakTo n t =>
    refine origin_statement rfl rfl fun f fs g hg => .inl ?_
    cases hunwind : unwind n (f.next :: fs) with
    | none => simp [hunwind] at hg
    | some rest =>
        rw [hunwind] at hg
        exact (suffix_of_unwind hunwind).subset hg
  case enterBody n arity =>
    unfold Plan.enterBody
    split
    · exact origin_refuse rfl
    · split
      · exact origin_refuse rfl
      · rename_i rest _
        exact origin_statement (c := c) (d := { c with pending := rest }) rfl rfl (mem_of_entered rfl)
  case popArgs =>
    unfold Plan.popArgs
    split
    · exact origin_refuse rfl
    · exact fun g hg => .stayed (f := g) hg rfl rfl
  case exit =>
    unfold Plan.exit
    cases hframes : c.frames with
    | nil => exact origin_refuse rfl
    | cons f fs => exact fun g hg => .stayed (f := g) (by simp [hframes, show g ∈ fs from hg]) rfl rfl

/-- What becomes of the context itself, and the base of a new one. -/
structure Planned (op : Operation) (c : Context) (p : Plan) : Prop where
  base : p.context.base = c.base
  refusedBase : p.refused.base = c.base
  refused : p.refused.frames ⊆ c.frames
  register : ∀ base, p.finish = .register base →
    ∃ f fs event arg params record, c.frames = f :: fs ∧
      op = callback event arg params record ∧ base = f.path ++ [⟨f.cursor, .body⟩] ∧
      p.edit = some (f, .record (.callback event arg params record [hole]) [hole])

theorem planned_refuse {d : Context} (hbase : d.base = c.base) (hd : d.frames = c.frames)
    (e : TraceError) : Planned op c (refuse d e) :=
  ⟨hbase, hbase, fun _ hf => hd ▸ hf, nofun⟩

theorem planned_pass {d : Context} (hbase : d.base = c.base) {out : Outcome} :
    Planned op c (pass c d out) :=
  ⟨hbase, rfl, List.Subset.refl _, nofun⟩

theorem planned_statement {d : Context} (hbase : d.base = c.base) (hd : d.frames = c.frames)
    {t : Trace} {pending : List (List Trace)} {frames : Frame → List Frame → List Frame}
    {finish : Frame → List Frame → Finish} (hfinish : ∀ f fs base, finish f fs ≠ .register base) :
    Planned op c (Plan.statement d t pending frames finish) := by
  unfold Plan.statement
  split
  · exact planned_refuse hbase hd _
  · exact ⟨hbase, hbase, fun _ hf => hd ▸ hf, fun base h => absurd h (hfinish _ _ base)⟩

theorem planned_of_plan? (hp : op.plan? c = some p) : Planned op c p := by
  cases op <;> cases hp
  case restart | pushArgs => exact planned_pass (by rfl)
  case bind | assign | primitive | branch | loop | label | call =>
    exact planned_statement rfl rfl nofun
  case breakTo =>
    refine planned_statement rfl rfl fun f fs base h => ?_
    split at h <;> cases h
  case iterate =>
    unfold Plan.iterate
    split
    · exact planned_refuse rfl rfl _
    · split
      · exact ⟨rfl, rfl, List.Subset.refl _, nofun⟩
      · exact planned_refuse rfl rfl _
  case enterBody =>
    unfold Plan.enterBody
    split
    · exact planned_refuse rfl rfl _
    · split
      · exact planned_refuse rfl rfl _
      · rename_i rest _
        exact planned_statement (c := c) (d := { c with pending := rest }) rfl rfl nofun
  case popArgs =>
    unfold Plan.popArgs
    split
    · exact planned_refuse rfl rfl _
    · exact planned_pass (by rfl)
  case callback event arg params record =>
    unfold Plan.statement
    cases hframes : c.frames with
    | nil => exact planned_refuse rfl rfl _
    | cons f fs =>
        refine ⟨rfl, rfl, List.Subset.refl _, fun base h => ?_⟩
        cases h
        exact ⟨f, fs, event, arg, params, record, hframes, rfl, rfl, rfl⟩
  case exit =>
    unfold Plan.exit
    cases hframes : c.frames with
    | nil => exact planned_refuse rfl rfl _
    | cons f fs => exact ⟨rfl, rfl, fun g hg => by simp [hframes, show g ∈ fs from hg], nofun⟩

end Operation

/-! ## The statements around open lists -/

/-- The list of a frame is its base, or lies in a statement of the kind that its scope opens. -/
inductive Frame.Housed (root : List Trace) (base : Path) (f : Frame) : Prop
  | base (hpath : f.path = base) (hscope : f.scope = .block)
  | inside {p : Path} {i : Nat} {part : Part} {t : Trace} (hpath : f.path = p ++ [⟨i, part⟩])
      (hnode : nodeAt? p i root = some t) (hfits : f.scope.Fits part t.head)

/-- The path is the root of the trace or leads to the body of a callback. -/
def Trace.IsBase (root : List Trace) (base : Path) : Prop :=
  base = [] ∨ ∃ p i t event, base = p ++ [⟨i, .body⟩] ∧ nodeAt? p i root = some t ∧
    t.head = .callback event

structure Context.Housed (root : List Trace) (c : Context) : Prop where
  base : IsBase root c.base
  frames : ∀ f ∈ c.frames, f.Housed root c.base

def Recorder.Housed (r : Recorder) : Prop :=
  ∀ entry ∈ r.contexts, entry.2.Housed r.root

namespace Scope

theorem Fits.ne_hole {scope : Scope} {part : Part} {t : Trace} (h : scope.Fits part t.head) :
    t ≠ hole := by
  rintro rfl
  cases scope <;> cases part <;> exact h

theorem Fits.loop {iterating : Bool} {part : Part} {h : Head}
    (hfits : (Scope.loop iterating).Fits part h) (iterating' : Bool) :
    (Scope.loop iterating').Fits part h := by
  cases part <;> cases h <;> exact hfits

theorem not_fits_callback {scope : Scope} {part : Part} {event : String} :
    ¬ scope.Fits part (.callback event) := by
  cases scope <;> cases part <;> exact id

end Scope

section

variable {root root' : List Trace} {base : Path}

theorem Frame.Housed.grown {f : Frame} (h : f.Housed root base) (hgrown : Grown root root') :
    f.Housed root' base := by
  cases h with
  | base hpath hscope => exact .base hpath hscope
  | inside hpath hnode hfits =>
      obtain ⟨t', hnode', hshell⟩ := hgrown.kept hnode hfits.ne_hole
      exact .inside hpath hnode' (head_eq_of_shell_eq hshell ▸ hfits)

theorem Trace.IsBase.grown (h : IsBase root base) (hgrown : Grown root root') :
    IsBase root' base := by
  rcases h with rfl | ⟨p, i, t, event, rfl, hnode, hhead⟩
  · exact .inl rfl
  · have hne : t ≠ hole := by
      rintro rfl
      cases hhead
    obtain ⟨t', hnode', hshell⟩ := hgrown.kept hnode hne
    exact .inr ⟨p, i, t', event, rfl, hnode', (head_eq_of_shell_eq hshell).trans hhead⟩

theorem Context.Housed.grown {c : Context} (h : c.Housed root) (hgrown : Grown root root') :
    c.Housed root' :=
  ⟨h.base.grown hgrown, fun f hf => (h.frames f hf).grown hgrown⟩

end

/-- Where a statement was recorded, there is one with its head. -/
theorem Edit.exists_head_of_record {b b' : List Trace} {k : Nat} {t : Trace} {rest : List Trace}
    (hb : Tidy (block b)) (ht : t.Begun) (h : (record t rest).apply k b = .ok b') :
    ∃ s, b'[k]? = some s ∧ s.head = t.head := by
  rcases cases_of_record hb h with ⟨c, rfl, rfl, rfl⟩ | ⟨old, hold, hhole, hmerge, rfl⟩
  · exact ⟨t, by simp, rfl⟩
  · have hold' : Tidy old := (tidy_block_iff.mp hb).2 old (List.mem_of_getElem? hold)
    have hjoin := (join_eq_left_iff hold' hhole ht.openBodies).mpr hmerge
    exact ⟨old, hold, (nodeJoin_of_join hold'.wellFormed ht.tidy.wellFormed hhole ht.ne_hole hjoin).head'⟩

theorem Plan.exists_node_of_edited {p : Plan} {f : Frame} {t : Trace} {rest : List Trace}
    {root root' : List Trace} (hroot : Tidy (block root)) (ht : t.Begun)
    (hedit : p.edit = some (f, .record t rest)) (h : p.edited root = .ok root') :
    ∃ s, nodeAt? f.path f.cursor root' = some s ∧ s.head = t.head := by
  cases hb : blockAt? f.path root with
  | none => simp [edited, hedit, hb] at h
  | some b => cases happly : (Edit.record t rest).apply f.cursor b with
      | error e => simp [edited, hedit, hb, happly, Except.map] at h
      | ok b' =>
          obtain rfl : replaceAt f.path b' root = root' := by
            simpa [edited, hedit, hb, happly, Except.map] using h
          obtain ⟨s, hs, hhead⟩ :=
            Edit.exists_head_of_record (isLocal_isTidy.every_blockAt? hroot hb) ht happly
          exact ⟨s, nodeAt?_eq_some_iff.mpr ⟨b', blockAt?_replaceAt hb b', hs⟩, hhead⟩

namespace Operation

open Recorder Recording

variable {r : Recorder} {c : Context} {op : Operation} {p : Plan}

/-- The context of an operation that went as planned. -/
theorem housed_context (hr : r.Sound) (hop : op.Plain) (hc : c.Housed r.root)
    (hp : op.plan? c = some p) {root : List Trace} (h : p.edited r.root = .ok root) :
    p.context.Housed root := by
  have hgrown := (changes_edited hp h).grown hr.tidy
  have hbase := (planned_of_plan? hp).base
  refine ⟨hbase ▸ hc.base.grown hgrown, fun g hg => hbase ▸ ?_⟩
  cases origin_of_plan? hp g hg with
  | stayed hf hpath hscope =>
      cases (hc.frames _ hf).grown hgrown with
      | base hpath' hscope' => exact .base (hpath.trans hpath') (hscope.trans hscope')
      | inside hpath' hnode hfits => exact .inside (hpath.trans hpath') hnode (hscope ▸ hfits)
  | @iterated f _ _ _ hframes hscope =>
      cases (hc.frames f (by simp [hframes])).grown hgrown with
      | base _ hscope' => cases hscope.symm.trans hscope'
      | @inside _ _ part t hpath hnode hfits =>
          refine .inside hpath hnode ?_
          rw [hscope] at hfits
          exact hfits.loop true
  | restarted => exact .base rfl rfl
  | entered hframes hopens hedit ht =>
      obtain ⟨t', ht', hfits⟩ := fits_of_opens hopens
      obtain rfl := Option.some.inj (ht.symm.trans ht')
      obtain ⟨s, hnode, hhead⟩ := Plan.exists_node_of_edited hr.tidy (hop.begun ht) hedit h
      exact .inside rfl hnode (hhead ▸ hfits)

/-- Operations keep the statements around open lists of the kind that opened them. -/
theorem housed_perform (hr : r.Sound) (hhoused : r.Housed) (hop : op.Plain) :
    (run op.perform r).2.Housed := by
  obtain ⟨c, hc⟩ := hr.active
  have hcontext := hhoused _ (mem_of_context? hc)
  have hcontinue : ∀ {root : List Trace} {d : Context}, Grown r.root root → d.Housed root →
      (r.continueWith root d).Housed := by
    intro root d hgrown hd entry hentry
    obtain ⟨old, hold, rfl⟩ := List.mem_map.mp hentry
    split
    · exact hd
    · exact (hhoused old hold).grown hgrown
  cases hp : op.plan? c with
  | none =>
      cases op <;> cases hp
      · rw [run_switchTo]
        split <;> exact hhoused
      · rw [run_release]
        dsimp only
        split
        · exact hhoused
        · exact fun entry hentry => hhoused entry (List.mem_of_mem_filter hentry)
  | some p =>
      cases hfailure : r.failure with
      | some cause =>
          rw [run_perform_of_failure hp hfailure]
          exact hhoused
      | none =>
          rw [run_perform hr hop hfailure hc hp, Plan.carryOut]
          have hplanned := planned_of_plan? hp
          cases hedited : p.edited r.root with
          | error e =>
              refine hcontinue (.refl r.root) ⟨hplanned.refusedBase ▸ hcontext.base, ?_⟩
              rw [hplanned.refusedBase]
              exact fun f hf => hcontext.frames f (hplanned.refused hf)
          | ok root =>
              have hgrown := (changes_edited hp hedited).grown hr.tidy
              have hnew := hcontinue hgrown (housed_context hr hop hcontext hp hedited)
              dsimp only
              cases hfinish : p.finish with
              | give out => exact hnew
              | fail e => exact hnew
              | register base =>
                  obtain ⟨f, fs, event, arg, params, record, hframes, rfl, rfl, hedit⟩ :=
                    hplanned.register base hfinish
                  obtain ⟨s, hnode, hhead⟩ :=
                    Plan.exists_node_of_edited hr.tidy (hop.begun rfl) hedit hedited
                  intro entry hentry
                  rcases List.mem_append.mp hentry with hold | hlast
                  · exact hnew entry hold
                  · rw [List.mem_singleton.mp hlast]
                    exact ⟨.inr ⟨_, _, s, event, rfl, hnode, hhead⟩, fun _ hf => by cases hf⟩

end Operation

theorem Recorder.housed_new : Recorder.new.Housed := by
  intro entry hentry
  obtain rfl := List.mem_singleton.mp hentry
  refine ⟨.inl rfl, fun f hf => ?_⟩
  obtain rfl := List.mem_singleton.mp hf
  exact .base rfl rfl

theorem Operation.housed_performAll {r : Recorder} (hr : r.Sound) (hhoused : r.Housed)
    {ops : List Operation} (hops : ∀ op ∈ ops, op.Plain) : (performAll ops r).2.Housed := by
  induction ops generalizing r with
  | nil => exact hhoused
  | cons op ops ih =>
      obtain ⟨hop, hops⟩ := List.forall_mem_cons.mp hops
      exact ih (keepsSound_perform hr hop).sound (housed_perform hr hhoused hop) hops

theorem Recorder.Reachable.housed {r : Recorder} (h : r.Reachable) : r.Housed := by
  obtain ⟨ops, hops, rfl⟩ := h
  exact Operation.housed_performAll sound_new housed_new hops

end TraceLoom
