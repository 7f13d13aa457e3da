import TraceLoom.Proofs.Recorder.Endings

/-!
What the holes of a trace say about the operations that made it.  In a run that was accepted a
list has lost the hole at its end exactly if it was ended, and what an execution never came to is a
single hole, unless an execution was given up on the way.
-/

namespace TraceLoom

open Trace

/-- The part of a choice that is taken. -/
def Trace.branchPart (taken : Bool) : Part :=
  if taken then .whenTrue else .whenFalse

namespace Operation

/-- The operation takes a branch of the choice at an index of the list at a path. -/
def Takes (r : Recorder) (p : Path) (i : Nat) (taken : Bool) (op : Operation) : Prop :=
  ∃ f test, r.top? = some f ∧ f.path = p ∧ f.cursor = i ∧ op = branch taken test

/-- The operation begins an iteration of the loop whose body is at a path. -/
def Iterates (r : Recorder) (p : Path) (op : Operation) : Prop :=
  op = iterate ∧ ∃ f, r.top? = some f ∧ f.path = p

/-- The operation gives up frames on the list at a path, which are neither closed nor left by a
break. -/
def Abandons (r : Recorder) (p : Path) : Operation → Prop
  | restart => ∃ c, r.context? r.active = some c ∧ ∃ f ∈ c.frames, f.path = p
  | release id => id ≠ Recorder.rootContext ∧ id ≠ r.active ∧
      ∃ c, r.context? id = some c ∧ ∃ f ∈ c.frames, f.path = p
  | _ => False

/-- Some frame on the list at a path was given up in a run or is still there after it. -/
def LeftOpen (ops : List Operation) (r : Recorder) (p : Path) : Prop :=
  (∃ m ∈ moments ops r, Abandons m.1 p m.2) ∨
    ∃ entry ∈ (performAll ops r).2.contexts, ∃ f ∈ entry.2.frames, f.path = p

end Operation

namespace Recorder

/-- Some frame with a certain scope is on the list at a path. -/
def OpenAt (r : Recorder) (p : Path) (S : Scope → Prop) : Prop :=
  ∃ entry ∈ r.contexts, ∃ f ∈ entry.2.frames, f.path = p ∧ S f.scope

/-- A recorder that has not failed. -/
structure Usable (r : Recorder) : Prop where
  sound : r.Sound
  housed : r.Housed
  failure : r.failure = none

theorem usable_new : Recorder.new.Usable :=
  ⟨sound_new, housed_new, rfl⟩

variable {r : Recorder} {p : Path} {S : Scope → Prop}

theorem openAt_of_top? {f : Frame} (h : r.top? = some f) (hS : S f.scope) : r.OpenAt f.path S := by
  obtain ⟨c, hc, hf⟩ := Option.bind_eq_some_iff.mp h
  exact ⟨_, mem_of_context? hc, f, List.mem_of_mem_head? hf, rfl, hS⟩

theorem Sound.eq_of_mem (hr : r.Sound) {id : ContextId} {c d : Context}
    (hc : (id, c) ∈ r.contexts) (hd : (id, d) ∈ r.contexts) : c = d :=
  congrArg Prod.snd (List.inj_on_of_nodup_map hr.distinct hc hd rfl)

end Recorder

namespace Operation

open Recorder Recording

variable {r : Recorder} {c : Context} {op : Operation} {ops : List Operation} {p : Path}

theorem usable_perform (hr : r.Usable) (hop : op.Plain) (h : (run op.perform r).1.isOk = true) :
    (run op.perform r).2.Usable :=
  ⟨(keepsSound_perform hr.sound hop).sound, housed_perform hr.sound hr.housed hop,
    (grows_perform hr.sound hop hr.failure h).1⟩

/-! ## Moments of a run -/

/-- At every moment of an accepted run the recorder is usable, the operation is accepted, and the
trace after the run arises from the trace then. -/
theorem of_mem_moments (hr : r.Usable) (hops : ∀ op ∈ ops, op.Plain)
    (h : accepted (performAll ops r).1 = true) :
    ∀ m ∈ moments ops r, m.1.Usable ∧ m.2.Plain ∧ (run m.2.perform m.1).1.isOk = true ∧
      Grown m.1.root (performAll ops r).2.root := by
  induction ops generalizing r with
  | nil => exact nofun
  | cons op ops ih =>
      obtain ⟨hok, hrest⟩ := accepted_performAll_cons.mp h
      obtain ⟨hop, hops'⟩ := List.forall_mem_cons.mp hops
      exact List.forall_mem_cons.mpr ⟨⟨hr, hop, hok, (grows_run hr.sound hops).1⟩,
        ih (usable_perform hr hop hok) hops' hrest⟩

theorem mem_of_mem_moments {m : Recorder × Operation} (h : m ∈ moments ops r) : m.2 ∈ ops := by
  induction ops generalizing r with
  | nil => cases h
  | cons op ops ih =>
      rcases List.mem_cons.mp h with rfl | h
      · exact List.mem_cons_self
      · exact List.mem_cons_of_mem _ (ih h)

/-- What holds at a moment of a run held at its start, or came about by an operation before. -/
theorem exists_moment_of_step {P : Recorder → Prop} {E : Recorder → Operation → Prop}
    (hstep : ∀ {r : Recorder} {op : Operation}, r.Usable → op.Plain →
      (run op.perform r).1.isOk = true → P (run op.perform r).2 → P r ∨ E r op)
    (hr : r.Usable) (hops : ∀ op ∈ ops, op.Plain) (h : accepted (performAll ops r).1 = true) :
    ∀ m ∈ moments ops r, P m.1 → P r ∨ ∃ m' ∈ moments ops r, E m'.1 m'.2 := by
  induction ops generalizing r with
  | nil => exact nofun
  | cons op ops ih =>
      obtain ⟨hok, hrest⟩ := accepted_performAll_cons.mp h
      obtain ⟨hop, hops'⟩ := List.forall_mem_cons.mp hops
      refine List.forall_mem_cons.mpr ⟨.inl, fun m hm hP => ?_⟩
      rcases ih (usable_perform hr hop hok) hops' hrest m hm hP with hP | ⟨m', hm', hE⟩
      · exact (hstep hr hop hok hP).imp_right fun hE => ⟨(r, op), List.mem_cons_self, hE⟩
      · exact .inr ⟨m', List.mem_cons_of_mem _ hm', hE⟩

theorem mem_contexts_finished {entry : ContextId × Context} (h : entry ∈ r.contexts)
    (finish : Finish) : entry ∈ (Plan.finished r finish).2.contexts := by
  cases finish with
  | register base => exact List.mem_append_left _ h
  | give out => exact h
  | fail e => exact h

/-- What is planned for an accepted operation does not fail. -/
theorem finish_ne_fail (hr : r.Usable) (hop : op.Plain) (h : (run op.perform r).1.isOk = true)
    {q : Plan} (hc : r.context? r.active = some c) (hq : op.plan? c = some q) (e : TraceError) :
    q.finish ≠ .fail e := by
  intro hfail
  rcases cases_of_isOk hr.sound hop hr.failure h with
    ⟨c', q', root, hc', hq', -, hrun⟩ | ⟨other, c, rfl, hother⟩ | ⟨other, rfl⟩
  · obtain rfl := Option.some.inj (hc.symm.trans hc')
    obtain rfl := Option.some.inj (hq.symm.trans hq')
    rw [hrun, hfail] at h
    cases h
  · cases hq
  · cases hq

/-- The contexts after an accepted operation: they were there before, or the active one has gone on
as planned, or one is new. -/
theorem cases_of_mem_contexts (hr : r.Usable) (hop : op.Plain)
    (h : (run op.perform r).1.isOk = true) {entry : ContextId × Context}
    (hentry : entry ∈ (run op.perform r).2.contexts) :
    entry ∈ r.contexts ∨ entry.2.frames = [] ∨
      ∃ c p, r.context? r.active = some c ∧ op.plan? c = some p ∧ entry.2 = p.context := by
  rcases cases_of_isOk hr.sound hop hr.failure h with
    ⟨c, p, root, hc, hp, -, hrun⟩ | ⟨id, c, rfl, hid⟩ | ⟨id, rfl⟩
  · rw [hrun] at hentry
    have hcontinue : entry ∈ (r.continueWith root p.context).contexts →
        entry ∈ r.contexts ∨ entry.2.frames = [] ∨
          ∃ c p, r.context? r.active = some c ∧ op.plan? c = some p ∧ entry.2 = p.context := by
      intro hmem
      obtain ⟨old, hold, rfl⟩ := List.mem_map.mp hmem
      split
      · exact .inr (.inr ⟨c, p, hc, hp, rfl⟩)
      · exact .inl hold
    cases hfinish : p.finish with
    | give out => exact hcontinue (by simpa [Plan.finished, hfinish] using hentry)
    | fail e => exact hcontinue (by simpa [Plan.finished, hfinish] using hentry)
    | register base =>
        rw [hfinish] at hentry
        rcases List.mem_append.mp hentry with hold | hlast
        · exact hcontinue hold
        · rw [List.mem_singleton.mp hlast]
          exact .inr (.inl rfl)
  · rw [run_switchTo, hid] at hentry
    exact .inl hentry
  · rw [run_release] at hentry
    dsimp only at hentry
    split at hentry
    · exact .inl hentry
    · exact .inl (List.mem_of_mem_filter hentry)

/-! ## How frames come about -/

/-- Only the operation that takes a branch opens a list that is one. -/
theorem eq_branch_of_opens {taken : Bool} {scope : Scope}
    (h : op.opens = some (branchPart taken, scope)) : ∃ test, op = branch taken test := by
  cases op with
  | branch other test =>
      obtain rfl : other = taken := by
        cases other <;> cases taken <;> simp [opens, branchPart] at h ⊢
      exact ⟨test, rfl⟩
  | _ => cases taken <;> simp [opens, branchPart] at h

/-- A frame on a branch comes from an operation that takes the branch. -/
theorem openAt_branch_perform {i : Nat} {taken : Bool} (hr : r.Usable) (hop : op.Plain)
    (h : (run op.perform r).1.isOk = true)
    (hopen : (run op.perform r).2.OpenAt (p ++ [⟨i, branchPart taken⟩]) fun _ => True) :
    r.OpenAt (p ++ [⟨i, branchPart taken⟩]) (fun _ => True) ∨ Takes r p i taken op := by
  obtain ⟨entry, hentry, g, hg, hpath, -⟩ := hopen
  rcases cases_of_mem_contexts hr hop h hentry with hold | hnone | ⟨c, q, hc, hq, hcontext⟩
  · exact .inl ⟨entry, hold, g, hg, hpath, trivial⟩
  · simp [hnone] at hg
  · have hmem := mem_of_context? hc
    rw [hcontext] at hg
    cases origin_of_plan? hq g hg with
    | @stayed f _ hf hpath' _ => exact .inl ⟨_, hmem, f, hf, hpath'.symm.trans hpath, trivial⟩
    | @iterated f _ _ _ hframes _ =>
        exact .inl ⟨_, hmem, f, by simp [hframes], hpath, trivial⟩
    | restarted =>
        rcases (hr.housed _ hmem).base with hbase | ⟨p', i', t, event, hbase, -⟩
        · have hempty := hbase.symm.trans hpath
          simp at hempty
        · have heq := List.append_inj' (hbase.symm.trans hpath) rfl
          cases taken <;> simp [branchPart] at heq
    | @entered f _ _ part scope hframes hopens _ _ =>
        obtain ⟨hp, hstep⟩ := List.append_inj' hpath rfl
        obtain ⟨hi, rfl⟩ : f.cursor = i ∧ part = branchPart taken := by simpa using hstep
        obtain ⟨test, rfl⟩ := eq_branch_of_opens hopens
        exact .inr ⟨f, test, top?_eq hc hframes, hp, hi, rfl⟩

/-- A frame with an iteration comes from an operation that begins one. -/
theorem openAt_iterating_perform (hr : r.Usable) (hop : op.Plain)
    (h : (run op.perform r).1.isOk = true)
    (hopen : (run op.perform r).2.OpenAt p (· = .loop true)) :
    r.OpenAt p (· = .loop true) ∨ Iterates r p op := by
  obtain ⟨entry, hentry, g, hg, hpath, hscope⟩ := hopen
  rcases cases_of_mem_contexts hr hop h hentry with hold | hnone | ⟨c, q, hc, hq, hcontext⟩
  · exact .inl ⟨entry, hold, g, hg, hpath, hscope⟩
  · simp [hnone] at hg
  · rw [hcontext] at hg
    cases origin_of_plan? hq g hg with
    | @stayed f _ hf hpath' hscope' =>
        exact .inl ⟨_, mem_of_context? hc, f, hf, hpath'.symm.trans hpath, hscope'.symm.trans hscope⟩
    | @iterated f _ _ hiterate hframes _ =>
        exact .inr ⟨hiterate, f, top?_eq hc hframes, hpath⟩
    | restarted => cases hscope
    | entered _ hopens _ _ =>
        cases op <;> simp only [opens, Option.some.injEq, Prod.mk.injEq, reduceCtorEq] at hopens
        all_goals
          obtain ⟨-, rfl⟩ := hopens
          cases hscope

/-! ## How frames go -/

/-- The frames of a context stay where they are, but for a break, a new start and the innermost
frame at an exit. -/
theorem frames_kept_of_plan? {q : Plan} (hq : op.plan? c = some q)
    (hfinish : ∀ e, q.finish ≠ .fail e) {f : Frame} (hf : f ∈ c.frames)
    (hscope : f.scope ≠ .loop false) :
    (∃ g ∈ q.context.frames, g.path = f.path ∧ g.scope ≠ .loop false) ∨ op = restart ∨
      (∃ n t, op = breakTo n t) ∨ op = exit ∧ c.frames.head? = some f := by
  have hstatement : ∀ {d : Context} {t : Trace} {pending : List (List Trace)}
      {frames : Frame → List Frame → List Frame} {finish : Frame → List Frame → Finish},
      d.frames = c.frames → (∀ g gs, g.next :: gs ⊆ frames g gs) →
      ∃ g ∈ (Plan.statement d t pending frames finish).context.frames,
        g.path = f.path ∧ g.scope ≠ .loop false := by
    intro d t pending frames finish hd hframes
    unfold Plan.statement
    cases hopen : d.frames with
    | nil => exact ⟨f, hd ▸ hf, rfl, hscope⟩
    | cons g gs =>
        rw [← hd, hopen] at hf
        rcases List.mem_cons.mp hf with rfl | hf
        · exact ⟨f.next, hframes f gs List.mem_cons_self, rfl, hscope⟩
        · exact ⟨f, hframes g gs (List.mem_cons_of_mem _ hf), rfl, hscope⟩
  cases op <;> cases hq
  case restart => exact .inr (.inl rfl)
  case bind | assign | primitive | callback =>
    exact .inl (hstatement rfl fun _ _ => List.Subset.refl _)
  case branch | loop | label | call => exact .inl (hstatement rfl fun _ _ => List.subset_cons_self ..)
  case pushArgs => exact .inl ⟨f, hf, rfl, hscope⟩
  case iterate =>
    refine .inl ?_
    unfold Plan.iterate at hfinish ⊢
    cases hframes : c.frames with
    | nil => simp [hframes] at hf
    | cons g gs =>
        rw [hframes] at hf hfinish
        dsimp only at hfinish ⊢
        cases hg : g.scope with
        | loop iterating =>
            rcases List.mem_cons.mp hf with rfl | hf
            · exact ⟨_, List.mem_cons_self, rfl, by simp⟩
            · exact ⟨f, List.mem_cons_of_mem _ hf, rfl, hscope⟩
        | _ => simp [hg, Plan.refuse] at hfinish
  case breakTo n t => exact .inr (.inr (.inl ⟨n, t, rfl⟩))
  case enterBody n arity =>
    refine .inl ?_
    unfold Plan.enterBody
    split
    · exact ⟨f, hf, rfl, hscope⟩
    · split
      · exact ⟨f, hf, rfl, hscope⟩
      · rename_i rest _
        exact hstatement (d := { c with pending := rest }) rfl fun _ _ => List.subset_cons_self ..
  case popArgs =>
    refine .inl ?_
    unfold Plan.popArgs
    split
    · exact ⟨f, hf, rfl, hscope⟩
    · exact ⟨f, hf, rfl, hscope⟩
  case exit =>
    unfold Plan.exit
    cases hframes : c.frames with
    | nil => simp [hframes] at hf
    | cons g gs =>
        rw [hframes] at hf
        rcases List.mem_cons.mp hf with rfl | hf
        · exact .inr (.inr (.inr ⟨rfl, rfl⟩))
        · exact .inl ⟨f, hf, rfl, hscope⟩

/-- A list in which another one was opened is not a single hole. -/
theorem begunAt_of_mem_tail {root : List Trace} (hc : c.Sound root) {f g : Frame} {fs : List Frame}
    (hframes : c.frames = f :: fs) (hg : g ∈ fs) : BegunAt g.path root := by
  have hcursor : 0 < g.cursor := by
    have hnested := hc.nested
    rw [hframes] at hnested
    clear hframes
    induction fs generalizing f with
    | nil => cases hg
    | cons g' fs ih =>
        cases hnested with
        | inside hpos _ hrest =>
            rcases List.mem_cons.mp hg with rfl | hg
            · exact hpos
            · exact ih hg hrest
  obtain ⟨b, hb, hstands⟩ := hc.stands g (by simp [hframes, hg])
  refine ⟨b, hb, ?_⟩
  rintro rfl
  exact hstands.noHole 0 hcursor rfl

/-- A frame that has begun stays, is given up, or leaves a list that is not a single hole. -/
theorem openAt_perform (hr : r.Usable) (hop : op.Plain) (h : (run op.perform r).1.isOk = true)
    (hopen : r.OpenAt p (· ≠ .loop false)) :
    (run op.perform r).2.OpenAt p (· ≠ .loop false) ∨ Abandons r p op ∨
      BegunAt p (run op.perform r).2.root := by
  obtain ⟨⟨id, d⟩, hentry, f, hf, hpath, hscope⟩ := hopen
  have hbegun := begunAt_perform (p := p) hr.sound hop hr.failure h
  have hgrown := (grows_step hr.sound hop).1
  rcases cases_of_isOk hr.sound hop hr.failure h with
    ⟨c, q, root, hc, hq, -, hrun⟩ | ⟨other, c, rfl, hother⟩ | ⟨other, rfl⟩
  · have hfinished : ∀ entry ∈ (r.continueWith root q.context).contexts,
        entry ∈ (run op.perform r).2.contexts :=
      fun entry hmem => hrun ▸ mem_contexts_finished hmem q.finish
    by_cases hactive : id = r.active
    · subst hactive
      obtain rfl : d = c := hr.sound.eq_of_mem hentry (mem_of_context? hc)
      rcases frames_kept_of_plan? hq (finish_ne_fail hr hop h hc hq) hf hscope with
        ⟨g, hg, hgpath, hgscope⟩ | rfl | ⟨n, t, rfl⟩ | ⟨rfl, htop⟩
      · refine .inl ⟨(r.active, q.context), hfinished _ ?_, g, hg, hgpath.trans hpath, hgscope⟩
        exact mem_of_context? (context?_active_continueWith hc root q.context)
      · exact .inr (.inl ⟨d, hc, f, hf, hpath⟩)
      · refine .inr (.inr ?_)
        obtain ⟨g, fs, hframes⟩ := List.exists_cons_of_ne_nil (List.ne_nil_of_mem hf)
        rcases List.mem_cons.mp (hframes ▸ hf) with rfl | hf
        · exact hbegun.mpr (.inr (.inr ⟨f, _, top?_eq hc hframes, hpath, rfl⟩))
        · exact hbegun.mpr (.inl (hpath ▸ begunAt_of_mem_tail (hr.sound.contexts _ hentry) hframes hf))
      · have htop' : r.top? = some f := by simp [top?, hc, htop]
        exact .inr (.inr (hbegun.mpr (.inr (.inl ⟨f, htop', hpath, hscope⟩))))
    · refine .inl ⟨(id, d), hfinished _ ?_, f, hf, hpath, hscope⟩
      exact List.mem_map.mpr ⟨(id, d), hentry, if_neg hactive⟩
  · refine .inl ⟨(id, d), ?_, f, hf, hpath, hscope⟩
    rw [run_switchTo, hother]
    exact hentry
  · by_cases hkept : other = rootContext ∨ other = r.active
    · refine .inl ⟨(id, d), ?_, f, hf, hpath, hscope⟩
      rw [run_release]
      simpa [hkept] using hentry
    · by_cases hid : id = other
      · subst hid
        obtain ⟨hroot, hactive⟩ := not_or.mp hkept
        refine .inr (.inl ⟨hroot, hactive, d, ?_, f, hf, hpath⟩)
        have hlookup : r.contexts.lookup id ≠ none := by
          rw [ne_eq, List.lookup_eq_none_iff]
          exact fun hnone => by simpa using hnone _ hentry
        obtain ⟨d', hd'⟩ := Option.ne_none_iff_exists'.mp hlookup
        rw [context?, hd', hr.sound.eq_of_mem (mem_of_context? hd') hentry]
      · refine .inl ⟨(id, d), ?_, f, hf, hpath, hscope⟩
        rw [run_release]
        simp [hkept, hentry, hid]

/-- A frame that has begun is left open by the rest of the run, or leaves a list that is not a
single hole. -/
theorem openAt_performAll (hr : r.Usable) (hops : ∀ op ∈ ops, op.Plain)
    (h : accepted (performAll ops r).1 = true) (hopen : r.OpenAt p (· ≠ .loop false)) :
    LeftOpen ops r p ∨ BegunAt p (performAll ops r).2.root := by
  induction ops generalizing r with
  | nil =>
      obtain ⟨entry, hentry, f, hf, hpath, -⟩ := hopen
      exact .inl (.inr ⟨entry, hentry, f, hf, hpath⟩)
  | cons op ops ih =>
      obtain ⟨hok, hrest⟩ := accepted_performAll_cons.mp h
      obtain ⟨hop, hops'⟩ := List.forall_mem_cons.mp hops
      have hr' := usable_perform hr hop hok
      rcases openAt_perform hr hop hok hopen with hopen | habandons | hbegun
      · refine (ih hr' hops' hrest hopen).imp_left ?_
        rintro (⟨m, hm, habandons⟩ | hlast)
        · exact .inl ⟨m, List.mem_cons_of_mem _ hm, habandons⟩
        · exact .inr hlast
      · exact .inl (.inl ⟨(r, op), List.mem_cons_self, habandons⟩)
      · exact .inr ((grows_run hr'.sound hops').1.begunAt hr'.sound.tidy hbegun)

/-- Where an operation opens a frame that has begun, the frame is left open by the run, or leaves a
list that is not a single hole. -/
theorem leftOpen_or_begunAt {E : Recorder → Operation → Prop}
    (hE : ∀ {r : Recorder} {op : Operation}, r.Usable → op.Plain →
      (run op.perform r).1.isOk = true → E r op →
      (run op.perform r).2.OpenAt p (· ≠ .loop false))
    (hr : r.Usable) (hops : ∀ op ∈ ops, op.Plain) (h : accepted (performAll ops r).1 = true)
    (hmoment : ∃ m ∈ moments ops r, E m.1 m.2) :
    LeftOpen ops r p ∨ BegunAt p (performAll ops r).2.root := by
  induction ops generalizing r with
  | nil =>
      obtain ⟨m, hm, -⟩ := hmoment
      cases hm
  | cons op ops ih =>
      obtain ⟨hok, hrest⟩ := accepted_performAll_cons.mp h
      obtain ⟨hop, hops'⟩ := List.forall_mem_cons.mp hops
      have hr' := usable_perform hr hop hok
      have hlater : LeftOpen ops (run op.perform r).2 p →
          LeftOpen (op :: ops) r p := by
        rintro (⟨m, hm, habandons⟩ | hlast)
        · exact .inl ⟨m, List.mem_cons_of_mem _ hm, habandons⟩
        · exact .inr hlast
      obtain ⟨m, hm, hEm⟩ := hmoment
      rcases List.mem_cons.mp hm with rfl | hm
      · exact (openAt_performAll hr' hops' hrest (hE hr hop hok hEm)).imp_left hlater
      · exact (ih hr' hops' hrest ⟨m, hm, hEm⟩).imp_left hlater

/-! ## What holes say -/

/-- The innermost frame after an operation for which one is planned. -/
theorem openAt_of_plan? {S : Scope → Prop} (hr : r.Usable) (hop : op.Plain)
    (h : (run op.perform r).1.isOk = true) {q : Plan} (hc : r.context? r.active = some c)
    (hq : op.plan? c = some q) {g : Frame} (hg : g ∈ q.context.frames) (hS : S g.scope) :
    (run op.perform r).2.OpenAt g.path S := by
  rcases cases_of_isOk hr.sound hop hr.failure h with
    ⟨c', q', root, hc', hq', -, hrun⟩ | ⟨other, c, rfl, hother⟩ | ⟨other, rfl⟩
  · obtain rfl := Option.some.inj (hc.symm.trans hc')
    obtain rfl := Option.some.inj (hq.symm.trans hq')
    refine ⟨(r.active, q.context), ?_, g, hg, rfl, hS⟩
    rw [hrun]
    exact mem_contexts_finished (mem_of_context? (context?_active_continueWith hc root q.context)) _
  · cases hq
  · cases hq

theorem openAt_of_takes {i : Nat} {taken : Bool} (hr : r.Usable) (hop : op.Plain)
    (h : (run op.perform r).1.isOk = true) (htakes : Takes r p i taken op) :
    (run op.perform r).2.OpenAt (p ++ [⟨i, branchPart taken⟩]) (· ≠ .loop false) := by
  obtain ⟨f, test, htop, rfl, rfl, rfl⟩ := htakes
  obtain ⟨c, hc, hf⟩ := Option.bind_eq_some_iff.mp htop
  obtain ⟨fs, hframes⟩ := List.head?_eq_some_iff.mp hf
  refine openAt_of_plan? hr hop h hc rfl (g := f.inside (branchPart taken) .block) ?_ nofun
  unfold Plan.statement
  rw [hframes]
  exact List.mem_cons_self

theorem openAt_of_iterates (hr : r.Usable) (hop : op.Plain)
    (h : (run op.perform r).1.isOk = true) (hiterates : Iterates r p op) :
    (run op.perform r).2.OpenAt p (· ≠ .loop false) := by
  obtain ⟨rfl, f, htop, rfl⟩ := hiterates
  obtain ⟨c, hc, hf⟩ := Option.bind_eq_some_iff.mp htop
  obtain ⟨fs, hframes⟩ := List.head?_eq_some_iff.mp hf
  have hfinish := finish_ne_fail hr hop h hc rfl
  have hplan : (Plan.iterate c).context.frames = { f with cursor := 0, scope := .loop true } :: fs := by
    unfold Plan.iterate at hfinish ⊢
    rw [hframes] at hfinish ⊢
    dsimp only at hfinish ⊢
    cases hscope : f.scope with
    | loop iterating => rfl
    | _ => exact absurd (by rw [hscope]; rfl) (hfinish (.scopeMismatch "loop" f.scope.describe))
  exact openAt_of_plan? hr hop h hc rfl (g := { f with cursor := 0, scope := .loop true })
    (hplan ▸ List.mem_cons_self) (by simp)

/-- The list is the body of a loop: a frame on it has the scope of a loop. -/
theorem exists_loop_of_top? {i : Nat} {f : Frame} {test : Trace} {b : List Trace}
    (hr : r.Usable) {root : List Trace} (hgrown : Grown r.root root)
    (hnode : nodeAt? p i root = some (.whileDo test b)) (htop : r.top? = some f)
    (hpath : f.path = p ++ [⟨i, .body⟩]) : ∃ iterating, f.scope = .loop iterating := by
  obtain ⟨c, hc, hf⟩ := Option.bind_eq_some_iff.mp htop
  have hhoused := hr.housed _ (mem_of_context? hc)
  have hhead : ∀ {p' i' t}, p ++ [(⟨i, .body⟩ : Step)] = p' ++ [⟨i', .body⟩] →
      nodeAt? p' i' r.root = some t → t ≠ hole → t.head = .whileDo := by
    intro p' i' t heq hnode' hne
    obtain ⟨rfl, hstep⟩ := List.append_inj' heq rfl
    obtain rfl : i = i' := by simpa using hstep
    obtain ⟨u, hu, hshell⟩ := hgrown.kept hnode' hne
    obtain rfl := Option.some.inj (hu.symm.trans hnode)
    exact (head_eq_of_shell_eq hshell).symm
  cases hhoused.frames f (List.mem_of_mem_head? hf) with
  | base hbase hscope =>
      exfalso
      rcases hhoused.base with hempty | ⟨p', i', t, event, heq, ht, hcallback⟩
      · have hnil := (hpath.symm.trans hbase).trans hempty
        simp at hnil
      · have hne : t ≠ hole := by
          rintro rfl
          cases hcallback
        have hwhile := hhead ((hpath.symm.trans hbase).trans heq) ht hne
        cases hcallback.symm.trans hwhile
  | @inside p' i' part t heq ht hfits =>
      have hpart : part = .body := by
        have hstep := (List.append_inj' (hpath.symm.trans heq) rfl).2
        simp at hstep
        exact hstep.2.symm
      subst hpart
      rw [hhead (hpath.symm.trans heq) ht hfits.ne_hole] at hfits
      cases hscope : f.scope with
      | loop iterating => exact ⟨iterating, rfl⟩
      | _ => rw [hscope] at hfits; exact hfits.elim

end Operation

namespace Recorder

open Operation Recording

variable {ops : List Operation}

/-- What the holes of a trace say about the run that made it.  A list is without a hole at its end
exactly if it was ended.  Where no execution was given up, a branch is a single hole exactly if it
was never taken, and the body of a loop if no iteration was ever begun and nothing was recorded
ahead of one. -/
structure HolesSay (ops : List Operation) (r : Recorder) : Prop where
  ended : ∀ {p b}, blockAt? p (performAll ops r).2.root = some b →
    (¬ GoesOn b ↔ ∃ m ∈ moments ops r, Ends m.1 p m.2)
  branches : ∀ {p i test yes no taken},
    nodeAt? p i (performAll ops r).2.root = some (.ifElse test yes no) →
    ¬ LeftOpen ops r (p ++ [⟨i, branchPart taken⟩]) →
    ((if taken then yes else no) = [hole] ↔ ∀ m ∈ moments ops r, ¬ Takes m.1 p i taken m.2)
  loops : ∀ {p i test b}, nodeAt? p i (performAll ops r).2.root = some (.whileDo test b) →
    ¬ LeftOpen ops r (p ++ [⟨i, .body⟩]) →
    (b = [hole] ↔ ∀ m ∈ moments ops r, ¬ Iterates m.1 (p ++ [⟨i, .body⟩]) m.2 ∧
      ¬ Records m.1 (p ++ [⟨i, .body⟩]) m.2)

theorem not_begunAt_new (p : Path) : ¬ BegunAt p Recorder.new.root := by
  rintro ⟨b, hb, hne⟩
  cases p with
  | nil => exact hne (Option.some.inj hb).symm
  | cons step p =>
      obtain ⟨t, inner, ht, hinner, -⟩ := blockAt?_cons_eq_some_iff.mp hb
      exact ne_hole_of_part? hinner (List.mem_singleton.mp (List.mem_of_getElem? ht))

theorem begunAt_of_run (hops : ∀ op ∈ ops, op.Plain)
    (h : accepted (performAll ops .new).1 = true) {p : Path} :
    BegunAt p (performAll ops .new).2.root ↔
      ∃ m ∈ moments ops .new, Ends m.1 p m.2 ∨ Records m.1 p m.2 := by
  rw [begunAt_performAll sound_new hops rfl h, or_iff_right (not_begunAt_new p)]

theorem not_openAt_new (p : Path) (step : Step) (S : Scope → Prop) :
    ¬ Recorder.new.OpenAt (p ++ [step]) S := by
  rintro ⟨entry, hentry, f, hf, hpath, -⟩
  obtain rfl := List.mem_singleton.mp hentry
  obtain rfl := List.mem_singleton.mp hf
  simp [Context.idle] at hpath

theorem eq_hole_iff_not_begunAt {p : Path} {root b : List Trace} (hb : blockAt? p root = some b) :
    b = [hole] ↔ ¬ BegunAt p root := by
  simp [BegunAt, hb]

theorem exists_top?_of_begins {r : Recorder} {op : Operation} {p : Path}
    (h : Ends r p op ∨ Records r p op) : ∃ f, r.top? = some f ∧ f.path = p := by
  rcases h with ⟨f, htop, hpath, -⟩ | ⟨f, t, htop, hpath, -⟩
  · exact ⟨f, htop, hpath⟩
  · exact ⟨f, htop, hpath⟩

theorem branch_holesSay (hops : ∀ op ∈ ops, op.Plain)
    (h : accepted (performAll ops .new).1 = true) {p : Path} {i : Nat} {taken : Bool}
    (hleft : ¬ LeftOpen ops .new (p ++ [⟨i, branchPart taken⟩])) :
    BegunAt (p ++ [⟨i, branchPart taken⟩]) (performAll ops .new).2.root ↔
      ∃ m ∈ moments ops .new, Takes m.1 p i taken m.2 := by
  constructor
  · intro hbegun
    obtain ⟨m, hm, hbegins⟩ := (begunAt_of_run hops h).mp hbegun
    obtain ⟨f, htop, hpath⟩ := exists_top?_of_begins hbegins
    have hopen := hpath ▸ openAt_of_top? (S := fun _ => True) htop trivial
    exact (exists_moment_of_step (P := fun r => r.OpenAt _ _) openAt_branch_perform usable_new hops h
      m hm hopen).resolve_left (not_openAt_new _ _ _)
  · intro htakes
    exact (leftOpen_or_begunAt openAt_of_takes usable_new hops h htakes).resolve_left hleft

theorem loop_holesSay (hops : ∀ op ∈ ops, op.Plain)
    (h : accepted (performAll ops .new).1 = true) {p : Path} {i : Nat} {test : Trace}
    {b : List Trace}
    (hnode : nodeAt? p i (performAll ops .new).2.root = some (.whileDo test b))
    (hleft : ¬ LeftOpen ops .new (p ++ [⟨i, .body⟩])) :
    BegunAt (p ++ [⟨i, .body⟩]) (performAll ops .new).2.root ↔
      ∃ m ∈ moments ops .new,
        Iterates m.1 (p ++ [⟨i, .body⟩]) m.2 ∨ Records m.1 (p ++ [⟨i, .body⟩]) m.2 := by
  constructor
  · intro hbegun
    obtain ⟨m, hm, ⟨f, htop, hpath, hcloses⟩ | hrecords⟩ := (begunAt_of_run hops h).mp hbegun
    · obtain ⟨husable, -, -, hgrown⟩ := of_mem_moments usable_new hops h m hm
      obtain ⟨iterating, hscope⟩ := exists_loop_of_top? husable hgrown hnode htop hpath
      obtain ⟨r, op⟩ := m
      cases op with
      | iterate => exact ⟨_, hm, .inl ⟨rfl, f, htop, hpath⟩⟩
      | breakTo n t => exact ⟨_, hm, .inr ⟨f, _, htop, hpath, rfl⟩⟩
      | exit =>
          -- the frame has an iteration, which was begun earlier
          have hloop : f.scope = .loop true := by
            cases iterating with
            | true => exact hscope
            | false => exact absurd hscope hcloses
          have hopen : r.OpenAt (p ++ [⟨i, .body⟩]) (· = .loop true) :=
            hpath ▸ openAt_of_top? htop hloop
          obtain ⟨m', hm', hiterates⟩ :=
            (exists_moment_of_step (P := fun r => r.OpenAt _ _) openAt_iterating_perform usable_new
              hops h _ hm hopen).resolve_left (not_openAt_new _ _ _)
          exact ⟨m', hm', .inl hiterates⟩
      | _ => exact hcloses.elim
    · exact ⟨m, hm, .inr hrecords⟩
  · rintro ⟨m, hm, hiterates | hrecords⟩
    · exact (leftOpen_or_begunAt openAt_of_iterates usable_new hops h
        ⟨m, hm, hiterates⟩).resolve_left hleft
    · exact (begunAt_of_run hops h).mpr ⟨m, hm, .inr hrecords⟩

/-- In a run that was accepted in full, a list has lost the hole at its end exactly if it was ended,
and what executions never came to is a single hole. -/
theorem holesSay_of_run (hops : ∀ op ∈ ops, op.Plain)
    (h : accepted (performAll ops .new).1 = true) : HolesSay ops .new := by
  refine ⟨fun {p b} hb => ?_, fun {p i test yes no taken} hnode hleft => ?_,
    fun {p i test b} hnode hleft => ?_⟩
  · have hended := endedAt_performAll sound_new hops rfl h (p := p)
    rw [or_iff_right fun hnew => not_begunAt_new p hnew.begunAt] at hended
    rw [← hended]
    simp [EndedAt, hb]
  · have hlist : blockAt? (p ++ [⟨i, branchPart taken⟩]) (performAll ops .new).2.root =
        some (if taken then yes else no) := by
      refine blockAt?_append_singleton_eq_some_iff.mpr ⟨_, hnode, ?_⟩
      cases taken <;> rfl
    rw [eq_hole_iff_not_begunAt hlist, branch_holesSay hops h hleft]
    push Not
    rfl
  · have hlist : blockAt? (p ++ [⟨i, .body⟩]) (performAll ops .new).2.root = some b :=
      blockAt?_append_singleton_eq_some_iff.mpr ⟨_, hnode, rfl⟩
    rw [eq_hole_iff_not_begunAt hlist, loop_holesSay hops h hnode hleft]
    simp only [not_exists, not_and, not_or]

/-- A loop whose first iteration takes a branch and whose second one is broken off. -/
theorem holesSay_of_run_loop :
    let ops : List Operation :=
      [.label "out", .loop (.boolean true), .iterate, .branch true (.boolean true),
        .bind "x" .undefined, .exit, .iterate, .branch false (.boolean true),
        .breakTo "out" .undefined, .exit]
    ((∀ op ∈ ops, op.Plain) ∧ accepted (performAll ops .new).1 = true) ∧ HolesSay ops .new := by
  intro ops
  have hops : ∀ op ∈ ops, op.Plain := by decide
  have h : accepted (performAll ops .new).1 = true := by decide
  exact ⟨⟨hops, h⟩, holesSay_of_run hops h⟩

/-- A statement recorded in the body of a loop before any iteration stays there, although the loop is
left and no iteration was begun. -/
theorem not_singleton_hole_iff_not_iterates :
    ¬ ∀ ops : List Operation, (∀ op ∈ ops, op.Plain) → accepted (performAll ops .new).1 = true →
      (∀ q, ¬ LeftOpen ops .new q) →
      ∀ p i test b, nodeAt? p i (performAll ops .new).2.root = some (.whileDo test b) →
        (b = [hole] ↔ ∀ m ∈ moments ops .new, ¬ Iterates m.1 (p ++ [⟨i, .body⟩]) m.2) := by
  intro hclaim
  let ops : List Operation := [.loop (.boolean true), .bind "x" (.boolean true), .exit, .exit]
  have hnone : ∀ m ∈ moments ops .new, m.2 ≠ .iterate ∧ ∀ q, ¬ Abandons m.1 q m.2 := by
    intro m hm
    have hop : m.2 ∈ ops := mem_of_mem_moments hm
    simp only [ops, List.mem_cons, List.not_mem_nil, or_false] at hop
    rcases hop with hop | hop | hop | hop <;> simp [hop, Abandons]
  have hcontexts : (performAll ops .new).2.contexts = [(rootContext, ⟨[], [], []⟩)] := by rfl
  have hleft : ∀ q, ¬ LeftOpen ops .new q := by
    rintro q (⟨m, hm, habandons⟩ | ⟨entry, hentry, f, hf, -⟩)
    · exact (hnone m hm).2 q habandons
    · rw [hcontexts] at hentry
      obtain rfl := List.mem_singleton.mp hentry
      cases hf
  have hsays := hclaim ops (by decide) (by decide) hleft [] 0 (.boolean true)
    [.bind "x" (.boolean true), hole] (by rfl)
  have hhole := hsays.mpr fun m hm hiterates => (hnone m hm).1 hiterates.1
  cases hhole

end Recorder

end TraceLoom
