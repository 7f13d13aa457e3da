import TraceLoom.Proofs.Recorder.Confinement

/-!
What opens, fills and ends statement lists.  A list begins as a single hole.  It keeps a hole at
its end until the innermost frame on it is closed or a break is recorded in it, and it is a single
hole until something is recorded in it or it is ended.
-/

namespace TraceLoom

open Trace

/-! ## Lists that a change leaves alone -/

namespace Trace

/-- The lists are equally long, and both may go on or none. -/
structure SameEnd (b b' : List Trace) : Prop where
  length : b'.length = b.length
  goesOn : GoesOn b' ↔ GoesOn b

theorem SameEnd.refl (b : List Trace) : SameEnd b b :=
  ⟨rfl, Iff.rfl⟩

theorem eq_singleton_hole_iff {b : List Trace} : b = [hole] ↔ GoesOn b ∧ b.length = 1 := by
  constructor
  · rintro rfl
    exact ⟨rfl, rfl⟩
  · rintro ⟨hopen, hlength⟩
    obtain ⟨t, rfl⟩ := List.length_eq_one_iff.mp hlength
    obtain rfl : t = hole := Option.some.inj hopen
    rfl

theorem SameEnd.set {b : List Trace} {i : Nat} {t u : Trace} (ht : b[i]? = some t)
    (hne : t ≠ hole) (hu : u ≠ hole) : SameEnd b (b.set i u) := by
  have hlt := (List.getElem?_eq_some_iff.mp ht).1
  refine ⟨List.length_set, ?_⟩
  rw [GoesOn, GoesOn, List.getLast?_eq_getElem?, List.getLast?_eq_getElem?, List.length_set]
  by_cases hindex : i = b.length - 1
  · rw [← hindex, List.getElem?_set_self hlt, ht]
    simp [hne, hu]
  · rw [List.getElem?_set_ne hindex]

/-- Of the lists at all paths but one, those of the second root that are not in the first are
single holes, and the others end as they did. -/
def NewListsOpen (place : Path) (root root' : List Trace) : Prop :=
  ∀ p b', p ≠ place → blockAt? p root' = some b' →
    b' = [hole] ∨ ∃ b, blockAt? p root = some b ∧ SameEnd b b'

/-- Replacing a list by one in which nothing but single holes is new. -/
theorem newListsOpen_replaceAt {path : Path} {root b b' : List Trace}
    (hb : blockAt? path root = some b)
    (hnew : ∀ step p d, blockAt? (step :: p) b' = some d →
      d = [hole] ∨ blockAt? (step :: p) b = some d) :
    NewListsOpen path root (replaceAt path b' root) := by
  induction path generalizing root with
  | nil =>
      obtain rfl : root = b := Option.some.inj hb
      intro p d hp hd
      cases p with
      | nil => exact absurd rfl hp
      | cons step p => exact (hnew step p d hd).imp_right fun h => ⟨d, h, .refl d⟩
  | cons step path ih =>
      obtain ⟨t, inner, ht, hinner, hb⟩ := blockAt?_cons_eq_some_iff.mp hb
      have hrest := ih hb
      rw [replaceAt_cons ht hinner]
      intro p d hp hd
      cases p with
      | nil =>
          obtain rfl := Option.some.inj hd
          have hne := ne_hole_of_part? hinner
          exact .inr ⟨root, rfl, .set ht hne (ne_hole_of_head_eq (head_setPart ..) hne)⟩
      | cons step' p =>
          rw [blockAt?_cons_set ht hinner] at hd
          split at hd
          · rename_i hstep
            subst hstep
            rw [blockAt?_cons_self ht hinner]
            exact hrest p d (fun heq => hp (by rw [heq])) hd
          · exact .inr ⟨d, hd, .refl d⟩

/-- The list at a path has ended. -/
def EndedAt (p : Path) (root : List Trace) : Prop :=
  ∃ b, blockAt? p root = some b ∧ ¬ GoesOn b

/-- The list at a path is not a single hole. -/
def BegunAt (p : Path) (root : List Trace) : Prop :=
  ∃ b, blockAt? p root = some b ∧ b ≠ [hole]

theorem EndedAt.begunAt {p : Path} {root : List Trace} (h : EndedAt p root) : BegunAt p root := by
  obtain ⟨b, hb, hopen⟩ := h
  exact ⟨b, hb, fun heq => hopen (heq ▸ rfl)⟩

theorem NewListsOpen.endedAt {place p : Path} {root root' : List Trace}
    (h : NewListsOpen place root root') (hp : p ≠ place) (hended : EndedAt p root') :
    EndedAt p root := by
  obtain ⟨b', hb', hopen⟩ := hended
  rcases h p b' hp hb' with rfl | ⟨b, hb, hsame⟩
  · exact absurd rfl hopen
  · exact ⟨b, hb, fun hb => hopen (hsame.goesOn.mpr hb)⟩

theorem NewListsOpen.begunAt {place p : Path} {root root' : List Trace}
    (h : NewListsOpen place root root') (hp : p ≠ place) (hbegun : BegunAt p root') :
    BegunAt p root := by
  obtain ⟨b', hb', hne⟩ := hbegun
  rcases h p b' hp hb' with rfl | ⟨b, hb, hsame⟩
  · exact absurd rfl hne
  · refine ⟨b, hb, fun heq => hne ?_⟩
    rw [eq_singleton_hole_iff] at heq ⊢
    exact ⟨hsame.goesOn.mpr heq.1, hsame.length.trans heq.2⟩

theorem Grown.endedAt {p : Path} {root root' : List Trace} (h : Grown root root')
    (hended : EndedAt p root) : EndedAt p root' := by
  obtain ⟨b, hb, hopen⟩ := hended
  obtain ⟨b', hb', -, hopen'⟩ := h.ended hb hopen
  exact ⟨b', hb', hopen'⟩

/-- A list with a statement in it keeps it, and one without a hole stays so. -/
theorem Grown.begunAt {p : Path} {root root' : List Trace} (h : Grown root root')
    (hroot : Tidy (block root)) (hbegun : BegunAt p root) : BegunAt p root' := by
  obtain ⟨b, hb, hne⟩ := hbegun
  have htidy : Tidy (block b) := isLocal_isTidy.every_blockAt? hroot hb
  cases b with
  | nil => exact (h.endedAt ⟨[], hb, by simp [GoesOn]⟩).begunAt
  | cons t ts =>
      have ht : t ≠ hole := by
        rintro rfl
        have hlength := length_of_isEnding (tidy_block_iff.mp htidy).1 (i := 0) rfl rfl
        obtain rfl : ts = [] := by simpa using hlength
        exact hne rfl
      obtain ⟨t', hnode, hshell⟩ := h.kept (i := 0) (nodeAt?_eq_some_iff.mpr ⟨_, hb, rfl⟩) ht
      obtain ⟨b', hb', hget⟩ := nodeAt?_eq_some_iff.mp hnode
      refine ⟨b', hb', ?_⟩
      rintro rfl
      obtain rfl : hole = t' := Option.some.inj hget
      exact ne_hole_of_shell_eq hshell ht rfl

end Trace

/-! ## What operations end and begin -/

/-- The frame of the innermost open list of the active context. -/
def Recorder.top? (r : Recorder) : Option Frame :=
  (r.context? r.active).bind (·.frames.head?)

namespace Operation

/-- The operation closes a frame, unless the frame is that of a loop without an iteration, or
records a break behind which nothing follows. -/
def Closes (f : Frame) : Operation → Prop
  | exit => f.scope ≠ .loop false
  | iterate => f.scope = .loop true
  | breakTo _ _ => True
  | _ => False

/-- The operation closes the innermost frame, which is on the list at a path, or records a break
in this list. -/
def Ends (r : Recorder) (p : Path) (op : Operation) : Prop :=
  ∃ f, r.top? = some f ∧ f.path = p ∧ op.Closes f

/-- The operation records a statement in the list at a path. -/
def Records (r : Recorder) (p : Path) (op : Operation) : Prop :=
  ∃ f t, r.top? = some f ∧ f.path = p ∧ op.statement? = some t

open Recorder Recording

variable {r : Recorder} {op : Operation} {p : Path}

theorem top?_eq {c : Context} {f : Frame} {fs : List Frame} (hc : r.context? r.active = some c)
    (hframes : c.frames = f :: fs) : r.top? = some f := by
  simp [top?, hc, hframes]

theorem closes_of_editAt_close {f : Frame} (h : op.editAt f = some .close) : op.Closes f := by
  unfold editAt at h
  split at h
  · simpa [Closes] using h
  · simpa [Closes] using h
  · obtain ⟨t, -, ht⟩ := Option.map_eq_some_iff.mp h
    cases ht

theorem isBreak_iff_closes {f : Frame} {t : Trace} (h : op.editAt f = some (.record t t.followers)) :
    t.isBreak = true ↔ op.Closes f := by
  have ht := (statement?_of_editAt h).1
  cases op <;> cases ht <;> simp [isBreak, Closes]

theorem not_closes_of_editAt {f : Frame} (h : op.editAt f = none) :
    ¬ op.Closes f ∧ op.statement? = none := by
  cases op <;> simp_all [editAt, Closes, statement?]

/-- Lists in a statement that is recorded are single holes. -/
theorem eq_hole_of_part?_statement {t : Trace} {part : Part} {b : List Trace} (hop : op.Plain)
    (ht : op.statement? = some t) (hb : t.part? part = some b) : b = [hole] := by
  have hplain : ∀ s ∈ op.expressions, Trace.Plain s := hop
  cases op <;> cases ht <;> cases part <;> simp_all [part?, expressions]
  rename_i n value
  cases value <;> simp_all [Trace.Plain, every, Trace.isExpression]

/-- An accepted operation leaves the trace alone, or changes the innermost list. -/
theorem changes_of_isOk (hr : r.Sound) (hop : op.Plain) (hfailure : r.failure = none)
    (h : (run op.perform r).1.isOk = true) :
    ((run op.perform r).2.root = r.root ∧
      ∀ f, r.top? = some f → ¬ op.Closes f ∧ op.statement? = none) ∨
    ∃ f e b b', r.top? = some f ∧ op.editAt f = some e ∧ blockAt? f.path r.root = some b ∧
      e.apply f.cursor b = .ok b' ∧ (run op.perform r).2.root = replaceAt f.path b' r.root := by
  rcases cases_of_isOk hr hop hfailure h with
    ⟨c, p, root, hc, hp, hroot, hrun⟩ | ⟨id, c, rfl, hid⟩ | ⟨id, rfl⟩
  · rw [hrun] at h ⊢
    rw [Plan.root_finished, root_continueWith]
    have hsame : p.edit = none → root = r.root := by
      intro hedit
      simpa [Plan.edited, hedit] using hroot.symm
    rcases edit_of_plan? hp with ⟨e, rfl⟩ | ⟨hframes, hedit⟩ | ⟨f, fs, hframes, hedit⟩
    · cases h
    · refine .inl ⟨hsame hedit, fun f hf => ?_⟩
      simp [top?, hc, hframes] at hf
    · have htop := top?_eq hc hframes
      cases hchange : op.editAt f with
      | none =>
          refine .inl ⟨hsame (by rw [hedit, hchange]; rfl), fun g hg => ?_⟩
          obtain rfl := Option.some.inj (htop.symm.trans hg)
          exact not_closes_of_editAt hchange
      | some e =>
          rw [hchange, Option.map_some] at hedit
          cases hb : blockAt? f.path r.root with
          | none => simp [Plan.edited, hedit, hb] at hroot
          | some b => cases happly : e.apply f.cursor b with
              | error error => simp [Plan.edited, hedit, hb, happly, Except.map] at hroot
              | ok b' =>
                  obtain rfl : replaceAt f.path b' r.root = root := by
                    simpa [Plan.edited, hedit, hb, happly, Except.map] using hroot
                  exact .inr ⟨f, e, b, b', htop, hchange, hb, happly, rfl⟩
  · refine .inl ⟨?_, fun f _ => ⟨fun h => h, rfl⟩⟩
    rw [run_switchTo, hid]
  · exact .inl ⟨root_release id r, fun f _ => ⟨fun h => h, rfl⟩⟩

end Operation

namespace Edit

variable {op : Operation} {e : Edit} {f : Frame} {b b' : List Trace}

/-- The lists in a changed list were there before, or are single holes. -/
theorem lists_of_apply (hop : op.Plain) (hedit : op.editAt f = some e) (hb : Tidy (block b))
    (h : e.apply f.cursor b = .ok b') (step : Step) (p : Path) (d : List Trace)
    (hd : blockAt? (step :: p) b' = some d) : d = [hole] ∨ blockAt? (step :: p) b = some d := by
  obtain ⟨s, inner, hs, hinner, hp⟩ := blockAt?_cons_eq_some_iff.mp hd
  have hkept : b[step.index]? = some s → blockAt? (step :: p) b = some d := fun hget =>
    blockAt?_cons_eq_some_iff.mpr ⟨s, inner, hget, hinner, hp⟩
  cases e with
  | record t rest =>
      obtain ⟨ht, rfl⟩ := Operation.statement?_of_editAt hedit
      rcases cases_of_record hb h with ⟨c, rfl, -, rfl⟩ | ⟨-, -, -, -, rfl⟩
      · rw [List.getElem?_append] at hs
        split at hs
        · rename_i hlt
          exact .inr (hkept (by rw [List.getElem?_append_left hlt, hs]))
        · -- in the statement itself, or in the hole behind it
          rcases List.mem_cons.mp (List.mem_of_getElem? hs) with rfl | hrest
          · obtain rfl := Operation.eq_hole_of_part?_statement hop ht hinner
            cases p with
            | nil => exact .inl (Option.some.inj hp).symm
            | cons step' p =>
                obtain ⟨u, inner', hu, hinner', -⟩ := blockAt?_cons_eq_some_iff.mp hp
                obtain rfl := List.mem_singleton.mp (List.mem_of_getElem? hu)
                exact absurd rfl (ne_hole_of_part? hinner')
          · exact absurd (eq_hole_of_mem_followers hrest) (ne_hole_of_part? hinner)
      · exact .inr hd
  | close =>
      rcases cases_of_close hb h with ⟨-, rfl⟩ | ⟨c, rfl, -, rfl⟩
      · exact .inr hd
      · exact .inr (hkept (by
          rw [List.getElem?_append_left (List.getElem?_eq_some_iff.mp hs).1, hs]))

theorem not_goesOn_of_forall {b : List Trace} (h : ∀ s ∈ b, s ≠ hole) : ¬ GoesOn b :=
  fun hopen => h hole (List.mem_of_getLast? hopen) rfl

/-- The changed list has ended if it had ended before or the operation ends it. -/
theorem goesOn_of_apply (hedit : op.editAt f = some e) (hb : Tidy (block b))
    (hcursor : StandsIn f.cursor b) (h : e.apply f.cursor b = .ok b') :
    ¬ GoesOn b' ↔ ¬ GoesOn b ∨ op.Closes f := by
  cases e with
  | record t rest =>
      have ht := Operation.statement?_of_editAt hedit
      obtain rfl := ht.2
      rw [← Operation.isBreak_iff_closes hedit]
      rcases cases_of_record hb h with ⟨c, rfl, -, rfl⟩ | ⟨old, hold, hhole, hmerge, rfl⟩
      · simp only [goesOn_append_singleton, not_true_eq_false, false_or]
        unfold followers
        split
        · rename_i hbreak
          rw [goesOn_append_singleton]
          simp only [hbreak, iff_true]
          rintro rfl
          cases hbreak
        · rename_i hbreak
          rw [List.append_cons, goesOn_append_singleton]
          simpa using hbreak
      · refine ⟨.inl, ?_⟩
        rintro (hopen | hbreak)
        · exact hopen
        · have hlength := length_of_isEnding (tidy_block_iff.mp hb).1 hold
            (by simp [isEnding, Operation.isBreak_of_mergeIn hmerge hhole hbreak])
          rw [GoesOn, List.getLast?_eq_getElem?, hlength, Nat.add_sub_cancel, hold]
          simpa using hhole
  | close =>
      refine iff_of_true ?_ (.inr (Operation.closes_of_editAt_close hedit))
      rcases cases_of_close hb h with ⟨hend, rfl⟩ | ⟨c, rfl, -, rfl⟩
      · refine not_goesOn_of_forall fun s hs => ?_
        obtain ⟨i, hi, rfl⟩ := List.mem_iff_getElem.mp hs
        exact fun heq => hcursor.noHole i (by omega) (by simp [hi, heq])
      · exact not_goesOn_of_forall hb.ne_hole_of_append

/-- A changed list is not a single hole. -/
theorem ne_hole_of_apply (hop : op.Plain) (hedit : op.editAt f = some e) (hb : Tidy (block b))
    (hcursor : StandsIn f.cursor b) (h : e.apply f.cursor b = .ok b') : b' ≠ [hole] := by
  cases e with
  | record t rest =>
      obtain ⟨ht, rfl⟩ := Operation.statement?_of_editAt hedit
      rcases cases_of_record hb h with ⟨c, rfl, -, rfl⟩ | ⟨old, hold, hhole, -, rfl⟩
      · intro heq
        have hmem : t ∈ [hole] := heq ▸ List.mem_append_right c List.mem_cons_self
        exact (hop.begun ht).ne_hole (List.mem_singleton.mp hmem)
      · rintro rfl
        exact hhole (List.mem_singleton.mp (List.mem_of_getElem? hold))
  | close =>
      have hended := (goesOn_of_apply hedit hb hcursor h).mpr
        (.inr (Operation.closes_of_editAt_close hedit))
      rintro rfl
      exact hended rfl

end Edit

namespace Operation

open Recorder Recording

variable {r : Recorder} {op : Operation} {p : Path}

/-- The innermost frame of the active context leads to a list in which it stands. -/
theorem stands_of_top? (hr : r.Sound) {f : Frame} (h : r.top? = some f) : f.Stands r.root := by
  obtain ⟨c, hc, hf⟩ := Option.bind_eq_some_iff.mp h
  exact (hr.contexts _ (mem_of_context? hc)).stands f (List.mem_of_mem_head? hf)

/-- What an accepted operation has to do with a list: whether it is at the place of the change, and
if not, that nothing new but single holes is there. -/
theorem newListsOpen_perform (hr : r.Sound) (hop : op.Plain) {f : Frame} {e : Edit}
    {b b' : List Trace} (hedit : op.editAt f = some e) (hb : blockAt? f.path r.root = some b)
    (happly : e.apply f.cursor b = .ok b') :
    NewListsOpen f.path r.root (replaceAt f.path b' r.root) :=
  newListsOpen_replaceAt hb
    (Edit.lists_of_apply hop hedit (isLocal_isTidy.every_blockAt? hr.tidy hb) happly)

/-- Lists end where operations end them. -/
theorem endedAt_perform (hr : r.Sound) (hop : op.Plain) (hfailure : r.failure = none)
    (h : (run op.perform r).1.isOk = true) :
    EndedAt p (run op.perform r).2.root ↔ EndedAt p r.root ∨ Ends r p op := by
  have hgrown := (grows_step hr hop).1
  rcases changes_of_isOk hr hop hfailure h with
    ⟨hroot, hnot⟩ | ⟨f, e, b, b', htop, hedit, hb, happly, hroot⟩
  · rw [hroot]
    refine ⟨.inl, ?_⟩
    rintro (hended | ⟨f, hf, -, hcloses⟩)
    · exact hended
    · exact absurd hcloses (hnot f hf).1
  · obtain ⟨d, hd, hcursor⟩ := stands_of_top? hr htop
    obtain rfl := Option.some.inj (hb.symm.trans hd)
    have hended := Edit.goesOn_of_apply hedit (isLocal_isTidy.every_blockAt? hr.tidy hb) hcursor
      happly
    have hends : Ends r p op ↔ f.path = p ∧ op.Closes f := by
      simp [Ends, htop]
    rw [hends]
    by_cases hp : p = f.path
    · subst hp
      have hlist : ∀ {root c}, blockAt? f.path root = some c →
          (EndedAt f.path root ↔ ¬ GoesOn c) := by
        intro root c hc
        simp [EndedAt, hc]
      rw [hroot, hlist (blockAt?_replaceAt hb b'), hlist hb, hended]
      simp
    · constructor
      · intro hend
        rw [hroot] at hend
        exact .inl ((newListsOpen_perform hr hop hedit hb happly).endedAt hp hend)
      · rintro (hend | ⟨hpath, -⟩)
        · exact hgrown.endedAt hend
        · exact absurd hpath.symm hp

/-- Lists are single holes until something is recorded in them or they are ended. -/
theorem begunAt_perform (hr : r.Sound) (hop : op.Plain) (hfailure : r.failure = none)
    (h : (run op.perform r).1.isOk = true) :
    BegunAt p (run op.perform r).2.root ↔ BegunAt p r.root ∨ Ends r p op ∨ Records r p op := by
  have hgrown := (grows_step hr hop).1
  rcases changes_of_isOk hr hop hfailure h with
    ⟨hroot, hnot⟩ | ⟨f, e, b, b', htop, hedit, hb, happly, hroot⟩
  · rw [hroot]
    refine ⟨.inl, ?_⟩
    rintro (hbegun | ⟨f, hf, -, hcloses⟩ | ⟨f, t, hf, -, ht⟩)
    · exact hbegun
    · exact absurd hcloses (hnot f hf).1
    · rw [(hnot f hf).2] at ht
      cases ht
  · obtain ⟨d, hd, hcursor⟩ := stands_of_top? hr htop
    obtain rfl := Option.some.inj (hb.symm.trans hd)
    by_cases hp : p = f.path
    · subst hp
      have hne := Edit.ne_hole_of_apply hop hedit (isLocal_isTidy.every_blockAt? hr.tidy hb)
        hcursor happly
      refine iff_of_true ⟨b', hroot ▸ blockAt?_replaceAt hb b', hne⟩ (.inr ?_)
      cases e with
      | record t rest => exact .inr ⟨f, t, htop, rfl, (statement?_of_editAt hedit).1⟩
      | close => exact .inl ⟨f, htop, rfl, closes_of_editAt_close hedit⟩
    · constructor
      · intro hbegun
        rw [hroot] at hbegun
        exact .inl ((newListsOpen_perform hr hop hedit hb happly).begunAt hp hbegun)
      · rintro (hbegun | ⟨g, hg, rfl, -⟩ | ⟨g, t, hg, rfl, -⟩)
        · exact hgrown.begunAt hr.tidy hbegun
        · exact absurd (congrArg Frame.path (Option.some.inj (hg.symm.trans htop))) hp
        · exact absurd (congrArg Frame.path (Option.some.inj (hg.symm.trans htop))) hp

variable {ops : List Operation}

/-- Lists that have ended are those that had ended at the start or were ended in the run. -/
theorem endedAt_performAll (hr : r.Sound) (hops : ∀ op ∈ ops, op.Plain)
    (hfailure : r.failure = none) (h : accepted (performAll ops r).1 = true) :
    EndedAt p (performAll ops r).2.root ↔
      EndedAt p r.root ∨ ∃ m ∈ moments ops r, Ends m.1 p m.2 := by
  induction ops generalizing r with
  | nil => simp [performAll, moments]
  | cons op ops ih =>
      obtain ⟨hok, hrest⟩ := accepted_performAll_cons.mp h
      obtain ⟨hop, hops'⟩ := List.forall_mem_cons.mp hops
      rw [performAll_cons, ih (keepsSound_perform hr hop).sound hops'
        (grows_perform hr hop hfailure hok).1 hrest, endedAt_perform hr hop hfailure hok]
      simp [moments, or_assoc]

theorem begunAt_performAll (hr : r.Sound) (hops : ∀ op ∈ ops, op.Plain)
    (hfailure : r.failure = none) (h : accepted (performAll ops r).1 = true) :
    BegunAt p (performAll ops r).2.root ↔
      BegunAt p r.root ∨ ∃ m ∈ moments ops r, Ends m.1 p m.2 ∨ Records m.1 p m.2 := by
  induction ops generalizing r with
  | nil => simp [performAll, moments]
  | cons op ops ih =>
      obtain ⟨hok, hrest⟩ := accepted_performAll_cons.mp h
      obtain ⟨hop, hops'⟩ := List.forall_mem_cons.mp hops
      rw [performAll_cons, ih (keepsSound_perform hr hop).sound hops'
        (grows_perform hr hop hfailure hok).1 hrest, begunAt_perform hr hop hfailure hok]
      simp [moments, or_assoc]

end Operation

end TraceLoom
