import TraceLoom.Proofs.Recorder.Frames

/-!
The course of a recording: it keeps the recorder sound and the contexts of callbacks at hand, and
where it starts in good order, no operation in it is out of order.
-/

namespace TraceLoom

open Recording

namespace Recorder

/-- The open statement lists of the active context. -/
def frames (r : Recorder) : List Frame :=
  ((r.context? r.active).map Context.frames).getD []

/-- The active context is the same again, and those that are held are as they were. -/
structure Holds (held : List ContextId) (r r' : Recorder) : Prop where
  active : r'.active = r.active
  others : ∀ id ∈ held, id ≠ r.active → ∀ c, r.context? id = some c → r'.context? id = some c

/-- A sound recorder that knows the contexts of callbacks, and those in which to go on. -/
structure Tracks (r : Recorder) (callbacks held : List ContextId) : Prop where
  sound : r.Sound
  pending : r.PlainPending
  distinct : callbacks.Nodup
  root : rootContext ∉ callbacks
  live : ∀ id ∈ callbacks ++ held, ∃ c, r.context? id = some c

variable {r r' r'' : Recorder} {callbacks held : List ContextId} {id : ContextId} {c : Context}

namespace Holds

@[refl] theorem refl (r : Recorder) : r.Holds held r :=
  ⟨rfl, fun _ _ _ _ => id⟩

theorem trans (h : r.Holds held r') (h' : r'.Holds held r'') : r.Holds held r'' :=
  ⟨h'.active.trans h.active, fun id hid hne c hc =>
    h'.others id hid (h.active ▸ hne) c (h.others id hid hne c hc)⟩

end Holds

theorem frames_eq (hc : r.context? r.active = some c) : r.frames = c.frames := by
  simp [frames, hc]

theorem Stays.holds (h : r.Stays r') : r.Holds held r' :=
  ⟨h.active, fun _ _ hne _ hc => h.others hne hc⟩

theorem Stays.live (h : r.Stays r') (hr' : r'.Sound) (hid : ∃ c, r.context? id = some c) :
    ∃ c, r'.context? id = some c := by
  by_cases hactive : id = r.active
  · rw [hactive, ← h.active]
    exact hr'.active
  · obtain ⟨c, hc⟩ := hid
    exact ⟨c, h.others hactive hc⟩

theorem lt_nextContext (hr : r.Sound) (hc : r.context? id = some c) : id < r.nextContext :=
  hr.fresh _ (mem_of_context? hc)

namespace Tracks

theorem performed (h : r.Tracks callbacks held) {p : Plan}
    {result : Except TraceError Operation.Outcome × Recorder}
    (hresult : Operation.Performed r p result) : result.2.Tracks callbacks held :=
  ⟨hresult.sound, hresult.pending, h.distinct, h.root,
    fun id hid => hresult.stays.live hresult.sound (h.live id hid)⟩

/-- Another context becomes the active one; the one before is held. -/
theorem switchTo (h : r.Tracks callbacks held) (hc : r.context? id = some c) :
    ({ r with active := id } : Recorder).Tracks callbacks (r.active :: held) := by
  refine ⟨⟨h.sound.tidy, h.sound.contexts, h.sound.fresh, h.sound.distinct, h.sound.root, ⟨c, hc⟩,
    h.sound.failure⟩, h.pending, h.distinct, h.root, fun other hother => ?_⟩
  rcases List.mem_append.mp hother with hcallback | hheld
  · exact h.live other (List.mem_append_left _ hcallback)
  · rcases List.mem_cons.mp hheld with rfl | hheld
    · exact h.sound.active
    · exact h.live other (List.mem_append_right _ hheld)

/-- The context that was held last becomes the active one again. -/
theorem switchBack (h : r.Tracks callbacks (id :: held)) :
    ({ r with active := id } : Recorder).Tracks callbacks held := by
  obtain ⟨c, hc⟩ := h.live id (by simp)
  refine ⟨(h.switchTo hc).sound, h.pending, h.distinct, h.root, fun other hother => ?_⟩
  refine h.live other ?_
  simp only [List.mem_append, List.mem_cons] at hother ⊢
  tauto

end Tracks

/-- The recorder without a context that is not active. -/
def without (r : Recorder) (id : ContextId) : Recorder :=
  { r with contexts := r.contexts.filter fun entry => entry.1 ≠ id }

theorem context?_without (r : Recorder) (id other : ContextId) :
    (r.without id).context? other = if other = id then none else r.context? other :=
  lookup_filter_ne r.contexts id other

theorem run_release_of_ne (hroot : id ≠ rootContext) (hactive : id ≠ r.active) :
    run (release id) r = (.ok ⟨⟩, r.without id) := by
  have hneither : ¬ (id = rootContext ∨ id = r.active) := not_or.mpr ⟨hroot, hactive⟩
  change (Except.ok (), if _ then _ else _) = _
  rw [if_neg hneither]
  rfl

theorem Tracks.without (h : r.Tracks callbacks held) (hroot : id ≠ rootContext)
    (hactive : id ≠ r.active) (hid : id ∉ callbacks ++ held) :
    (r.without id).Tracks callbacks held := by
  have hsound := (Operation.keepsSound_release h.sound id).sound
  rw [Operation.run_release, if_neg (not_or.mpr ⟨hroot, hactive⟩)] at hsound
  refine ⟨hsound, fun entry hentry => h.pending entry (List.mem_of_mem_filter hentry), h.distinct,
    h.root, fun other hother => ?_⟩
  rw [context?_without, if_neg (ne_of_mem_of_not_mem hother hid)]
  exact h.live other hother

theorem holds_without (hid : id ∉ held) : r.Holds held (r.without id) := by
  refine ⟨rfl, fun other hother _ c hc => ?_⟩
  rw [context?_without, if_neg (ne_of_mem_of_not_mem hother hid)]
  exact hc

end Recorder

/-! ## Recordings -/

/-- What a recording comes to.  It is not out of order if it has reason to be strict. -/
structure Goes {α : Type} (strict : Prop) (callbacks held : List ContextId) (r : Recorder)
    (result : Except TraceError α × Recorder) (Q : α → Recorder → Prop) : Prop where
  tracks : result.2.Tracks callbacks held
  stays : r.Stays result.2
  error : strict → ∀ e, result.1 = .error e → ¬ e.IsMisuse
  ok : ∀ a, result.1 = .ok a → Q a result.2

namespace Operation

/-- What an operation gives when it succeeds. -/
def Gives (op : Operation) (out : Outcome) : Prop :=
  ∃ c p, op.plan? c = some p ∧
    (p.finish = .give out ∨ ∃ base id, p.finish = .register base ∧ out = .context id)

/-- Only callbacks give contexts. -/
theorem finish_ne_context {op : Operation} {c : Context} {p : Plan} (hp : op.plan? c = some p)
    (id : ContextId) : p.finish ≠ .give (.context id) := by
  have hstatement (c : Context) (t : Trace) (pending : List (List Trace))
      (frames : Frame → List Frame → List Frame) {finish : Frame → List Frame → Finish}
      (hfinish : ∀ f fs, finish f fs ≠ .give (.context id)) :
      (Plan.statement c t pending frames finish).finish ≠ .give (.context id) := by
    unfold Plan.statement
    split
    · nofun
    · exact hfinish _ _
  cases op <;> cases hp
  case restart | pushArgs => nofun
  case bind | assign | primitive | branch | loop | label | call | callback =>
    exact hstatement c _ _ _ nofun
  case iterate =>
    unfold Plan.iterate
    repeat' split
    all_goals nofun
  case breakTo =>
    refine hstatement c _ _ _ fun f fs => ?_
    split <;> nofun
  case enterBody =>
    unfold Plan.enterBody
    split
    · nofun
    · split
      · nofun
      · exact hstatement _ _ _ _ nofun
  case popArgs =>
    unfold Plan.popArgs
    split <;> nofun
  case exit =>
    unfold Plan.exit
    split <;> nofun

end Operation

namespace Goes

variable {α β : Type} {strict : Prop} {callbacks held : List ContextId} {r : Recorder}
  {x : Recording α} {Q : α → Recorder → Prop}

theorem bind {f : α → Recording β} {R : β → Recorder → Prop}
    (h : Goes strict callbacks held r (run x r) Q)
    (hnext : ∀ a r', r'.Tracks callbacks held → r.Stays r' → Q a r' →
      Goes strict callbacks held r' (run (f a) r') R) :
    Goes strict callbacks held r (run (x >>= f) r) R := by
  rw [run_bind]
  generalize run x r = result at h ⊢
  obtain ⟨result, r'⟩ := result
  cases result with
  | error e =>
      refine ⟨h.tracks, h.stays, fun hstrict e' he => ?_, nofun⟩
      cases he
      exact h.error hstrict e rfl
  | ok a =>
      have hnext := hnext a r' h.tracks h.stays (h.ok a rfl)
      exact ⟨hnext.tracks, h.stays.trans hnext.stays, hnext.error, hnext.ok⟩

theorem imp {result : Except TraceError α × Recorder} {R : α → Recorder → Prop}
    (h : Goes strict callbacks held r result Q) (himp : ∀ a r', Q a r' → R a r') :
    Goes strict callbacks held r result R :=
  ⟨h.tracks, h.stays, h.error, fun a ha => himp a _ (h.ok a ha)⟩

theorem with_stays {result : Except TraceError α × Recorder}
    (h : Goes strict callbacks held r result Q) :
    Goes strict callbacks held r result fun a r' => Q a r' ∧ r.Stays r' :=
  ⟨h.tracks, h.stays, h.error, fun a ha => ⟨h.ok a ha, h.stays⟩⟩

/-- A recording of which only the result is given otherwise. -/
theorem of_map {f : α → β} {R : β → Recorder → Prop}
    (h : Goes strict callbacks held r (run (do return f (← x)) r) R) :
    Goes strict callbacks held r (run x r) fun a r' => R (f a) r' := by
  rw [run_bind] at h
  generalize run x r = result at h ⊢
  obtain ⟨result, r'⟩ := result
  cases result with
  | error e =>
      refine ⟨h.tracks, h.stays, fun hstrict e' he => ?_, nofun⟩
      cases he
      exact h.error hstrict e rfl
  | ok a =>
      refine ⟨h.tracks, h.stays, nofun, fun b hb => ?_⟩
      cases hb
      exact h.ok _ rfl

theorem perform (h : r.Tracks callbacks held) (op : Operation) (hop : op.Plain)
    (hplan : ∀ c, (op.plan? c).isSome) {F : List Frame → Prop}
    (hleads : strict → op.Leads r.frames F) :
    Goes strict callbacks held r (run op.perform r) fun out r' => (strict → F r'.frames) ∧
      op.Gives out ∧ (∀ ts, out = .args ts → ∀ t ∈ ts, Trace.Plain t) ∧
      ∀ id, out = .context id → id = r.nextContext ∧ ∃ c, r'.context? id = some c := by
  obtain ⟨c, hc⟩ := h.sound.active
  obtain ⟨p, hp⟩ := Option.isSome_iff_exists.mp (hplan c)
  have hperformed := Operation.performed h.sound h.pending hop hc hp
  have hleads' (hstrict : strict) := hleads hstrict c (Recorder.frames_eq hc).symm p hp
  refine ⟨h.performed hperformed, hperformed.stays, fun hstrict e he hmisuse => ?_,
    fun out hout => ?_⟩
  · exact (hleads' hstrict).1 e (hperformed.error he hmisuse) hmisuse
  · obtain ⟨hactive, hfinish⟩ := hperformed.ok hout
    refine ⟨fun hstrict => ?_, ⟨c, p, hp, ?_⟩, fun ts heq => ?_, fun id heq => ?_⟩
    · rw [Recorder.frames_eq hactive]
      refine (hleads' hstrict).2 fun e hfail => ?_
      rcases hfinish with hgive | ⟨_, hregister, -⟩
      · cases hgive.symm.trans hfail
      · cases hregister.symm.trans hfail
    · exact hfinish.imp_right fun ⟨base, hregister, hcontext, _⟩ => ⟨base, _, hregister, hcontext⟩
    · exact hperformed.args (heq ▸ hout)
    · rcases hfinish with hgive | ⟨base, -, hcontext, hnew, -⟩
      · exact absurd (heq ▸ hgive) (Operation.finish_ne_context hp id)
      · cases heq.symm.trans hcontext
        exact ⟨rfl, _, hnew⟩

end Goes

end TraceLoom
