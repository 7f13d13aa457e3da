import TraceLoom.Proofs.Host.Whereabouts

/-!
Errors are final.  A recorder that failed refuses every operation that records, and its trace stays
as it is; only changing and releasing contexts goes on.  Three errors do not count as failures of
the recorder: an unknown context, an answer outside of any conversation, and a second answer.
-/

namespace TraceLoom

variable {α β : Type} {cause e : TraceError}

/-- The errors that leave the recorder as it is. -/
def TraceError.IsPassing : TraceError → Prop
  | unknownContext _ | noConversation | unknownConversation _ => True
  | _ => False

/-! ## Operations of the recorder -/

namespace Recorder

variable {r r' r'' : Recorder}

/-- A failed recorder stays failed, with the trace it has. -/
def Settled (r r' : Recorder) : Prop :=
  ∀ cause, r.failure = some cause → r'.failure = some cause ∧ r'.root = r.root

theorem Settled.refl (r : Recorder) : r.Settled r :=
  fun _ h => ⟨h, rfl⟩

theorem Settled.trans (h : r.Settled r') (h' : r'.Settled r'') : r.Settled r'' := by
  intro cause hcause
  obtain ⟨hcause', hroot⟩ := h cause hcause
  obtain ⟨hcause'', hroot'⟩ := h' cause hcause'
  exact ⟨hcause'', hroot'.trans hroot⟩

end Recorder

namespace Recording

variable {x : Recording α} {f : α → Recording β} {r r' : Recorder}

/-- Failures before are kept, and errors are failures. -/
structure Final (x : Recording α) : Prop where
  settled : ∀ r : Recorder, r.Settled (run x r).2
  failed : ∀ r e, (run x r).1 = .error e → (run x r).2.isPoisoned ∨ e.IsPassing

theorem run_guarded_of_failure (x : Recording α) (h : r.failure = some cause) :
    run (guarded x) r = (.error (.poisoned cause), r) := by
  rw [run_guarded, h]

theorem run_bind_of_failure (h : r.failure = some cause) (x : Recording α)
    (f : α → Recording β) : run (guarded x >>= f) r = (.error (.poisoned cause), r) := by
  rw [run_bind, run_guarded_of_failure x h]

theorem final_guarded (x : Recording α) : Final (guarded x) where
  settled r cause h := by
    rw [run_guarded_of_failure x h]
    exact ⟨h, rfl⟩
  failed r e h := by
    rw [run_guarded] at h ⊢
    cases hfailure : r.failure with
    | some cause => exact .inl (by simp [Recorder.isPoisoned, hfailure])
    | none =>
        simp only [hfailure] at h ⊢
        generalize run x r = result at h ⊢
        obtain ⟨_ | v, r'⟩ := result
        · exact .inl rfl
        · cases h

theorem final_switchTo (id : ContextId) : Final (Recorder.switchTo id) where
  settled r := by
    rw [Recorder.switchTo, run_bind, run_get]
    dsimp only
    cases r.context? id <;> exact fun _ h => ⟨h, rfl⟩
  failed r e h := by
    rw [Recorder.switchTo, run_bind, run_get] at h
    dsimp only at h
    cases hid : r.context? id with
    | none =>
        rw [hid] at h
        cases h
        exact .inr trivial
    | some c =>
        rw [hid] at h
        cases h

theorem final_release (id : ContextId) : Final (Recorder.release id) where
  settled r cause h := by
    rw [Recorder.release, run_modify]
    dsimp only
    split <;> exact ⟨h, rfl⟩
  failed r e h := by cases h

theorem Final.map (hx : Final x) (g : α → β) : Final (x >>= fun v => pure (g v)) where
  settled r := by
    have h := hx.settled r
    rw [run_bind]
    generalize run x r = result at h ⊢
    obtain ⟨_ | v, r'⟩ := result <;> exact h
  failed r e he := by
    have h := hx.failed r
    rw [run_bind] at he ⊢
    generalize run x r = result at h he ⊢
    obtain ⟨e' | v, r'⟩ := result
    · cases he
      exact h e rfl
    · cases he

end Recording

/-! ## Steps of the adapter -/

namespace Adapter

variable {a b c : Adapter} {r : Recorder} {x : Adapting α} {f : α → Adapting β}

/-- The adapter still records, and a failure of its recorder is final. -/
def Settled (a b : Adapter) : Prop :=
  Option.Rel Recorder.Settled a.recorder b.recorder

theorem Settled.of_eq (h : b.recorder = a.recorder) : a.Settled b := by
  rw [Settled, h]
  cases a.recorder with
  | none => exact .none
  | some r => exact .some (.refl r)

theorem Settled.trans (h : a.Settled b) (h' : b.Settled c) : a.Settled c := by
  rw [Settled] at h h' ⊢
  generalize a.recorder = ra, b.recorder = rb, c.recorder = rc at h h'
  cases h with
  | none => exact h'
  | some h =>
      cases h' with
      | some h' => exact .some (h.trans h')

/-- Whether the recorder cannot be used any more. -/
def isFailed (a : Adapter) : Bool :=
  a.recorder.any Recorder.isPoisoned

theorem Settled.isFailed (h : a.Settled b) (ha : a.isFailed = true) : b.isFailed = true := by
  rw [Settled] at h
  rw [Adapter.isFailed] at ha ⊢
  generalize a.recorder = ra, b.recorder = rb at h ha ⊢
  cases h with
  | none => exact ha
  | @some r r' h =>
      obtain ⟨cause, hcause⟩ := Option.isSome_iff_exists.mp ha
      simp [Recorder.isPoisoned, (h cause hcause).1]

/-- What `Recording.Final` says, of a step of an adapter that records. -/
structure FinalAt (a : Adapter) (x : Adapting α) : Prop where
  settled : a.Settled (a.run x).2
  failed : ∀ e, a.isTracing = true → (a.run x).1 = .error e →
    (a.run x).2.isFailed = true ∨ e.IsPassing

def Final (x : Adapting α) : Prop :=
  ∀ a : Adapter, a.FinalAt x

theorem Settled.isTracing (h : a.Settled b) : b.isTracing = a.isTracing := by
  rw [Settled] at h
  rw [Adapter.isTracing, Adapter.isTracing]
  generalize a.recorder = ra, b.recorder = rb at h
  cases h <;> rfl

theorem finalAt_of_run_ok {v : α} (hrun : a.run x = (.ok v, b)) (h : b.recorder = a.recorder) :
    a.FinalAt x where
  settled := by
    rw [hrun]
    exact .of_eq h
  failed e _ he := by
    rw [hrun] at he
    cases he

theorem final_pure (v : α) : Final (pure v) := fun a =>
  finalAt_of_run_ok (run_pure a v) rfl

theorem final_throw (h : e.IsPassing) : Final (throw e : Adapting α) := fun _ =>
  ⟨.of_eq rfl, fun _ _ he => by cases he; exact .inr h⟩

theorem FinalAt.bind (hx : a.FinalAt x) (hf : ∀ v, Final (f v)) : a.FinalAt (x >>= f) := by
  obtain ⟨h, hfailed⟩ := hx
  constructor
  · rw [run_bind]
    generalize a.run x = result at h ⊢
    obtain ⟨_ | v, b⟩ := result
    · exact h
    · exact h.trans (hf v b).settled
  · intro e ha he
    rw [run_bind] at he ⊢
    generalize a.run x = result at h hfailed he ⊢
    obtain ⟨e' | v, b⟩ := result
    · cases he
      exact hfailed e ha rfl
    · exact (hf v b).failed e (h.isTracing.trans ha) he

theorem Final.bind (hx : Final x) (hf : ∀ v, Final (f v)) : Final (x >>= f) := fun a =>
  (hx a).bind hf

/-- The next step may be chosen by what the adapter is. -/
theorem final_get_bind {f : Adapter → Adapting β} (hf : ∀ a : Adapter, a.FinalAt (f a)) :
    Final (get >>= f) := by
  intro a
  have h : a.run (get >>= f) = a.run (f a) := by rw [run_bind, run_get]
  constructor
  · rw [h]
    exact (hf a).settled
  · rw [h]
    exact (hf a).failed

theorem final_modify {f : Adapter → Adapter} (hf : ∀ a, (f a).recorder = a.recorder) :
    Final (modify f : Adapting Unit) := fun a =>
  finalAt_of_run_ok (run_modify a f) (hf a)

/-- An error that is thrown again after other steps is as final as it was. -/
theorem Final.rethrow (hx : Final x) {g : TraceError → Adapting β} (hg : ∀ e, Final (g e)) :
    Final (tryCatch x fun e => g e >>= fun _ => throw e) := by
  intro a
  obtain ⟨h, hfailed⟩ := hx a
  constructor
  · rw [run_tryCatch]
    generalize a.run x = result at h ⊢
    obtain ⟨e | v, b⟩ := result
    · dsimp only
      rw [run_bind]
      have h' := (hg e b).settled
      generalize b.run (g e) = result' at h' ⊢
      obtain ⟨_ | v, c⟩ := result' <;> exact h.trans h'
    · exact h
  · intro e ha he
    rw [run_tryCatch] at he ⊢
    generalize a.run x = result at h hfailed he ⊢
    obtain ⟨e₁ | v, b⟩ := result
    · dsimp only at he ⊢
      rw [run_bind] at he ⊢
      obtain ⟨h', hfailed'⟩ := hg e₁ b
      generalize b.run (g e₁) = result' at h' hfailed' he ⊢
      obtain ⟨e₂ | v, c⟩ := result'
      · cases he
        exact hfailed' e (h.isTracing.trans ha) rfl
      · cases he
        exact (hfailed e ha rfl).imp_left h'.isFailed
    · cases he

/-- An error that is put off until other steps are over is as final as it was. -/
theorem Final.putOff {x : Adapting Unit} (hx : Final x) {g : Except TraceError Unit → Adapting β}
    (hg : ∀ v, Final (g v)) :
    Final (tryCatch (x >>= fun _ => pure (.ok ())) (fun e => pure (.error e)) >>= fun v =>
      g v >>= fun _ => MonadExcept.ofExcept v) := by
  intro a
  obtain ⟨h, hfailed⟩ := hx a
  have hrun : a.run (tryCatch (x >>= fun _ => pure (.ok ())) (fun e => pure (.error e)) >>= fun v =>
      g v >>= fun _ => MonadExcept.ofExcept v) =
      (a.run x).2.run (g (a.run x).1 >>= fun _ => MonadExcept.ofExcept (a.run x).1) := by
    rw [run_bind, run_tryCatch, run_bind]
    rcases a.run x with ⟨_ | v, b⟩ <;> rfl
  obtain ⟨h', hfailed'⟩ := hg (a.run x).1 (a.run x).2
  constructor
  · rw [hrun, run_bind]
    generalize (a.run x).2.run (g (a.run x).1) = result at h' ⊢
    obtain ⟨_ | v, c⟩ := result
    · exact h.trans h'
    · dsimp only
      rw [run_ofExcept]
      exact h.trans h'
  · intro e ha he
    rw [hrun, run_bind] at he ⊢
    generalize (a.run x).2.run (g (a.run x).1) = result at h' hfailed' he ⊢
    obtain ⟨e' | v, c⟩ := result
    · cases he
      exact hfailed' e (h.isTracing.trans ha) rfl
    · dsimp only at he ⊢
      rw [run_ofExcept] at he ⊢
      exact (hfailed e ha he).imp_left h'.isFailed

theorem final_record {x : Recording α} (hx : Recording.Final x) : Final (record x) := by
  intro a
  constructor
  · cases h : a.recorder with
    | none =>
        rw [record, run_bind, run_get]
        dsimp only
        rw [h]
        exact .of_eq rfl
    | some r =>
        rw [run_record h, Settled, h]
        exact .some (hx.settled r)
  · intro e ha he
    obtain ⟨r, hr⟩ := Option.isSome_iff_exists.mp ha
    rw [run_record hr] at he ⊢
    exact hx.failed r e he

theorem final_record_guarded (x : Recording α) : Final (record (Recording.guarded x)) :=
  final_record (Recording.final_guarded x)

theorem final_perform (op : Operation) : Final (record op.perform) := by
  refine final_record ?_
  cases op with
  | switchTo id => exact (Recording.final_switchTo id).map _
  | release id => exact (Recording.final_release id).map _
  | _ => exact (Recording.final_guarded _).map _

theorem run_record_of_failure (h : a.recorder = some r) (hr : r.failure = some cause)
    (x : Recording α) : a.run (record (Recording.guarded x)) = (.error (.poisoned cause), a) := by
  rw [run_record h, Recording.run_guarded_of_failure x hr, ← h]

theorem run_bind_of_failure (h : a.recorder = some r) (hr : r.failure = some cause)
    (x : Recording α) (f : α → Adapting β) :
    a.run (record (Recording.guarded x) >>= f) = (.error (.poisoned cause), a) := by
  rw [run_bind, run_record_of_failure h hr]

theorem final_register (event : Event) : Final (register event) :=
  final_get_bind fun a => by
    split
    · exact ((final_record_guarded _).bind fun _ =>
        (final_record_guarded _).bind fun _ => final_pure _) a
    · exact final_pure _ a

theorem final_discard (registration : Registration) : Final (discard registration) :=
  final_get_bind fun a => by
    split
    · exact final_record (Recording.final_release _) a
    · exact final_pure _ a

theorem final_enter (registration : Registration) (conversation : Option ConversationId) :
    Final (enter registration conversation) :=
  final_get_bind fun a => by
    have hgiven (previous : Option ContextId) : Final (do
        modify fun a => { a with conversation := conversation.or registration.conversation }
        return (⟨registration.event, previous, a.conversation⟩ : Firing)) :=
      (final_modify fun _ => by rfl).bind fun _ => final_pure _
    dsimp only
    split
    · refine ((final_record (Recording.final_switchTo _)).bind fun previous => ?_) a
      refine Final.bind ?_ fun _ => hgiven _
      exact Final.rethrow ((final_record_guarded _).bind fun _ => final_record_guarded _)
        fun _ => final_record (Recording.final_switchTo _)
    · exact hgiven _ a

theorem final_leave (firing : Firing) (completed : Bool) : Final (leave firing completed) := by
  unfold leave
  refine Final.bind (final_modify fun _ => by rfl) fun _ => final_get_bind fun a => ?_
  split
  next r previous _ _ =>
    have hback : Final (do
        let _ ← record (Recorder.switchTo previous)
        if !firing.event.isRepeating then record (Recorder.release r.active)) := by
      refine (final_record (Recording.final_switchTo _)).bind fun _ => ?_
      split
      · exact final_record (Recording.final_release _)
      · exact final_pure _
    have hclosed := Final.putOff
      ((final_record_guarded _).bind fun _ => final_record_guarded _ : Final (do
        record Recorder.exit
        record Recorder.restart)) (fun _ => hback)
    have hgiven := hback.bind fun _ => final_pure ()
    dsimp only
    cases hrepeating : firing.event.isRepeating <;> split <;>
      simp only [hrepeating, bind_assoc, pure_bind, Bool.not_false, Bool.not_true, if_true,
        Bool.false_eq_true, if_false] at hclosed hgiven ⊢ <;>
      first
      | exact hclosed a
      | exact hgiven a
  · exact final_pure _ a

theorem final_settle (value : Json) : Final (settle value) :=
  final_get_bind fun a => by
    split
    · exact final_throw (by trivial) a
    · split
      · exact finalAt_of_run_ok rfl rfl
      · exact final_throw (by trivial) a

theorem final_respond (value : Json) : Final (respond value) :=
  final_get_bind fun a => by
    dsimp only
    split
    · exact ((final_record_guarded _).bind fun _ => (final_record_guarded _).bind fun _ =>
        final_settle value) a
    · exact final_settle value a

end Adapter

/-! ## Whole courses -/

/-- The moves that record something and give no context back. -/
def Move.isRecording : Move → Bool
  | .operation (.switchTo _) | .operation (.release _) => false
  | .operation _ | .register _ | .respond _ => true
  | _ => false

namespace Scene

variable {s : Scene} {r : Recorder}

theorem settled_perform (s : Scene) (move : Move) :
    s.adapter.Settled (s.perform move).2.adapter := by
  have hsame : s.adapter.Settled s.adapter := .of_eq rfl
  cases move with
  | operation op => exact (Adapter.final_perform op s.adapter).settled
  | tracing | trace => exact hsame
  | register event =>
      have h := (Adapter.final_register event s.adapter).settled
      simp only [perform]
      generalize s.adapter.run (Adapter.register event) = result at h ⊢
      obtain ⟨_ | _, _⟩ := result <;> exact h
  | discard i =>
      simp only [perform]
      cases s.callbacks[i]? with
      | none => exact hsame
      | some registration => exact (Adapter.final_discard registration s.adapter).settled
  | enter i conversation =>
      simp only [perform]
      cases s.callbacks[i]? with
      | none => exact hsame
      | some registration =>
          have h := (Adapter.final_enter registration (s.conversation? conversation)
            s.adapter).settled
          dsimp only
          generalize s.adapter.run (Adapter.enter registration _) = result at h ⊢
          obtain ⟨_ | _, _⟩ := result <;> exact h
  | leave completed =>
      simp only [perform]
      cases s.visits with
      | nil => exact hsame
      | cons visit visits => exact (Adapter.final_leave visit.firing completed s.adapter).settled
  | respond value => exact (Adapter.final_respond value s.adapter).settled
  | fetch method url body =>
      simp only [perform, Adapter.fetch]
      repeat' split
      all_goals exact hsame
  | openConversation => exact .of_eq rfl
  | takeResponse c =>
      simp only [perform]
      cases s.conversations[c]? with
      | none => exact hsame
      | some id => exact .of_eq rfl

theorem settled_after (s : Scene) (moves : List Move) :
    s.adapter.Settled (s.after moves).adapter := by
  induction moves generalizing s with
  | nil => exact .of_eq rfl
  | cons move moves ih =>
      rw [after_cons]
      exact (settled_perform s move).trans (ih _)

/-- A failed recorder refuses whatever records. -/
theorem perform_of_failure (h : s.adapter.recorder = some r) (hr : r.failure = some cause)
    {move : Move} (hmove : move.isRecording = true) :
    (s.perform move).1 = .error (.poisoned cause) := by
  have htracing : s.adapter.isTracing = true := by simp [Adapter.isTracing, h]
  cases move with
  | operation op =>
      have hrun : Recording.run op.perform r = (.error (.poisoned cause), r) := by
        cases op with
        | switchTo | release => cases hmove
        | _ => exact Recording.run_bind_of_failure hr _ _
      rw [perform, ask, Adapter.run_record h, hrun]
      rfl
  | register event =>
      have hrun : s.adapter.run (Adapter.register event) = (.error (.poisoned cause), s.adapter) := by
        rw [Adapter.register, Adapter.run_bind, Adapter.run_get]
        simp only [htracing, if_true]
        exact Adapter.run_bind_of_failure h hr _ _
      rw [perform, hrun]
  | respond value =>
      have hrun : s.adapter.run (Adapter.respond value) = (.error (.poisoned cause), s.adapter) := by
        rw [Adapter.respond, Adapter.run_bind, Adapter.run_get]
        simp only [htracing, if_true]
        exact Adapter.run_bind_of_failure h hr _ _
      rw [perform, ask, hrun]
      rfl
  | _ => cases hmove

/-- Once the recorder failed, whatever records is refused with the same cause, and the trace stays
as it is. -/
theorem poisoned_of_failure (h : s.adapter.recorder = some r) (hr : r.failure = some cause)
    (moves : List Move) :
    (∀ move : Move, move.isRecording = true →
      ((s.after moves).perform move).1 = .error (.poisoned cause)) ∧
    (s.after moves).adapter.recorder.map Recorder.trace = some r.trace := by
  have hsettled := settled_after s moves
  rw [Adapter.Settled, h] at hsettled
  generalize hafter : (s.after moves).adapter.recorder = recorder at hsettled ⊢
  cases hsettled with
  | @some _ r' hsettled =>
      obtain ⟨hr', hroot⟩ := hsettled cause hr
      exact ⟨fun move hmove => perform_of_failure hafter hr' hmove,
        congrArg (fun root => some (Trace.block root)) hroot⟩

theorem run_eq_error_of_ask {step : Adapting α} {answer : α → Answer}
    (h : (s.ask step answer).1 = .error e) : (s.adapter.run step).1 = .error e := by
  rw [ask] at h
  generalize s.adapter.run step = result at h ⊢
  obtain ⟨_ | _, _⟩ := result
  · exact congrArg Except.error (Except.error.inj h)
  · cases h

/-- Whatever records and is refused makes the recorder fail, but for an answer that nobody waits
for. -/
theorem failed_of_error (hs : s.adapter.isTracing = true) {move : Move}
    (hmove : move.isRecording = true) (he : (s.perform move).1 = .error e) :
    (s.perform move).2.adapter.isFailed = true ∨ e.IsPassing := by
  cases move with
  | operation op =>
      exact (Adapter.final_perform op s.adapter).failed e hs (run_eq_error_of_ask he)
  | respond value =>
      exact (Adapter.final_respond value s.adapter).failed e hs (run_eq_error_of_ask he)
  | register event =>
      have h := (Adapter.final_register event s.adapter).failed e hs
      rw [perform] at he ⊢
      generalize s.adapter.run (Adapter.register event) = result at h he ⊢
      obtain ⟨_ | _, _⟩ := result
      · exact h (congrArg Except.error (Except.error.inj he))
      · cases he
  | _ => cases hmove

end Scene

end TraceLoom
