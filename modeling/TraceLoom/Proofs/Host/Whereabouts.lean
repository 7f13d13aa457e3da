import TraceLoom.Proofs.Execution.Subscribing
import TraceLoom.Proofs.Host.Scene
import TraceLoom.Proofs.Recorder.Contexts

/-!
Where an adapter is: which context of the recorder and which conversation is active.  Only entering
and leaving a callback changes that, and a callback that cannot be entered does not.
-/

namespace TraceLoom

variable {α β : Type}

/-! ## Steps that stay in one place -/

namespace Adapter

variable {a b c : Adapter} {x : Adapting α} {f : α → Adapting β}

/-- The later adapter is where the earlier one was. -/
structure Onward (a b : Adapter) : Prop where
  recorder : Option.Rel Recorder.Onward a.recorder b.recorder
  conversation : b.conversation = a.conversation

theorem Onward.of_eq (hrecorder : b.recorder = a.recorder)
    (hconversation : b.conversation = a.conversation) : a.Onward b := by
  refine ⟨?_, hconversation⟩
  rw [hrecorder]
  cases a.recorder with
  | none => exact .none
  | some r => exact .some (.refl r)

theorem Onward.refl (a : Adapter) : a.Onward a :=
  .of_eq rfl rfl

theorem Onward.trans (h : a.Onward b) (h' : b.Onward c) : a.Onward c := by
  refine ⟨?_, h'.conversation.trans h.conversation⟩
  obtain ⟨h, -⟩ := h
  obtain ⟨h', -⟩ := h'
  generalize a.recorder = ra, b.recorder = rb, c.recorder = rc at h h'
  cases h with
  | none =>
      cases h'
      exact .none
  | some h =>
      cases h' with
      | some h' => exact .some (h.trans h')

theorem Onward.whereabouts_eq (h : a.Onward b) : b.whereabouts = a.whereabouts := by
  obtain ⟨hrecorder, hconversation⟩ := h
  rw [whereabouts, whereabouts, hconversation]
  generalize a.recorder = ra, b.recorder = rb at hrecorder
  cases hrecorder with
  | none => rfl
  | some h => simp [h.active]

/-- A step that stays where it is. -/
def Remains (x : Adapting α) : Prop :=
  ∀ a : Adapter, a.Onward (a.run x).2

theorem remains_pure (v : α) : Remains (pure v) :=
  Onward.refl

theorem Remains.bind (hx : Remains x) (hf : ∀ v, Remains (f v)) : Remains (x >>= f) := by
  intro a
  rw [run_bind]
  have h : a.Onward (a.run x).2 := hx a
  generalize a.run x = result at h ⊢
  obtain ⟨result, b⟩ := result
  cases result with
  | ok v => exact h.trans (hf v b)
  | error e => exact h

theorem remains_get_bind {f : Adapter → Adapting β} (hf : ∀ a : Adapter, a.Onward (a.run (f a)).2) :
    Remains (get >>= f) := by
  intro a
  rw [run_bind, run_get]
  exact hf a

theorem remains_record {x : Recording α} (hx : Recording.Remains x) : Remains (record x) := by
  intro a
  cases h : a.recorder with
  | none =>
      have hrun : a.run (record x) = (.error .noOpenBlock, a) := by
        rw [record, run_bind, run_get]
        dsimp only
        rw [h]
        rfl
      rw [hrun]
      exact .refl a
  | some r =>
      rw [run_record h]
      exact ⟨h ▸ .some (hx r), rfl⟩

theorem run_discard {r : Recorder} (h : a.recorder = some r) {registration : Registration}
    {id : ContextId} (hid : registration.context = some id) :
    a.run (discard registration) =
      (.ok (), { a with recorder := some (Recording.run (Recorder.release id) r).2 }) := by
  rw [discard, run_bind, run_get]
  dsimp only
  rw [h, hid]
  exact run_record h _

theorem run_discard_of_none (h : a.recorder = none) (registration : Registration) :
    a.run (discard registration) = (.ok (), a) := by
  rw [discard, run_bind, run_get]
  dsimp only
  rw [h]
  rfl

theorem remains_register (event : Event) : Remains (register event) := by
  refine remains_get_bind fun a => ?_
  split
  · exact ((remains_record Recorder.retains_popArgs.remains).bind fun args =>
      (remains_record (Recorder.remains_callback _ _ _ _)).bind fun context =>
        remains_pure _) a
  · exact .refl a

/-- A registered callback gets a context with a number that none had before. -/
theorem run_register_of_ok {r : Recorder} (h : a.recorder = some r) {event : Event}
    {registration : Registration} (hrun : a.run (register event) = (.ok registration, b)) :
    ∃ r' id, b.recorder = some r' ∧ registration.context = some id ∧ r.nextContext ≤ id ∧
      id < r'.nextContext := by
  rw [run_register h, Recorder.registering, Recording.run_bind] at hrun
  have hpop : r.Onward (Recording.run Recorder.popArgs r).2 :=
    Recorder.retains_popArgs.remains r
  generalize Recording.run Recorder.popArgs r = popped at hrun hpop
  obtain ⟨result, r₁⟩ := popped
  cases result with
  | error e => cases hrun
  | ok args =>
      dsimp only at hrun
      cases hcallback : Recording.run (Recorder.callback event.name _ ["clos", event.param] _) r₁ with
      | mk result r₂ =>
          rw [hcallback] at hrun
          cases result with
          | error e => cases hrun
          | ok id =>
              cases hrun
              obtain ⟨hle, hlt, -⟩ := Recorder.run_callback_of_ok hcallback
              exact ⟨r₂, id, rfl, rfl, Nat.le_trans hpop.next hle, hlt⟩

theorem remains_settle (value : Json) : Remains (settle value) := by
  refine remains_get_bind fun a => ?_
  cases hconversation : a.conversation with
  | none => exact .refl a
  | some id =>
      dsimp only
      split
      · exact .of_eq rfl hconversation.symm
      · exact .refl a

theorem remains_respond (value : Json) : Remains (respond value) := by
  refine remains_get_bind fun a => ?_
  split
  · exact ((remains_record Recorder.retains_popArgs.remains).bind fun args =>
      (remains_record (Recorder.retains_primitive _ _).remains).bind fun _ =>
        remains_settle value) a
  · exact remains_settle value a

theorem onward_fetch (a : Adapter) (method : Event) (url : String) (body : Option Json) :
    a.Onward (a.fetch method url body).2 := by
  unfold fetch
  split
  · split
    · exact .refl a
    · exact .of_eq rfl rfl
  · exact .refl a

/-- A callback is entered, or everything is where it was. -/
theorem run_enter_cases {r : Recorder} (h : a.recorder = some r) (hr : r.Live r.active)
    {registration : Registration} {id : ContextId} (hid : registration.context = some id)
    (conversation : Option ConversationId) :
    (∃ e b, a.run (enter registration conversation) = (.error e, b) ∧ a.Onward b) ∨
      r.Live id ∧ ∃ r', ({ r with active := id } : Recorder).Onward r' ∧
        a.run (enter registration conversation) =
          (.ok ⟨registration.event, some r.active, a.conversation⟩,
            { a with
              recorder := some r'
              conversation := conversation.or registration.conversation }) := by
  cases hc : r.context? id with
  | none =>
      refine .inl ⟨.unknownContext id, { a with recorder := some r }, ?_, .of_eq h.symm rfl⟩
      have hswitch : Recording.run (Recorder.switchTo id) r = (.error (.unknownContext id), r) := by
        rw [Recorder.switchTo, Recording.run_bind, Recording.run_get]
        dsimp only
        rw [hc]
        rfl
      rw [enter, run_bind, run_get]
      dsimp only
      rw [h, hid]
      dsimp only
      rw [run_bind, run_record h, hswitch]
  | some c =>
      rw [run_enter h hid hc]
      have hbegin : Recording.Remains (Recorder.begin
          [.name "clos", .name registration.event.param]) :=
        (Recorder.retains_restart.bind fun _ => Recorder.retains_pushArgs _).remains
      have honward : Recorder.Onward { r with active := id } (Recording.run (Recorder.begin
          [.name "clos", .name registration.event.param]) { r with active := id }).2 := hbegin _
      generalize Recording.run (Recorder.begin _) { r with active := id } = result at honward
      obtain ⟨result, r'⟩ := result
      cases result with
      | ok _ => exact .inr ⟨⟨c, hc⟩, r', honward, rfl⟩
      | error e =>
          obtain ⟨d, hd⟩ : ∃ d, r'.context? r.active = some d := honward.live r.active hr
          dsimp only
          rw [Recorder.run_switchTo hd]
          refine .inl ⟨e, _, rfl, ?_, rfl⟩
          rw [h]
          exact .some ⟨rfl, honward.next, honward.live, honward.fresh⟩

theorem active_restored (r : Recorder) (isRepeating : Bool) (context previous : ContextId) :
    (restored r isRepeating context previous).active = previous := by
  unfold restored
  split
  · rfl
  · change (if _ then _ else _ : Recorder).active = previous
    split <;> rfl

end Adapter

end TraceLoom
