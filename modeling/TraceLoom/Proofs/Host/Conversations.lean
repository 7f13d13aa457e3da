import Mathlib.Data.List.Induction
import TraceLoom.Proofs.Execution.Subscribing
import TraceLoom.Proofs.Host.Log
import TraceLoom.Proofs.Host.Whereabouts

/-!
Who answers which request.  A log by itself tells in which conversation code runs: that of the
callback that was entered last, which is the one it was entered for, or else the one in which it
was registered.  Adapters keep to that.
-/

namespace TraceLoom

/-! ## Activities -/

/-- Who is running, as far as a log tells. -/
structure Activity where
  /-- For each callback, the conversation in which it was registered. -/
  owners : List (Option Nat)
  /-- The conversations of the callbacks that are running, the innermost first. -/
  running : List (Option Nat)

namespace Activity

/-- The conversation in which code runs.  Outside of callbacks there is none. -/
def current (a : Activity) : Option Nat :=
  a.running.head?.join

/-- The conversation in which a callback was registered. -/
def owner (a : Activity) (i : Nat) : Option Nat :=
  a.owners[i]?.join

def step (a : Activity) : Move × Reply → Activity
  | (.register _, .ok _) => { a with owners := a.owners ++ [a.current] }
  | (.enter i conversation, .ok _) =>
    { a with running := conversation.or (a.owner i) :: a.running }
  | (.leave _, _) => { a with running := a.running.tail }
  | _ => a

def after (log : Log) : Activity :=
  log.foldl step ⟨[], []⟩

theorem after_append (log log' : Log) : after (log ++ log') = log'.foldl step (after log) :=
  List.foldl_append

theorem after_concat (log : Log) (entry : Move × Reply) :
    after (log ++ [entry]) = (after log).step entry :=
  after_append log [entry]

end Activity

/-- In a conversation, there was a certain answer. -/
def Log.Answers (log : Log) (c : Nat) (value : Json) : Prop :=
  ∃ before later answer, log = before ++ (.respond value, .ok answer) :: later ∧
    (Activity.after before).current = some c

/-- The answer of a conversation has been taken. -/
def Log.Delivers (log : Log) (c : Nat) : Prop :=
  ∃ value, (.takeResponse c, .ok (.response (some value))) ∈ log

namespace Log

variable {log : Log} {c : Nat} {value : Json}

theorem answers_append {log' : Log} (h : log.Answers c value) : (log ++ log').Answers c value := by
  obtain ⟨before, later, answer, rfl, hcurrent⟩ := h
  exact ⟨before, later ++ log', answer, by simp, hcurrent⟩

theorem answers_concat {entry : Move × Reply} :
    (log ++ [entry]).Answers c value ↔ log.Answers c value ∨
      (∃ answer, entry = (.respond value, .ok answer)) ∧ (Activity.after log).current = some c := by
  constructor
  · rintro ⟨before, later, answer, hlog, hcurrent⟩
    rcases List.eq_nil_or_concat later with rfl | ⟨later, last, rfl⟩
    · obtain ⟨rfl, hentry⟩ := List.append_inj' hlog rfl
      exact .inr ⟨⟨answer, List.singleton_inj.mp hentry⟩, hcurrent⟩
    · rw [List.concat_eq_append, ← List.cons_append, ← List.append_assoc] at hlog
      obtain ⟨rfl, -⟩ := List.append_inj' hlog rfl
      exact .inl ⟨before, later, answer, rfl, hcurrent⟩
  · rintro (h | ⟨⟨answer, rfl⟩, hcurrent⟩)
    · exact answers_append h
    · exact ⟨log, [], answer, rfl, hcurrent⟩

theorem answers_concat_of_ne {e : Move × Reply}
    (h : ∀ value answer, e ≠ (.respond value, .ok answer)) :
    (log ++ [e]).Answers c value ↔ log.Answers c value := by
  rw [answers_concat]
  exact or_iff_left fun ⟨⟨answer, heq⟩, _⟩ => h value answer heq

theorem delivers_concat {entry : Move × Reply} :
    (log ++ [entry]).Delivers c ↔
      log.Delivers c ∨ ∃ value, entry = (.takeResponse c, .ok (.response (some value))) := by
  simp only [Delivers, List.mem_append, List.mem_singleton, exists_or, eq_comm]

theorem delivers_concat_of_ne {entry : Move × Reply}
    (h : ∀ c value, entry ≠ (.takeResponse c, .ok (.response (some value)))) :
    (log ++ [entry]).Delivers c ↔ log.Delivers c := by
  rw [delivers_concat]
  exact or_iff_left fun ⟨value, heq⟩ => h c value heq

end Log

/-! ## What adapters do about conversations -/

namespace Adapter

variable {α β : Type} {x : Adapting α} {f : α → Adapting β}

/-- A step that concerns the recorder alone. -/
def RecordsOnly (x : Adapting α) : Prop :=
  ∀ a : Adapter, ∃ recorder, (a.run x).2 = { a with recorder }

theorem recordsOnly_pure (v : α) : RecordsOnly (pure v) :=
  fun a => ⟨a.recorder, rfl⟩

theorem recordsOnly_throw (e : TraceError) : RecordsOnly (throw e : Adapting α) :=
  fun a => ⟨a.recorder, rfl⟩

theorem RecordsOnly.bind (hx : RecordsOnly x) (hf : ∀ v, RecordsOnly (f v)) :
    RecordsOnly (x >>= f) := by
  intro a
  obtain ⟨recorder, ha⟩ := hx a
  rw [run_bind]
  rcases hrun : a.run x with ⟨result, b⟩
  rw [hrun] at ha
  obtain rfl : b = { a with recorder } := ha
  cases result with
  | error e => exact ⟨recorder, rfl⟩
  | ok v =>
      obtain ⟨recorder', hb⟩ := hf v { a with recorder }
      exact ⟨recorder', hb⟩

theorem RecordsOnly.get_bind {f : Adapter → Adapting β} (hf : ∀ a, RecordsOnly (f a)) :
    RecordsOnly (get >>= f) :=
  fun a => hf a a

theorem RecordsOnly.tryCatch {handle : TraceError → Adapting α} (hx : RecordsOnly x)
    (hhandle : ∀ e, RecordsOnly (handle e)) : RecordsOnly (tryCatch x handle) := by
  intro a
  obtain ⟨recorder, ha⟩ := hx a
  rw [run_tryCatch]
  rcases hrun : a.run x with ⟨result, b⟩
  rw [hrun] at ha
  obtain rfl : b = { a with recorder } := ha
  cases result with
  | ok v => exact ⟨recorder, rfl⟩
  | error e =>
      obtain ⟨recorder', hb⟩ := hhandle e { a with recorder }
      exact ⟨recorder', hb⟩

theorem recordsOnly_record (x : Recording α) : RecordsOnly (record x) := by
  intro a
  cases h : a.recorder with
  | none =>
      refine ⟨none, ?_⟩
      rw [record, run_bind, run_get]
      dsimp only
      rw [h]
      exact congrArg (fun recorder => { a with recorder }) h
  | some r => exact ⟨_, congrArg Prod.snd (run_record h x)⟩

theorem recordsOnly_ofExcept (x : Except TraceError α) : RecordsOnly (MonadExcept.ofExcept x) := by
  cases x with
  | error e => exact recordsOnly_throw e
  | ok v => exact recordsOnly_pure v

theorem recordsOnly_discard (registration : Registration) : RecordsOnly (discard registration) := by
  refine .get_bind fun a => ?_
  split
  · exact recordsOnly_record _
  · exact recordsOnly_pure ()

theorem recordsOnly_register (event : Event) : RecordsOnly (register event) := by
  refine .get_bind fun a => ?_
  split
  · exact (recordsOnly_record _).bind fun _ => (recordsOnly_record _).bind fun _ =>
      recordsOnly_pure _
  · exact recordsOnly_pure _

/-- A callback belongs to the conversation in which it is registered. -/
theorem conversation_of_register {a b : Adapter} {event : Event} {registration : Registration}
    (h : a.run (register event) = (.ok registration, b)) :
    registration.conversation = a.conversation := by
  cases hr : a.recorder with
  | none =>
      rw [run_register_of_none hr] at h
      cases h
      rfl
  | some r =>
      rw [run_register hr] at h
      cases hresult : (Recording.run (Recorder.registering event) r).1 with
      | error e =>
          rw [hresult] at h
          cases h
      | ok id =>
          rw [hresult] at h
          cases h
          rfl

/-- What becomes of the conversation when a callback is entered. -/
theorem enter_cases (a : Adapter) (registration : Registration)
    (conversation : Option ConversationId) :
    (∃ e recorder, a.run (enter registration conversation) = (.error e, { a with recorder })) ∨
    ∃ firing recorder, a.run (enter registration conversation) = (.ok firing, { a with
        recorder, conversation := conversation.or registration.conversation }) ∧
      firing.previousConversation = a.conversation := by
  have hgoes {x : Adapting (Option ContextId)} (hx : RecordsOnly x) {y : Adapting Firing}
      (hy : y = x >>= fun previous => do
        modify fun a => { a with conversation := conversation.or registration.conversation }
        return ⟨registration.event, previous, a.conversation⟩) :
      (∃ e recorder, a.run y = (.error e, { a with recorder })) ∨
      ∃ firing recorder, a.run y = (.ok firing, { a with
          recorder, conversation := conversation.or registration.conversation }) ∧
        firing.previousConversation = a.conversation := by
    obtain ⟨recorder, ha⟩ := hx a
    rw [hy, run_bind]
    rcases hrun : a.run x with ⟨result, b⟩
    rw [hrun] at ha
    obtain rfl : b = { a with recorder } := ha
    cases result with
    | error e => exact .inl ⟨e, recorder, rfl⟩
    | ok previous => exact .inr ⟨_, recorder, rfl, rfl⟩
  rw [enter, run_bind, run_get]
  dsimp only
  split
  · rename_i context _ _
    refine hgoes (x := do
        let previous ← record (Recorder.switchTo context)
        tryCatch
          (do
            record Recorder.restart
            record (Recorder.pushArgs [.name "clos", .name registration.event.param]))
          fun error => do
            let _ ← record (Recorder.switchTo previous)
            throw error
        pure (some previous)) ?_ (by simp only [bind_assoc])
    refine (recordsOnly_record _).bind fun previous => ?_
    refine RecordsOnly.bind (.tryCatch ?_ fun e => ?_) fun _ => recordsOnly_pure _
    · exact (recordsOnly_record _).bind fun _ => recordsOnly_record _
    · exact (recordsOnly_record _).bind fun _ => recordsOnly_throw e
  · exact hgoes (recordsOnly_pure none) rfl

/-- Leaving a callback leads back to the conversation before. -/
theorem run_leave_conversation (a : Adapter) (firing : Firing) (completed : Bool) :
    ∃ recorder, (a.run (leave firing completed)).2 =
      { a with recorder, conversation := firing.previousConversation } := by
  rw [leave, run_bind, run_modify]
  dsimp only
  refine RecordsOnly.get_bind (fun b => ?_) { a with conversation := firing.previousConversation }
  split
  · rename_i r previous _ _
    have hback (closed : Except TraceError Unit) : RecordsOnly (do
        let _ ← record (Recorder.switchTo previous)
        if !firing.event.isRepeating then
          record (Recorder.release r.active)
          MonadExcept.ofExcept closed
        else MonadExcept.ofExcept closed) := by
      refine (recordsOnly_record _).bind fun _ => ?_
      split
      · exact (recordsOnly_record _).bind fun _ => recordsOnly_ofExcept closed
      · exact recordsOnly_ofExcept closed
    split
    · refine RecordsOnly.bind (.tryCatch ?_ fun _ => recordsOnly_pure _) hback
      exact (recordsOnly_record _).bind fun _ => (recordsOnly_record _).bind fun _ =>
        recordsOnly_pure _
    · exact (recordsOnly_pure _).bind hback
  · exact recordsOnly_pure ()

theorem fetch_network (a : Adapter) (method : Event) (url : String) (body : Option Json) :
    ∃ network, (a.fetch method url body).2 = { a with network } := by
  unfold fetch
  split
  · split
    · exact ⟨a.network, rfl⟩
    · exact ⟨_, rfl⟩
  · exact ⟨a.network, rfl⟩

theorem settle_cases (a : Adapter) (value : Json) :
    (∃ e, a.run (settle value) = (.error e, a)) ∨
    ∃ id, a.conversation = some id ∧ id ∈ a.pending ∧ a.run (settle value) = (.ok (), { a with
      pending := a.pending.filter (· ≠ id)
      responses := (id, value) :: a.responses.filter fun entry => entry.1 ≠ id }) := by
  rw [settle, run_bind, run_get]
  dsimp only
  split
  · exact .inl ⟨_, rfl⟩
  · rename_i id hconversation
    split
    · rename_i hid
      exact .inr ⟨id, hconversation, hid, rfl⟩
    · exact .inl ⟨_, rfl⟩

/-- An answer is kept if the active conversation has none yet. -/
theorem respond_cases (a : Adapter) (value : Json) :
    (∃ e recorder, a.run (respond value) = (.error e, { a with recorder })) ∨
    ∃ id recorder, a.conversation = some id ∧ id ∈ a.pending ∧
      a.run (respond value) = (.ok (), { a with
        recorder
        pending := a.pending.filter (· ≠ id)
        responses := (id, value) :: a.responses.filter fun entry => entry.1 ≠ id }) := by
  have hsettle (recorder : Option Recorder) := settle_cases { a with recorder } value
  cases hr : a.recorder with
  | none =>
      rw [run_respond_of_none hr]
      rcases hsettle a.recorder with ⟨e, hrun⟩ | ⟨id, hconversation, hid, hrun⟩
      · exact .inl ⟨e, a.recorder, hrun⟩
      · exact .inr ⟨id, a.recorder, hconversation, hid, hrun⟩
  | some r =>
      rw [run_respond hr, run_bind, run_record hr]
      rcases Recording.run Recorder.sending r with ⟨result, r'⟩
      cases result with
      | error e => exact .inl ⟨e, some r', rfl⟩
      | ok _ =>
          rcases hsettle (some r') with ⟨e, hrun⟩ | ⟨id, hconversation, hid, hrun⟩
          · exact .inl ⟨e, some r', hrun⟩
          · exact .inr ⟨id, some r', hconversation, hid, hrun⟩

end Adapter

/-! ## Scenes and their logs -/

/-- The conversations around those of the callbacks that are running. -/
def Activity.around : List (Option Nat) → List (Option Nat)
  | [] => []
  | _ :: running => running.head?.join :: around running

/-- A scene is as a log tells. -/
structure Scene.Told (log : Log) (s : Scene) : Prop where
  conversations : s.conversations = List.range s.adapter.opened
  current : s.adapter.conversation = (Activity.after log).current
  owners : s.callbacks.map (·.conversation) = (Activity.after log).owners
  running : s.visits.map (·.firing.previousConversation) =
    Activity.around (Activity.after log).running
  pending : ∀ c ∈ s.adapter.pending, c < s.adapter.opened ∧ ∀ value, ¬ log.Answers c value
  responses : ∀ c value, s.adapter.responses.lookup c = some value ↔
    log.Answers c value ∧ ¬ log.Delivers c
  answered : ∀ c value, log.Answers c value → c < s.adapter.opened
  delivered : ∀ c, log.Delivers c → ∃ value, log.Answers c value

namespace Scene.Told

variable {log : Log} {s s' : Scene} {entry : Move × Reply}

theorem new (recorder : Option Recorder) (network : Network) :
    (Scene.new (.new recorder network)).Told [] where
  conversations := rfl
  current := rfl
  owners := rfl
  running := rfl
  pending := nofun
  responses c value := by
    refine ⟨nofun, fun ⟨⟨before, later, answer, h, _⟩, _⟩ => ?_⟩
    exact absurd h.symm (by simp)
  answered c value := fun ⟨before, later, answer, h, _⟩ => absurd h.symm (by simp)
  delivered c := fun ⟨_, h⟩ => absurd h List.not_mem_nil

/-- Code goes on in another place; nothing is answered. -/
theorem elsewhere (h : s.Told log) (recorder : Option Recorder) (network : Network)
    (conversation : Option ConversationId)
    (hadapter : s'.adapter = { s.adapter with recorder, network, conversation })
    (hconversations : s'.conversations = s.conversations)
    (hcurrent : conversation = (Activity.after (log ++ [entry])).current)
    (howners : s'.callbacks.map (·.conversation) = (Activity.after (log ++ [entry])).owners)
    (hrunning : s'.visits.map (·.firing.previousConversation) =
      Activity.around (Activity.after (log ++ [entry])).running)
    (hanswer : ∀ value answer, entry ≠ (.respond value, .ok answer))
    (htake : ∀ c value, entry ≠ (.takeResponse c, .ok (.response (some value)))) : s'.Told (log ++ [entry]) := by
  refine ⟨?_, ?_, howners, hrunning, fun c hc => ?_, fun c value => ?_, fun c value => ?_,
    fun c => ?_⟩
  · rw [hconversations, h.conversations, hadapter]
  · rw [hadapter, ← hcurrent]
  · rw [hadapter] at hc ⊢
    refine ⟨(h.pending c hc).1, fun value => ?_⟩
    rw [Log.answers_concat_of_ne hanswer]
    exact (h.pending c hc).2 value
  · rw [hadapter, Log.answers_concat_of_ne hanswer, Log.delivers_concat_of_ne htake]
    exact h.responses c value
  · rw [hadapter, Log.answers_concat_of_ne hanswer]
    exact h.answered c value
  · simp only [Log.delivers_concat_of_ne htake, Log.answers_concat_of_ne hanswer]
    exact h.delivered c

/-- A move that has nothing to do with conversations. -/
theorem neutral (h : s.Told log) (recorder : Option Recorder) (network : Network)
    (hadapter : s'.adapter = { s.adapter with recorder, network })
    (hcallbacks : s'.callbacks = s.callbacks) (hconversations : s'.conversations = s.conversations)
    (hvisits : s'.visits = s.visits)
    (hstep : (Activity.after log).step entry = Activity.after log)
    (hanswer : ∀ value answer, entry ≠ (.respond value, .ok answer))
    (htake : ∀ c value, entry ≠ (.takeResponse c, .ok (.response (some value)))) : s'.Told (log ++ [entry]) := by
  have hafter : Activity.after (log ++ [entry]) = Activity.after log := by
    rw [Activity.after_concat, hstep]
  refine h.elsewhere recorder network s.adapter.conversation hadapter hconversations ?_ ?_ ?_
    hanswer htake
  · rw [hafter, h.current]
  · rw [hafter, hcallbacks, h.owners]
  · rw [hafter, hvisits, h.running]

/-- An answer is given. -/
theorem respond (h : s.Told log) {value : Json} {answer : Answer} {recorder : Option Recorder} {c : Nat}
    (hcurrent : s.adapter.conversation = some c) (hc : c ∈ s.adapter.pending) :
    Scene.Told (log ++ [(.respond value, .ok answer)])
      { s with adapter := { s.adapter with
          recorder
          pending := s.adapter.pending.filter (· ≠ c)
          responses := (c, value) :: s.adapter.responses.filter fun entry => entry.1 ≠ c } } := by
  have hafter : Activity.after (log ++ [(.respond value, .ok answer)]) = Activity.after log :=
    Activity.after_concat ..
  obtain ⟨hlt, hnone⟩ := h.pending c hc
  have hanswers (c' : Nat) (v : Json) :
      Log.Answers (log ++ [(.respond value, .ok answer)]) c' v ↔
        log.Answers c' v ∨ value = v ∧ c = c' := by
    rw [Log.answers_concat, ← h.current, hcurrent]
    simp
  have hdelivers (c' : Nat) :
      Log.Delivers (log ++ [(.respond value, .ok answer)]) c' ↔ log.Delivers c' :=
    Log.delivers_concat_of_ne nofun
  refine ⟨h.conversations, hafter ▸ h.current, hafter ▸ h.owners, hafter ▸ h.running,
    fun c' hc' => ?_, fun c' v => ?_, fun c' v => ?_, fun c' hc' => ?_⟩
  · obtain ⟨hmem, hne⟩ := List.mem_filter.mp hc'
    refine ⟨(h.pending c' hmem).1, fun v => ?_⟩
    rw [hanswers]
    rintro (hold | ⟨-, rfl⟩)
    · exact (h.pending c' hmem).2 v hold
    · simp at hne
  · rw [hanswers, hdelivers, List.lookup_cons, Recorder.lookup_filter_ne]
    by_cases heq : c' = c
    · subst heq
      have hkept : ¬ log.Delivers c' := fun hd => (h.delivered c' hd).elim hnone
      simp [hnone v, hkept]
    · have hne : (c' == c) = false := by simpa using heq
      rw [hne, if_neg heq, h.responses]
      simp [Ne.symm heq]
  · rw [hanswers]
    rintro (hold | ⟨-, rfl⟩)
    · exact h.answered c' v hold
    · exact hlt
  · obtain ⟨v, hv⟩ := h.delivered c' ((hdelivers c').mp hc')
    exact ⟨v, (hanswers c' v).mpr (.inl hv)⟩

/-- A conversation is opened. -/
theorem openConversation (h : s.Told log) (reply : Reply) :
    Scene.Told (log ++ [(.openConversation, reply)]) (s.perform .openConversation).2 := by
  have hafter : Activity.after (log ++ [(.openConversation, reply)]) = Activity.after log :=
    Activity.after_concat ..
  have hanswers (c : Nat) (v : Json) :
      Log.Answers (log ++ [(.openConversation, reply)]) c v ↔ log.Answers c v :=
    Log.answers_concat_of_ne nofun
  have hdelivers (c : Nat) :
      Log.Delivers (log ++ [(.openConversation, reply)]) c ↔ log.Delivers c :=
    Log.delivers_concat_of_ne nofun
  refine ⟨?_, hafter ▸ h.current, hafter ▸ h.owners, hafter ▸ h.running, fun c hc => ?_,
    fun c v => ?_, fun c v => ?_, fun c => ?_⟩
  · change s.conversations ++ [s.adapter.opened] = List.range (s.adapter.opened + 1)
    rw [h.conversations, List.range_succ]
  · simp only [hanswers]
    rcases List.mem_cons.mp hc with rfl | hold
    · exact ⟨Nat.lt_succ_self _, fun v hv => Nat.lt_irrefl _ (h.answered _ v hv)⟩
    · exact ⟨Nat.lt_succ_of_lt (h.pending c hold).1, (h.pending c hold).2⟩
  · rw [hanswers, hdelivers]
    exact h.responses c v
  · rw [hanswers]
    exact fun hv => Nat.lt_succ_of_lt (h.answered c v hv)
  · simp only [hanswers, hdelivers]
    exact h.delivered c

/-- An answer is taken, if there is one. -/
theorem takeResponse (h : s.Told log) (c : Nat) :
    Scene.Told (log ++ [(.takeResponse c, .ok (.response (s.adapter.takeResponse c).1))])
      { s with adapter := (s.adapter.takeResponse c).2 } := by
  have hafter : Activity.after
      (log ++ [(.takeResponse c, .ok (.response (s.adapter.takeResponse c).1))]) =
        Activity.after log :=
    Activity.after_concat ..
  have hanswers (c' : Nat) (v : Json) :
      Log.Answers (log ++ [(.takeResponse c, .ok (.response (s.adapter.takeResponse c).1))]) c' v ↔
        log.Answers c' v :=
    Log.answers_concat_of_ne nofun
  have hdelivers (c' : Nat) :
      Log.Delivers (log ++ [(.takeResponse c, .ok (.response (s.adapter.takeResponse c).1))]) c' ↔
        log.Delivers c' ∨ c = c' ∧ ∃ v, s.adapter.responses.lookup c = some v := by
    rw [Log.delivers_concat]
    simp [Adapter.takeResponse]
  refine ⟨h.conversations, hafter ▸ h.current, hafter ▸ h.owners, hafter ▸ h.running,
    fun c' hc' => ?_, fun c' v => ?_, fun c' v => ?_, fun c' => ?_⟩
  · simp only [hanswers]
    exact h.pending c' hc'
  · rw [hanswers, hdelivers]
    change (s.adapter.responses.filter fun entry => entry.1 ≠ c).lookup c' = some v ↔ _
    rw [Recorder.lookup_filter_ne]
    by_cases heq : c' = c
    · subst heq
      rw [if_pos rfl]
      refine ⟨nofun, fun ⟨hv, hnot⟩ => ?_⟩
      rw [not_or] at hnot
      exact absurd ⟨rfl, v, (h.responses c' v).mpr ⟨hv, hnot.1⟩⟩ hnot.2
    · rw [if_neg heq, h.responses]
      simp [Ne.symm heq]
  · rw [hanswers]
    exact h.answered c' v
  · simp only [hanswers, hdelivers]
    rintro (hold | ⟨rfl, v, hv⟩)
    · exact h.delivered c' hold
    · exact ⟨v, ((h.responses c v).mp hv).1⟩

/-! ### Moves -/

/-- A question to the recorder is none of the conversations' business. -/
theorem ask (h : s.Told log) {α : Type} {x : Adapting α} (hx : Adapter.RecordsOnly x)
    {f : α → Answer} {move : Move} (hmove : s.perform move = s.ask x f)
    (hstep : ∀ reply, (Activity.after log).step (move, reply) = Activity.after log)
    (hrespond : ∀ value, move ≠ .respond value) (htake : ∀ c, move ≠ .takeResponse c) :
    Scene.Told (log ++ [(move, (s.perform move).1)]) (s.perform move).2 := by
  obtain ⟨recorder, ha⟩ := hx s.adapter
  rw [hmove]
  refine h.neutral recorder s.adapter.network ha rfl rfl rfl (hstep _) ?_ ?_
  · exact fun value _ heq => hrespond value (Prod.ext_iff.mp heq).1
  · exact fun c _ heq => htake c (Prod.ext_iff.mp heq).1

theorem register (h : s.Told log) (event : Event) :
    Scene.Told (log ++ [(.register event, (s.perform (.register event)).1)])
      (s.perform (.register event)).2 := by
  obtain ⟨recorder, ha⟩ := Adapter.recordsOnly_register event s.adapter
  simp only [Scene.perform]
  rcases hrun : s.adapter.run (Adapter.register event) with ⟨result, a⟩
  rw [hrun] at ha
  obtain rfl : a = { s.adapter with recorder } := ha
  cases result with
  | error e =>
      exact h.neutral recorder s.adapter.network rfl rfl rfl rfl rfl (by simp) (by simp)
  | ok registration =>
      have hafter : Activity.after (log ++ [(.register event, .ok (.number s.callbacks.length))]) =
          { Activity.after log with
            owners := (Activity.after log).owners ++ [(Activity.after log).current] } :=
        Activity.after_concat ..
      refine h.elsewhere recorder s.adapter.network
        s.adapter.conversation rfl rfl ?_ ?_ ?_ (by simp) (by simp)
      · rw [hafter]
        exact h.current
      · rw [hafter, List.map_append, h.owners, List.map_singleton,
          Adapter.conversation_of_register hrun, h.current]
      · rw [hafter]
        exact h.running

theorem enter (h : s.Told log) (i : Nat) {conversation : Option Nat}
    (hknown : ∀ c, conversation = some c → c < s.conversations.length) :
    Scene.Told (log ++ [(.enter i conversation, (s.perform (.enter i conversation)).1)])
      (s.perform (.enter i conversation)).2 := by
  have hconversation : s.conversation? conversation = conversation := by
    cases conversation with
    | none => rfl
    | some c =>
        have hc := hknown c rfl
        rw [h.conversations, List.length_range] at hc
        simp [Scene.conversation?, h.conversations, hc]
  simp only [Scene.perform]
  cases hi : s.callbacks[i]? with
  | none =>
      exact h.neutral s.adapter.recorder s.adapter.network rfl rfl rfl rfl
        rfl (by simp) (by simp)
  | some registration =>
      have howner : (Activity.after log).owner i = registration.conversation := by
        rw [Activity.owner, ← h.owners, List.getElem?_map, hi]
        rfl
      dsimp only
      rcases Adapter.enter_cases s.adapter registration (s.conversation? conversation) with
        ⟨e, recorder, hrun⟩ | ⟨firing, recorder, hrun, hprevious⟩
      · rw [hrun]
        exact h.neutral recorder s.adapter.network rfl rfl rfl rfl rfl
          (by simp) (by simp)
      · rw [hrun]
        have hafter : Activity.after (log ++ [(.enter i conversation, .ok .done)]) =
            { Activity.after log with
              running := conversation.or registration.conversation ::
                (Activity.after log).running } := by
          rw [Activity.after_concat, ← howner]
          rfl
        refine h.elsewhere recorder s.adapter.network
          (conversation.or registration.conversation) ?_ rfl ?_ ?_ ?_ (by simp) (by simp)
        · rw [hconversation]
        · rw [hafter]
          rfl
        · rw [hafter]
          exact h.owners
        · rw [hafter, List.map_cons, h.running, hprevious, h.current]
          rfl

theorem leave (h : s.Told log) (completed : Bool) :
    Scene.Told (log ++ [(.leave completed, (s.perform (.leave completed)).1)])
      (s.perform (.leave completed)).2 := by
  have hafter (reply : Reply) : Activity.after (log ++ [(.leave completed, reply)]) =
      { Activity.after log with running := (Activity.after log).running.tail } :=
    Activity.after_concat ..
  have hrunning := h.running
  simp only [Scene.perform]
  cases hvisits : s.visits with
  | nil =>
      have hnone : (Activity.after log).running = [] := by
        rw [hvisits] at hrunning
        cases hr : (Activity.after log).running with
        | nil => rfl
        | cons _ _ =>
            rw [hr] at hrunning
            cases hrunning
      refine h.neutral s.adapter.recorder s.adapter.network rfl rfl rfl rfl
        ?_ (by simp) (by simp)
      rw [← Activity.after_concat, hafter, hnone, List.tail_nil, ← hnone]
  | cons visit visits =>
      rw [hvisits] at hrunning
      obtain ⟨recorder, ha⟩ := Adapter.run_leave_conversation s.adapter visit.firing completed
      cases hr : (Activity.after log).running with
      | nil =>
          rw [hr] at hrunning
          cases hrunning
      | cons first running =>
          rw [hr] at hrunning
          obtain ⟨hprevious, hrest⟩ := List.cons_eq_cons.mp hrunning
          refine h.elsewhere recorder s.adapter.network
            visit.firing.previousConversation ha rfl ?_ ?_ ?_ (by simp) (by simp)
          · rw [hafter, hr]
            exact hprevious
          · rw [hafter]
            exact h.owners
          · rw [hafter, hr]
            exact hrest

/-- Whatever move is made, the scene stays as the log tells. -/
theorem perform (h : s.Told log) (move : Move)
    (hknown : ∀ i c, move = .enter i (some c) → c < s.conversations.length) :
    Scene.Told (log ++ [(move, (s.perform move).1)]) (s.perform move).2 := by
  cases move with
  | operation op =>
      exact h.ask (Adapter.recordsOnly_record op.perform) rfl (fun _ => rfl) (by simp) (by simp)
  | tracing | trace =>
      exact h.neutral s.adapter.recorder s.adapter.network rfl rfl rfl rfl
        rfl (by simp) (by simp)
  | register event => exact h.register event
  | discard i =>
      cases hi : s.callbacks[i]? with
      | none =>
          simp only [Scene.perform, hi]
          exact h.neutral s.adapter.recorder s.adapter.network rfl rfl rfl
            rfl rfl (by simp) (by simp)
      | some registration =>
          exact h.ask (Adapter.recordsOnly_discard registration) (f := fun _ => .done)
            (by simp only [Scene.perform, hi]) (fun _ => rfl) (by simp) (by simp)
  | enter i conversation => exact h.enter i fun c hc => hknown i c (hc ▸ rfl)
  | leave completed => exact h.leave completed
  | respond value =>
      simp only [Scene.perform, Scene.ask]
      rcases Adapter.respond_cases s.adapter value with
        ⟨e, recorder, hrun⟩ | ⟨c, recorder, hcurrent, hc, hrun⟩
      · rw [hrun]
        exact h.neutral recorder s.adapter.network rfl rfl rfl rfl rfl
          (by simp [Except.map]) (by simp)
      · rw [hrun]
        exact h.respond hcurrent hc
  | fetch method url body =>
      obtain ⟨network, ha⟩ := Adapter.fetch_network s.adapter method url body
      exact h.neutral s.adapter.recorder network ha rfl rfl rfl rfl (by simp)
        (by simp)
  | openConversation => exact h.openConversation _
  | takeResponse c =>
      by_cases hc : c < s.adapter.opened
      · have hget : s.conversations[c]? = some c := by simp [h.conversations, hc]
        simp only [Scene.perform, hget]
        exact h.takeResponse c
      · have hget : s.conversations[c]? = none := by
          rw [h.conversations, List.getElem?_eq_none (by simpa using hc)]
        simp only [Scene.perform, hget]
        exact h.neutral s.adapter.recorder s.adapter.network rfl rfl rfl
          rfl rfl (by simp) (by simp)

end Scene.Told

namespace Scene

variable {log log' : Log} {s t : Scene}

/-- Callbacks are only entered in conversations that are open. -/
def Knows : Scene → Log → Prop
  | _, [] => True
  | s, (move, _) :: log =>
    (∀ i c, move = .enter i (some c) → c < s.conversations.length) ∧ (s.perform move).2.Knows log

theorem Knows.of_lt
    (h : ∀ entry ∈ log, ∀ i c, entry.1 = .enter i (some c) → c < s.conversations.length) :
    s.Knows log := by
  induction log generalizing s with
  | nil => trivial
  | cons entry log ih =>
      obtain ⟨hentry, hlog⟩ := List.forall_mem_cons.mp h
      obtain ⟨-, more, hmore, -⟩ := s.numbers_perform entry.1
      refine ⟨hentry, ih fun later hlater i c heq => ?_⟩
      rw [hmore, List.length_append]
      exact Nat.lt_add_right _ (hlog later hlater i c heq)

theorem knows_append (hleads : s.Leads log t) : s.Knows (log ++ log') ↔ s.Knows log ∧ t.Knows log' := by
  induction log generalizing s with
  | nil =>
      obtain rfl : t = s := hleads
      simp [Knows]
  | cons entry log ih =>
      rw [List.cons_append, Knows, Knows, ih hleads.2, and_assoc]

theorem Told.leads (h : s.Told log) (hknows : s.Knows log') (hleads : s.Leads log' t) :
    t.Told (log ++ log') := by
  induction log' generalizing s log with
  | nil =>
      obtain rfl : t = s := hleads
      rwa [List.append_nil]
  | cons entry log' ih =>
      obtain ⟨move, reply⟩ := entry
      obtain ⟨rfl, hleads⟩ := hleads
      have hnext := ih (h.perform move hknows.1) hknows.2 hleads
      rwa [List.append_assoc] at hnext

/-! ### Answers -/

/-- What is taken is what was answered, unless it has been taken before. -/
theorem Told.takeResponse_eq (h : s.Told log) {c : Nat} {answer : Option Json}
    (hreply : (s.perform (.takeResponse c)).1 = .ok (.response answer)) (value : Json) :
    answer = some value ↔ log.Answers c value ∧ ¬ log.Delivers c := by
  simp only [Scene.perform] at hreply
  cases hget : s.conversations[c]? with
  | none =>
      rw [hget] at hreply
      cases hreply
  | some id =>
      rw [hget] at hreply
      have hid : id = c := by
        rw [h.conversations, List.getElem?_eq_some_iff] at hget
        simpa using hget.2.symm
      subst hid
      rw [← h.responses]
      exact iff_of_eq (congrArg (· = some value) (Answer.response.inj (Except.ok.inj hreply)).symm)

end Scene

/-! ## Code of other conversations -/

/-- All code that may run is of certain conversations: the code that is running, and the callbacks
that may be entered. -/
structure Activity.Inside (C : Option Nat → Prop) (may : Nat → Prop) (a : Activity) : Prop where
  outside : C none
  running : ∀ c ∈ a.running, C c
  owners : ∀ i, may i → ∀ c, a.owners[i]? = some c → C c

namespace Activity.Inside

variable {C : Option Nat → Prop} {may : Nat → Prop} {a : Activity}

theorem current (h : a.Inside C may) : C a.current := by
  have hrunning := h.running
  unfold Activity.current
  cases hr : a.running with
  | nil => exact h.outside
  | cons c running =>
      rw [hr] at hrunning
      exact hrunning c List.mem_cons_self

theorem step (h : a.Inside C may) {entry : Move × Reply}
    (hentry : ∀ i c, entry.1 = .enter i c → (c = none ∧ may i) ∨ c ≠ none ∧ C c) :
    (a.step entry).Inside C may := by
  obtain ⟨move, reply⟩ := entry
  cases move with
  | register event =>
      cases reply with
      | error e => exact h
      | ok answer =>
          refine ⟨h.outside, h.running, fun i hi c hc => ?_⟩
          change (a.owners ++ [a.current])[i]? = some c at hc
          rw [List.getElem?_append] at hc
          split at hc
          · exact h.owners i hi c hc
          · rw [List.getElem?_singleton] at hc
            split at hc
            · exact Option.some.inj hc ▸ h.current
            · cases hc
  | enter i c =>
      cases reply with
      | error e => exact h
      | ok answer =>
          refine ⟨h.outside, List.forall_mem_cons.mpr ⟨?_, h.running⟩, h.owners⟩
          rcases hentry i c rfl with ⟨rfl, hi⟩ | ⟨hne, hc⟩
          · rw [Option.none_or, owner]
            cases howner : a.owners[i]? with
            | none => exact h.outside
            | some c => exact h.owners i hi c howner
          · obtain ⟨d, rfl⟩ := Option.ne_none_iff_exists'.mp hne
            exact hc
  | leave completed =>
      exact ⟨h.outside, fun c hc => h.running c (List.mem_of_mem_tail hc), h.owners⟩
  | _ => exact h

theorem foldl (h : a.Inside C may) {log : Log}
    (hlog : ∀ entry ∈ log, ∀ i c, entry.1 = .enter i c → (c = none ∧ may i) ∨ c ≠ none ∧ C c) :
    (log.foldl Activity.step a).Inside C may := by
  induction log generalizing a with
  | nil => exact h
  | cons entry log ih =>
      obtain ⟨hentry, hlog⟩ := List.forall_mem_cons.mp hlog
      exact ih (h.step hentry) hlog

/-- Code of other conversations does not answer. -/
theorem answers_append {log log' : Log} {c : Nat} {value : Json}
    (h : (Activity.after log).Inside (· ≠ some c) may)
    (hlog : ∀ entry ∈ log', ∀ i d, entry.1 = .enter i d → (d = none ∧ may i) ∨ d ≠ none ∧ d ≠ some c)
    (hanswers : (log ++ log').Answers c value) : log.Answers c value := by
  induction log' using List.reverseRecOn with
  | nil => rwa [List.append_nil] at hanswers
  | append_singleton log' entry ih =>
      obtain ⟨hlog, -⟩ := List.forall_mem_append.mp hlog
      rw [← List.append_assoc, Log.answers_concat] at hanswers
      refine hanswers.elim (ih hlog) fun ⟨_, hcurrent⟩ => ?_
      rw [Activity.after_append] at hcurrent
      exact absurd hcurrent (h.foldl hlog).current

end Activity.Inside

end TraceLoom
