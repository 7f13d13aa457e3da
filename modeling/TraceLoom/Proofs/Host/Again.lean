import TraceLoom.Proofs.Execution.Programs
import TraceLoom.Proofs.Host.Conversations
import TraceLoom.Proofs.Host.Echo
import TraceLoom.Proofs.Recorder.Replay

/-!
Scenes in step.  What a program asks of one adapter, it may ask of another one whose trace covers
what the first one comes to record: each move has the same reply, and the trace stays as it is.
-/

namespace TraceLoom

open Trace

variable {n m k : Nat}

/-! ## Adapters under other numbers -/

def Registration.renamed (n m k : Nat) (g : Registration) : Registration :=
  ⟨g.event, g.context.map (shift n m), g.conversation.map (· + k)⟩

def Firing.renamed (n m k : Nat) (f : Firing) : Firing :=
  ⟨f.event, f.previousContext.map (shift n m), f.previousConversation.map (· + k)⟩

/-- The conversations of the first adapter are among those of the second one, which has the same
routes. -/
structure Adapter.Within (k : Nat) (a b : Adapter) : Prop where
  conversation : b.conversation = a.conversation.map (· + k)
  opened : b.opened = a.opened + k
  pending : ∀ id, id + k ∈ b.pending ↔ id ∈ a.pending
  responses : ∀ id, b.responses.lookup (id + k) = a.responses.lookup id
  routes : b.network.routes = a.network.routes

namespace Adapter

variable {a b : Adapter}

theorem Within.record (h : a.Within k b) (r r' : Option Recorder) :
    ({ a with recorder := r } : Adapter).Within k { b with recorder := r' } :=
  ⟨h.conversation, h.opened, h.pending, h.responses, h.routes⟩

theorem lookup_answered (responses : List (ConversationId × Json)) (id other : ConversationId)
    (value : Json) :
    ((id, value) :: responses.filter fun entry => entry.1 ≠ id).lookup other =
      if other = id then some value else responses.lookup other := by
  rw [List.lookup_cons, Recorder.lookup_filter_ne]
  by_cases h : other = id <;> simp [h, beq_eq_decide]

/-- An answer is kept by both adapters or by none. -/
theorem Within.settle (h : a.Within k b) {value : Json} {a' : Adapter}
    (hrun : a.run (settle value) = (.ok (), a')) :
    ∃ b', b.run (Adapter.settle value) = (.ok (), b') ∧ a'.Within k b' ∧
      b'.recorder = b.recorder ∧ a'.recorder = a.recorder := by
  rcases settle_cases a value with ⟨e, he⟩ | ⟨id, hconversation, hid, ha'⟩
  · rw [he] at hrun
    cases hrun
  · rw [ha'] at hrun
    cases hrun
    have hconversation' : b.conversation = some (id + k) := by
      rw [h.conversation, hconversation, Option.map_some]
    have hsettle : b.run (Adapter.settle value) = (.ok (), { b with
        pending := b.pending.filter (· ≠ id + k)
        responses := (id + k, value) :: b.responses.filter fun entry => entry.1 ≠ id + k }) := by
      rw [Adapter.settle, run_bind, run_get]
      dsimp only
      rw [hconversation']
      dsimp only
      rw [if_pos ((h.pending id).mpr hid)]
      rfl
    refine ⟨_, hsettle, ⟨h.conversation, h.opened, fun other => ?_, fun other => ?_, h.routes⟩,
      rfl, rfl⟩
    · simp [List.mem_filter, h.pending]
    · rw [lookup_answered, lookup_answered, h.responses]
      simp

theorem Within.fetch (h : a.Within k b) (method : Event) (url : String) (body : Option Json) :
    (b.fetch method url body).1 = (a.fetch method url body).1 ∧
      (a.fetch method url body).2.Within k (b.fetch method url body).2 ∧
      (a.fetch method url body).2.recorder = a.recorder ∧
      (b.fetch method url body).2.recorder = b.recorder := by
  unfold Adapter.fetch
  split
  · split
    · exact ⟨rfl, h, rfl, rfl⟩
    · refine ⟨?_, ⟨h.conversation, h.opened, h.pending, h.responses, h.routes⟩, rfl, rfl⟩
      simp only [Network.send, h.routes]
  · exact ⟨rfl, h, rfl, rfl⟩

end Adapter

namespace Scene

/-! ## Scenes in step -/

/-- A scene that records, in contexts of its own. -/
structure InUse (n : Nat) (s : Scene) (a : Recorder) : Prop where
  recorder : s.adapter.recorder = some a
  usable : a.InUse n
  callbacks : ∀ g ∈ s.callbacks, ∃ id, g.context = some id ∧ n ≤ id
  visits : ∀ v ∈ s.visits, ∃ id, v.firing.previousContext = some id ∧ Own n id

/-- The second scene is the first one under other numbers, and has recorded at least as much. -/
structure InStep (n m k : Nat) (s t : Scene) (a b : Recorder) : Prop where
  recorder : t.adapter.recorder = some b
  mirrors : Mirrors n m a b
  sound : b.Sound
  adapter : s.adapter.Within k t.adapter
  callbacks : t.callbacks = s.callbacks.map (Registration.renamed n m k)
  conversations : t.conversations = s.conversations.map (· + k)
  firings : t.visits.map (·.firing) = s.visits.map fun v => v.firing.renamed n m k

/-- A move of the first scene that the second one can make as well. -/
def Repeats (n m k : Nat) (s : Scene) (a : Recorder) (move : Move) (answer : Answer) (s' : Scene) :
    Prop :=
  ∃ a', s'.InUse n a' ∧ Covers a'.root a.root ∧
    ∀ t b, s.InStep n m k t a b → Covers b.root a'.root →
      ∃ t' b', t.perform move = (.ok answer, t') ∧ s'.InStep n m k t' a' b' ∧ b'.root = b.root

variable {s s' t : Scene} {a b : Recorder} {answer : Answer}

theorem InUse.callback (h : s.InUse n a) {i : Nat} {g : Registration} (hg : s.callbacks[i]? = some g) :
    ∃ id, g.context = some id ∧ n ≤ id :=
  h.callbacks g (List.mem_of_getElem? hg)

theorem InStep.callback (h : s.InStep n m k t a b) {i : Nat} {g : Registration}
    (hg : s.callbacks[i]? = some g) : t.callbacks[i]? = some (g.renamed n m k) := by
  rw [h.callbacks, List.getElem?_map, hg, Option.map_some]

theorem InStep.conversation? (h : s.InStep n m k t a b) (c : Option Nat) :
    t.conversation? c = (s.conversation? c).map (· + k) := by
  cases c with
  | none => rfl
  | some c =>
      change t.conversations[c]? = (s.conversations[c]?).map (· + k)
      rw [h.conversations, List.getElem?_map]

/-- A move that only records. -/
theorem InUse.repeats_of_echo (h : s.InUse n a) {α β : Type} {x : Recording α} {y : Recording β}
    {f : α → β} {Q : α → Prop} (hecho : Recording.Echoes n m x y f Q) {v : α} {a' : Recorder}
    (hrun : Recording.run x a = (.ok v, a')) {move : Move}
    (hs' : s' = { s with adapter := { s.adapter with recorder := some a' } })
    (hmove : ∀ t b b', s.InStep n m k t a b → Recording.run y b = (.ok (f v), b') →
      t.perform move = (.ok answer, { t with adapter := { t.adapter with recorder := some b' } })) :
    s.Repeats n m k a move answer s' := by
  obtain ⟨⟨ha', hgrown, -⟩, hagain⟩ := hecho a a' v h.usable hrun
  subst hs'
  refine ⟨a', ⟨rfl, ha', h.callbacks, h.visits⟩, hgrown, fun t b ht hcovers => ?_⟩
  obtain ⟨b', hrun', hmirrors, hsound, hroot⟩ := hagain b ht.mirrors ht.sound hcovers
  exact ⟨_, b', hmove t b b' ht hrun', ⟨rfl, hmirrors, hsound, ht.adapter.record _ _, ht.callbacks,
    ht.conversations, ht.firings⟩, hroot⟩

theorem answer_renamed (f : ContextId → ContextId) (out : Operation.Outcome) :
    (out.renamed f).answer = out.answer := by
  cases out <;> rfl

theorem InUse.repeats_operation (h : s.InUse n a) {op : Operation} (hop : op.Plain)
    (hplan : ∀ c, (op.plan? c).isSome = true)
    (hok : s.perform (.operation op) = (.ok answer, s')) :
    s.Repeats n m k a (.operation op) answer s' := by
  have hask {t : Scene} {b : Recorder} (hb : t.adapter.recorder = some b) :
      t.perform (.operation op) = ((Recording.run op.perform b).1.map Operation.Outcome.answer,
        { t with adapter := { t.adapter with recorder := some (Recording.run op.perform b).2 } }) := by
    rw [perform, ask, Adapter.run_record hb]
  rw [hask h.recorder] at hok
  rcases hrun : Recording.run op.perform a with ⟨_ | out, a'⟩
  · rw [hrun] at hok
    cases hok
  · rw [hrun] at hok
    cases hok
    refine h.repeats_of_echo (Recording.echoes_perform hop hplan) hrun rfl fun t b b' ht hrun' => ?_
    rw [hask ht.recorder, hrun']
    exact congrArg (fun x => (Except.ok x, _)) (answer_renamed _ out)

theorem InUse.repeats_tracing (h : s.InUse n a) (hok : s.perform .tracing = (.ok answer, s')) :
    s.Repeats n m k a .tracing answer s' := by
  have hask {t : Scene} {b : Recorder} (hb : t.adapter.recorder = some b) :
      t.perform .tracing = (.ok (.flag true), t) := by
    rw [perform, Adapter.isTracing, hb]
    rfl
  rw [hask h.recorder] at hok
  cases hok
  exact ⟨a, h, .refl h.usable.sound.tidy.wellFormed,
    fun t b ht _ => ⟨t, b, hask ht.recorder, ht, rfl⟩⟩

theorem InUse.repeats_register (h : s.InUse n a) {event : Event}
    (hok : s.perform (.register event) = (.ok answer, s')) :
    s.Repeats n m k a (.register event) answer s' := by
  have hask {t : Scene} {b b' : Recorder} {id : ContextId} (hb : t.adapter.recorder = some b)
      (hrun : Recording.run (Recorder.registering event) b = (.ok id, b')) :
      t.perform (.register event) = (.ok (.number t.callbacks.length), { t with
        adapter := { t.adapter with recorder := some b' }
        callbacks := t.callbacks ++ [⟨event, some id, t.adapter.conversation⟩] }) := by
    rw [perform, Adapter.run_register hb, hrun]
    rfl
  rcases hrun : Recording.run (Recorder.registering event) a with ⟨e | id, a'⟩
  · rw [perform, Adapter.run_register h.recorder, hrun] at hok
    cases hok
  · rw [hask h.recorder hrun] at hok
    cases hok
    obtain ⟨⟨ha', hgrown, hid⟩, hagain⟩ :=
      Recorder.echoes_registering (m := m) event a a' id h.usable hrun
    refine ⟨a', ⟨rfl, ha', fun g hg => ?_, h.visits⟩, hgrown, fun t b ht hcovers => ?_⟩
    · rcases List.mem_append.mp hg with hg | hg
      · exact h.callbacks g hg
      · rw [List.mem_singleton.mp hg]
        exact ⟨id, rfl, hid⟩
    · obtain ⟨b', hrun', hmirrors, hsound, hroot⟩ := hagain b ht.mirrors ht.sound hcovers
      have hperform := hask ht.recorder hrun'
      rw [ht.callbacks, List.length_map, ht.adapter.conversation] at hperform
      refine ⟨_, b', hperform, ⟨rfl, hmirrors, hsound, ht.adapter.record _ _, ?_, ht.conversations,
        ht.firings⟩, hroot⟩
      rw [List.map_append]
      rfl

theorem InUse.repeats_discard (h : s.InUse n a) {i : Nat}
    (hok : s.perform (.discard i) = (.ok answer, s')) :
    s.Repeats n m k a (.discard i) answer s' := by
  have hask {t : Scene} {b : Recorder} {g : Registration} {id : ContextId}
      (hb : t.adapter.recorder = some b) (hg : t.callbacks[i]? = some g) (hid : g.context = some id) :
      t.perform (.discard i) = (.ok .done, { t with
        adapter := { t.adapter with recorder := some (Recording.run (Recorder.release id) b).2 } }) := by
    rw [perform, hg]
    dsimp only
    rw [ask, Adapter.run_discard hb hid]
    rfl
  cases hg : s.callbacks[i]? with
  | none =>
      rw [perform, hg] at hok
      cases hok
  | some g =>
      obtain ⟨id, hid, hn⟩ := h.callback hg
      rw [hask h.recorder hg hid] at hok
      cases hok
      refine h.repeats_of_echo (Recorder.echoes_release (.inr hn)) rfl rfl fun t b b' ht hrun' => ?_
      rw [hask ht.recorder (ht.callback hg) (congrArg (Option.map (shift n m)) hid), hrun']

theorem InUse.repeats_enter (h : s.InUse n a) {i : Nat} {conversation : Option Nat}
    (hok : s.perform (.enter i conversation) = (.ok answer, s')) :
    s.Repeats n m k a (.enter i conversation) answer s' := by
  have hask {t : Scene} {b b' : Recorder} {g : Registration} {id previous : ContextId}
      (hb : t.adapter.recorder = some b) (hg : t.callbacks[i]? = some g) (hid : g.context = some id)
      (hrun : Recording.run (Recorder.entering id [.name "clos", .name g.event.param]) b =
        (.ok previous, b')) :
      ∃ before, t.perform (.enter i conversation) = (.ok .done, { t with
        adapter := { t.adapter with
          recorder := some b'
          conversation := (t.conversation? conversation).or g.conversation }
        visits := ⟨i, ⟨g.event, some previous, t.adapter.conversation⟩, before⟩ :: t.visits
        entered := i :: t.entered }) := by
    have henter : t.adapter.run (Adapter.enter g (t.conversation? conversation)) =
        (.ok ⟨g.event, some previous, t.adapter.conversation⟩, { t.adapter with
          recorder := some b'
          conversation := (t.conversation? conversation).or g.conversation }) :=
      (Adapter.run_enter_eq_ok_iff hb hid).mpr ⟨previous, b', hrun, rfl, rfl⟩
    rw [perform, hg]
    dsimp only
    rw [henter]
    exact ⟨_, rfl⟩
  cases hg : s.callbacks[i]? with
  | none =>
      rw [perform, hg] at hok
      cases hok
  | some g =>
      obtain ⟨id, hid, hn⟩ := h.callback hg
      obtain ⟨previous, a', hrun⟩ : ∃ previous a', Recording.run
          (Recorder.entering id [.name "clos", .name g.event.param]) a = (.ok previous, a') := by
        rw [perform, hg] at hok
        dsimp only at hok
        rcases henter : s.adapter.run (Adapter.enter g (s.conversation? conversation)) with
          ⟨_ | firing, adapter⟩
        · rw [henter] at hok
          cases hok
        · obtain ⟨previous, a', hrun, -⟩ := (Adapter.run_enter_eq_ok_iff h.recorder hid).mp henter
          exact ⟨previous, a', hrun⟩
      obtain ⟨before, hperform⟩ := hask h.recorder hg hid hrun
      rw [hperform] at hok
      cases hok
      have hargs : ∀ t ∈ [Trace.name "clos", .name g.event.param], Trace.Plain t := by
        simp only [List.mem_cons, List.not_mem_nil, or_false, forall_eq_or_imp, forall_eq]
        exact ⟨Trace.plain_leaf rfl rfl rfl, Trace.plain_leaf rfl rfl rfl⟩
      obtain ⟨⟨ha', hgrown, hprevious⟩, hagain⟩ :=
        Recorder.echoes_entering (m := m) (.inr hn) hargs a a' previous h.usable hrun
      refine ⟨a', ⟨rfl, ha', h.callbacks, ?_⟩, hgrown, fun t b ht hcovers => ?_⟩
      · exact List.forall_mem_cons.mpr ⟨⟨previous, rfl, hprevious⟩, h.visits⟩
      · obtain ⟨b', hrun', hmirrors, hsound, hroot⟩ := hagain b ht.mirrors ht.sound hcovers
        obtain ⟨before', hperform'⟩ := hask ht.recorder (ht.callback hg)
          (congrArg (Option.map (shift n m)) hid) hrun'
        rw [ht.conversation?, ht.adapter.conversation] at hperform'
        refine ⟨_, b', hperform', ⟨rfl, hmirrors, hsound, ⟨?_, ht.adapter.opened, ht.adapter.pending,
          ht.adapter.responses, ht.adapter.routes⟩, ht.callbacks, ht.conversations, ?_⟩, hroot⟩
        · exact (Option.map_or ..).symm
        · exact congrArg (_ :: ·) ht.firings

theorem InUse.repeats_leave (h : s.InUse n a) {completed : Bool}
    (hok : s.perform (.leave completed) = (.ok answer, s')) :
    s.Repeats n m k a (.leave completed) answer s' := by
  have hask {t : Scene} {b b' : Recorder} {v : Visit} {visits : List Visit} {previous : ContextId}
      (hb : t.adapter.recorder = some b) (hvisits : t.visits = v :: visits)
      (hprevious : v.firing.previousContext = some previous)
      (hrun : Recording.run (Recorder.leaving completed v.firing.event.isRepeating b.active previous)
        b = (.ok (), b')) :
      t.perform (.leave completed) = (.ok .done, { t with
        adapter := { t.adapter with
          recorder := some b', conversation := v.firing.previousConversation }
        visits }) := by
    have hleave := (Adapter.run_leave_eq_ok_iff hb hprevious completed).mpr ⟨b', hrun, rfl⟩
    rw [perform, hvisits]
    dsimp only
    rw [ask]
    dsimp only
    rw [hleave]
    rfl
  cases hvisits : s.visits with
  | nil =>
      rw [perform, hvisits] at hok
      cases hok
  | cons v visits =>
      obtain ⟨hv, hothers⟩ := List.forall_mem_cons.mp (hvisits ▸ h.visits)
      obtain ⟨previous, hprevious, hown⟩ := hv
      obtain ⟨a', hrun⟩ : ∃ a', Recording.run
          (Recorder.leaving completed v.firing.event.isRepeating a.active previous) a =
            (.ok (), a') := by
        rw [perform, hvisits] at hok
        dsimp only at hok
        rw [ask] at hok
        dsimp only at hok
        rcases hleave : s.adapter.run (Adapter.leave v.firing completed) with ⟨_ | ⟨⟩, adapter⟩
        · rw [hleave] at hok
          cases hok
        · obtain ⟨a', hrun, -⟩ :=
            (Adapter.run_leave_eq_ok_iff h.recorder hprevious completed).mp hleave
          exact ⟨a', hrun⟩
      rw [hask h.recorder hvisits hprevious hrun] at hok
      cases hok
      obtain ⟨⟨ha', hgrown, -⟩, hagain⟩ := Recorder.echoes_leaving (m := m) completed
        v.firing.event.isRepeating h.usable.own hown a a' () h.usable hrun
      refine ⟨a', ⟨rfl, ha', h.callbacks, hothers⟩, hgrown, fun t b ht hcovers => ?_⟩
      obtain ⟨b', hrun', hmirrors, hsound, hroot⟩ := hagain b ht.mirrors ht.sound hcovers
      have hfirings := ht.firings
      rw [hvisits] at hfirings
      obtain ⟨w, visits', hvisits', hw, hvisits''⟩ := List.map_eq_cons_iff.mp hfirings
      have hprevious' : w.firing.previousContext = some (shift n m previous) := by
        rw [hw]
        exact congrArg (Option.map (shift n m)) hprevious
      have hperform := hask ht.recorder hvisits' hprevious'
        (by rw [hw, ht.mirrors.active]; exact hrun')
      rw [hw] at hperform
      exact ⟨_, b', hperform, ⟨rfl, hmirrors, hsound, ⟨rfl, ht.adapter.opened, ht.adapter.pending,
        ht.adapter.responses, ht.adapter.routes⟩, ht.callbacks, ht.conversations, hvisits''⟩, hroot⟩

theorem InUse.repeats_respond (h : s.InUse n a) {value : Json}
    (hok : s.perform (.respond value) = (.ok answer, s')) :
    s.Repeats n m k a (.respond value) answer s' := by
  rw [perform, ask] at hok
  dsimp only at hok
  rw [Adapter.run_respond h.recorder, Adapter.run_bind, Adapter.run_record h.recorder] at hok
  rcases hrun : Recording.run Recorder.sending a with ⟨_ | ⟨⟩, a'⟩
  · rw [hrun] at hok
    cases hok
  · rw [hrun] at hok
    dsimp only at hok
    rcases hsettle : Adapter.run { s.adapter with recorder := some a' } (Adapter.settle value) with
      ⟨_ | ⟨⟩, adapter⟩
    · rw [hsettle] at hok
      cases hok
    · rw [hsettle] at hok
      cases hok
      obtain ⟨⟨ha', hgrown, -⟩, hagain⟩ := Recorder.echoes_sending (m := m) a a' () h.usable hrun
      refine ⟨a', ⟨?_, ha', h.callbacks, h.visits⟩, hgrown, fun t b ht hcovers => ?_⟩
      · rcases Adapter.settle_cases { s.adapter with recorder := some a' } value with
          ⟨e, he⟩ | ⟨id, -, -, hid⟩
        · rw [he] at hsettle
          cases hsettle
        · rw [hid] at hsettle
          cases hsettle
          rfl
      · obtain ⟨b', hrun', hmirrors, hsound, hroot⟩ := hagain b ht.mirrors ht.sound hcovers
        obtain ⟨adapter', hsettle', hwithin, hrecorder, -⟩ :=
          (ht.adapter.record (some a') (some b')).settle hsettle
        refine ⟨{ t with adapter := adapter' }, b', ?_, ⟨hrecorder, hmirrors, hsound, hwithin,
          ht.callbacks, ht.conversations, ht.firings⟩, hroot⟩
        rw [perform, ask]
        dsimp only
        rw [Adapter.run_respond ht.recorder, Adapter.run_bind, Adapter.run_record ht.recorder, hrun']
        dsimp only
        rw [hsettle']
        rfl

/-- A move that records nothing. -/
theorem InUse.repeats_of_within (h : s.InUse n a) {move : Move} {adapter : Adapter}
    {conversations : List ConversationId}
    (hs' : s' = { s with adapter, conversations }) (hrecorder : adapter.recorder = s.adapter.recorder)
    (hmove : ∀ t b, s.InStep n m k t a b → ∃ adapter', adapter'.recorder = t.adapter.recorder ∧
      adapter.Within k adapter' ∧ t.perform move = (.ok answer, { t with
        adapter := adapter', conversations := conversations.map (· + k) })) :
    s.Repeats n m k a move answer s' := by
  subst hs'
  refine ⟨a, ⟨hrecorder.trans h.recorder, h.usable, h.callbacks, h.visits⟩,
    .refl h.usable.sound.tidy.wellFormed, fun t b ht _ => ?_⟩
  obtain ⟨adapter', hrecorder', hwithin, hperform⟩ := hmove t b ht
  exact ⟨_, b, hperform, ⟨hrecorder'.trans ht.recorder, ht.mirrors, ht.sound, hwithin, ht.callbacks,
    rfl, ht.firings⟩, rfl⟩

theorem InUse.repeats_fetch (h : s.InUse n a) {method : Event} {url : String} {body : Option Json}
    (hok : s.perform (.fetch method url body) = (.ok answer, s')) :
    s.Repeats n m k a (.fetch method url body) answer s' := by
  have hperform (t : Scene) : t.perform (.fetch method url body) =
      (.ok (.fetched (t.adapter.fetch method url body).1),
        { t with adapter := (t.adapter.fetch method url body).2 }) := rfl
  rw [hperform] at hok
  obtain ⟨hanswer, hs'⟩ := Prod.mk.inj hok
  have hrecorder : (s.adapter.fetch method url body).2.recorder = s.adapter.recorder := by
    obtain ⟨network, hnetwork⟩ := Adapter.fetch_network s.adapter method url body
    rw [hnetwork]
  refine h.repeats_of_within hs'.symm hrecorder fun t b ht => ?_
  obtain ⟨hanswer', hwithin, -, hrecorder'⟩ := ht.adapter.fetch method url body
  refine ⟨_, hrecorder', hwithin, ?_⟩
  rw [hperform, hanswer', ← Except.ok.inj hanswer, ht.conversations]

theorem InUse.repeats_openConversation (h : s.InUse n a)
    (hok : s.perform .openConversation = (.ok answer, s')) :
    s.Repeats n m k a .openConversation answer s' := by
  cases hok
  refine h.repeats_of_within rfl rfl fun t b ht => ?_
  refine ⟨t.adapter.openConversation.2, rfl, ⟨ht.adapter.conversation, ?_, fun id => ?_,
    ht.adapter.responses, ht.adapter.routes⟩, ?_⟩
  · simp only [Adapter.openConversation, ht.adapter.opened]
    omega
  · simp [Adapter.openConversation, ht.adapter.opened, ht.adapter.pending]
  · simp [perform, Adapter.openConversation, ht.conversations, ht.adapter.opened]

theorem InUse.repeats_takeResponse (h : s.InUse n a) {c : Nat}
    (hok : s.perform (.takeResponse c) = (.ok answer, s')) :
    s.Repeats n m k a (.takeResponse c) answer s' := by
  cases hc : s.conversations[c]? with
  | none =>
      rw [perform, hc] at hok
      cases hok
  | some id =>
      rw [perform, hc] at hok
      cases hok
      refine h.repeats_of_within rfl rfl fun t b ht => ?_
      have hc' : t.conversations[c]? = some (id + k) := by
        rw [ht.conversations, List.getElem?_map, hc, Option.map_some]
      refine ⟨(t.adapter.takeResponse (id + k)).2, rfl, ⟨ht.adapter.conversation, ht.adapter.opened,
        ht.adapter.pending, fun other => ?_, ht.adapter.routes⟩, ?_⟩
      · simp only [Adapter.takeResponse, Recorder.lookup_filter_ne, ht.adapter.responses]
        simp
      · rw [perform, hc']
        simp [Adapter.takeResponse, ht.adapter.responses, ht.conversations]

end Scene

/-- A move whose operation records expressions in the active context, and which does not ask for
the trace. -/
def Move.IsPlain : Move → Prop
  | .operation op => op.Plain ∧ ∀ c, (op.plan? c).isSome = true
  | .trace => False
  | _ => True

/-- Moves that can be made again, and succeed. -/
def Log.IsPlain (log : Log) : Prop :=
  ∀ entry ∈ log, entry.1.IsPlain ∧ entry.2.isOk = true

namespace Scene

variable {s s' t : Scene} {a b : Recorder} {answer : Answer} {move : Move} {log : Log}

theorem InUse.repeats (h : s.InUse n a) (hmove : move.IsPlain)
    (hok : s.perform move = (.ok answer, s')) : s.Repeats n m k a move answer s' := by
  cases move with
  | operation op => exact h.repeats_operation hmove.1 hmove.2 hok
  | tracing => exact h.repeats_tracing hok
  | trace => exact hmove.elim
  | register event => exact h.repeats_register hok
  | discard i => exact h.repeats_discard hok
  | enter i conversation => exact h.repeats_enter hok
  | leave completed => exact h.repeats_leave hok
  | respond value => exact h.repeats_respond hok
  | fetch method url body => exact h.repeats_fetch hok
  | openConversation => exact h.repeats_openConversation hok
  | takeResponse c => exact h.repeats_takeResponse hok

/-- What a scene in use goes through, one in step goes through as well, if its trace covers what
the first one comes to record. -/
theorem InUse.leads (h : s.InUse n a) (hlog : log.IsPlain) (hleads : s.Leads log s') :
    ∃ a', s'.InUse n a' ∧ Covers a'.root a.root ∧
      ∀ t b, s.InStep n m k t a b → Covers b.root a'.root →
        ∃ t' b', t.Leads log t' ∧ s'.InStep n m k t' a' b' ∧ b'.root = b.root := by
  induction log generalizing s a with
  | nil =>
      obtain rfl : s' = s := hleads
      exact ⟨a, h, .refl h.usable.sound.tidy.wellFormed, fun t b ht _ => ⟨t, b, rfl, ht, rfl⟩⟩
  | cons entry log ih =>
      obtain ⟨move, reply⟩ := entry
      obtain ⟨⟨hmove, hok⟩, hothers⟩ := List.forall_mem_cons.mp hlog
      obtain ⟨hreply, hleads⟩ := hleads
      cases reply with
      | error e => cases hok
      | ok answer =>
          obtain ⟨a₁, h₁, hgrown, hfirst⟩ := h.repeats hmove (Prod.ext hreply rfl)
          obtain ⟨a₂, h₂, hgrown', hrest⟩ := ih h₁ hothers hleads
          have htidy := h.usable.sound.tidy.wellFormed
          have htidy₁ := h₁.usable.sound.tidy.wellFormed
          have htidy₂ := h₂.usable.sound.tidy.wellFormed
          refine ⟨a₂, h₂, hgrown'.trans htidy₂ htidy₁ htidy hgrown, fun t b ht hcovers => ?_⟩
          obtain ⟨t₁, b₁, hperform, ht₁, hroot₁⟩ := hfirst t b ht
            (hcovers.trans ht.sound.tidy.wellFormed htidy₂ htidy₁ hgrown')
          obtain ⟨t₂, b₂, hleads', ht₂, hroot₂⟩ := hrest t₁ b₁ ht₁ (hroot₁ ▸ hcovers)
          refine ⟨t₂, b₂, ⟨?_, ?_⟩, ht₂, hroot₂.trans hroot₁⟩
          · rw [hperform]
          · rw [hperform]
            exact hleads'

/-! ## Where a scene comes to rest -/

/-- What was active when the first of the running callbacks was entered. -/
def home (s : Scene) : Whereabouts :=
  (s.visits.getLast?.map fun v =>
    (v.firing.previousContext, v.firing.previousConversation)).getD s.adapter.whereabouts

theorem home_of_visits_eq_nil (h : s.visits = []) : s.home = s.adapter.whereabouts := by
  simp [home, h]

/-- Between its callbacks a scene is where it was, and it numbers conversations in order. -/
structure Poised (place : Whereabouts) (s : Scene) : Prop where
  home : s.home = place
  pending : ∀ id ∈ s.adapter.pending, id < s.adapter.opened
  responses : ∀ id, s.adapter.opened ≤ id → s.adapter.responses.lookup id = none

theorem Poised.stays {place : Whereabouts} (h : s.Poised place)
    (hwhere : s'.adapter.whereabouts = s.adapter.whereabouts) (hvisits : s'.visits = s.visits)
    (hopened : s'.adapter.opened = s.adapter.opened)
    (hpending : s'.adapter.pending = s.adapter.pending)
    (hresponses : s'.adapter.responses = s.adapter.responses) : s'.Poised place where
  home := by rw [← h.home, Scene.home, Scene.home, hvisits, hwhere]
  pending := by rw [hpending, hopened]; exact h.pending
  responses := by rw [hresponses, hopened]; exact h.responses

theorem Poised.records {place : Whereabouts} (h : s.Poised place) {α : Type} {x : Adapting α}
    (hx : Adapter.RecordsOnly x) (hwhere : (s.adapter.run x).2.whereabouts = s.adapter.whereabouts)
    (hvisits : s'.visits = s.visits) (hadapter : s'.adapter = (s.adapter.run x).2) :
    s'.Poised place := by
  obtain ⟨recorder, hrecorder⟩ := hx s.adapter
  rw [← hadapter] at hwhere hrecorder
  exact h.stays hwhere hvisits (by rw [hrecorder]) (by rw [hrecorder]) (by rw [hrecorder])

theorem Poised.discard {place : Whereabouts} (h : s.Poised place) (ha : s.InUse n a) (i : Nat) :
    (s.perform (.discard i)).2.Poised place := by
  rw [perform]
  cases hg : s.callbacks[i]? with
  | none => exact h
  | some g =>
      obtain ⟨id, hid, -⟩ := ha.callback hg
      refine h.records (Adapter.recordsOnly_discard g) ?_ rfl rfl
      rw [Adapter.run_discard ha.recorder hid]
      change (some (if _ then _ else _ : Recorder).active, _) = _
      rw [Adapter.whereabouts, ha.recorder]
      split <;> rfl

theorem Poised.enter {place : Whereabouts} (h : s.Poised place) (ha : s.InUse n a) {i : Nat}
    {conversation : Option Nat} (hok : s.perform (.enter i conversation) = (.ok answer, s')) :
    s'.Poised place := by
  rw [perform] at hok
  cases hg : s.callbacks[i]? with
  | none =>
      rw [hg] at hok
      cases hok
  | some g =>
      rw [hg] at hok
      dsimp only at hok
      obtain ⟨id, hid, -⟩ := ha.callback hg
      rcases henter : s.adapter.run (Adapter.enter g (s.conversation? conversation)) with
        ⟨_ | firing, adapter⟩
      · rw [henter] at hok
        cases hok
      · rw [henter] at hok
        cases hok
        obtain ⟨previous, a', hrun, rfl, rfl⟩ :=
          (Adapter.run_enter_eq_ok_iff ha.recorder hid).mp henter
        refine ⟨?_, h.pending, h.responses⟩
        obtain rfl : previous = a.active := Recorder.previous_of_entering hrun
        rw [← h.home, Scene.home, Scene.home]
        cases hvisits : s.visits with
        | nil => simp [Adapter.whereabouts, ha.recorder]
        | cons v visits => simp [List.getLast?_cons]

theorem Poised.leave {place : Whereabouts} (h : s.Poised place) (ha : s.InUse n a) {completed : Bool}
    (hok : s.perform (.leave completed) = (.ok answer, s')) : s'.Poised place := by
  rw [perform] at hok
  cases hvisits : s.visits with
  | nil =>
      rw [hvisits] at hok
      cases hok
  | cons v visits =>
      rw [hvisits] at hok
      dsimp only at hok
      rw [ask] at hok
      dsimp only at hok
      obtain ⟨previous, hprevious, -⟩ := ha.visits v (hvisits ▸ List.mem_cons_self)
      rcases hleave : s.adapter.run (Adapter.leave v.firing completed) with ⟨_ | ⟨⟩, adapter⟩
      · rw [hleave] at hok
        cases hok
      · rw [hleave] at hok
        cases hok
        obtain ⟨a', hrun, rfl⟩ :=
          (Adapter.run_leave_eq_ok_iff ha.recorder hprevious completed).mp hleave
        refine ⟨?_, h.pending, h.responses⟩
        have hactive : a'.active = previous := Recorder.active_of_leaving hrun
        rw [← h.home, Scene.home, Scene.home, hvisits]
        cases visits with
        | nil => simp [Adapter.whereabouts, hprevious, hactive]
        | cons w visits => simp [List.getLast?_cons]

theorem Poised.respond {place : Whereabouts} (h : s.Poised place) (value : Json) :
    (s.perform (.respond value)).2.Poised place := by
  have hwhere := (Adapter.remains_respond value s.adapter).whereabouts_eq
  rw [perform, ask]
  dsimp only
  rcases Adapter.respond_cases s.adapter value with ⟨e, recorder, hrun⟩ | ⟨id, recorder, -, hid, hrun⟩
  · rw [hrun] at hwhere ⊢
    exact h.stays hwhere rfl rfl rfl rfl
  · rw [hrun] at hwhere ⊢
    refine ⟨?_, fun other hother => h.pending other (List.mem_of_mem_filter hother),
      fun other hother => ?_⟩
    · rw [← h.home, Scene.home, Scene.home, hwhere]
    · have hne : other ≠ id := fun heq => Nat.not_lt.mpr hother (heq ▸ h.pending id hid)
      rw [Adapter.lookup_answered, if_neg hne]
      exact h.responses other hother

theorem Poised.openConversation {place : Whereabouts} (h : s.Poised place) :
    (s.perform .openConversation).2.Poised place where
  home := h.home
  pending := List.forall_mem_cons.mpr ⟨Nat.lt_succ_self _, fun id hid =>
    Nat.lt_succ_of_lt (h.pending id hid)⟩
  responses id hid := h.responses id (Nat.le_of_succ_le hid)

theorem Poised.takeResponse {place : Whereabouts} (h : s.Poised place) (c : Nat) :
    (s.perform (.takeResponse c)).2.Poised place := by
  rw [perform]
  cases s.conversations[c]? with
  | none => exact h
  | some id =>
      refine ⟨h.home, h.pending, fun other hother => ?_⟩
      change List.lookup other (s.adapter.responses.filter fun entry => entry.1 ≠ id) = none
      rw [Recorder.lookup_filter_ne, h.responses other hother, ite_self]

theorem isLocal_of_plan? {op : Operation} (h : ∀ c, (op.plan? c).isSome = true) :
    op.isLocal = true := by
  cases op <;> first | rfl | cases h (.idle [])

theorem Poised.perform {place : Whereabouts} (h : s.Poised place) (ha : s.InUse n a)
    (hmove : move.IsPlain) (hok : s.perform move = (.ok answer, s')) : s'.Poised place := by
  obtain rfl : (s.perform move).2 = s' := congrArg Prod.snd hok
  cases move with
  | operation op =>
      have hremains := Adapter.remains_record (Operation.remains_perform (isLocal_of_plan? hmove.2))
      exact h.records (Adapter.recordsOnly_record op.perform) (hremains s.adapter).whereabouts_eq
        rfl rfl
  | tracing => exact h
  | trace => exact hmove.elim
  | register event =>
      have hwhere := (Adapter.remains_register event s.adapter).whereabouts_eq
      refine h.records (Adapter.recordsOnly_register event) hwhere ?_ ?_ <;>
        · rw [Scene.perform]
          rcases s.adapter.run (Adapter.register event) with ⟨_ | _, _⟩ <;> rfl
  | discard i => exact h.discard ha i
  | enter i conversation => exact h.enter ha hok
  | leave completed => exact h.leave ha hok
  | respond value => exact h.respond value
  | fetch method url body =>
      obtain ⟨network, hnetwork⟩ := Adapter.fetch_network s.adapter method url body
      refine h.stays (Adapter.onward_fetch s.adapter method url body).whereabouts_eq rfl ?_ ?_ ?_ <;>
        · rw [Scene.perform]
          dsimp only
          rw [hnetwork]
  | openConversation => exact h.openConversation
  | takeResponse c => exact h.takeResponse c

theorem Poised.leads {place : Whereabouts} (h : s.Poised place) (ha : s.InUse n a)
    (hlog : log.IsPlain) (hleads : s.Leads log s') : s'.Poised place := by
  induction log generalizing s a with
  | nil =>
      obtain rfl : s' = s := hleads
      exact h
  | cons entry log ih =>
      obtain ⟨move, reply⟩ := entry
      obtain ⟨⟨hmove, hok⟩, hothers⟩ := List.forall_mem_cons.mp hlog
      obtain ⟨hreply, hleads⟩ := hleads
      cases reply with
      | error e => cases hok
      | ok answer =>
          have hperform : s.perform move = (.ok answer, (s.perform move).2) := Prod.ext hreply rfl
          obtain ⟨a₁, h₁, -⟩ := ha.repeats (m := 0) (k := 0) hmove hperform
          exact ih (h.perform ha hmove hperform) h₁ hothers hleads

/-! ## From the start of a program -/

theorem routes_fetch (a : Adapter) (method : Event) (url : String) (body : Option Json) :
    (a.fetch method url body).2.network.routes = a.network.routes := by
  unfold Adapter.fetch
  split
  · split <;> rfl
  · rfl

theorem routes_perform (s : Scene) (move : Move) :
    (s.perform move).2.adapter.network.routes = s.adapter.network.routes := by
  have hrecords {α : Type} {x : Adapting α} (hx : Adapter.RecordsOnly x) :
      (s.adapter.run x).2.network.routes = s.adapter.network.routes := by
    obtain ⟨recorder, hrecorder⟩ := hx s.adapter
    rw [hrecorder]
  cases move with
  | operation op =>
      have hroutes := hrecords (Adapter.recordsOnly_record op.perform)
      exact hroutes
  | register event =>
      have hroutes := hrecords (Adapter.recordsOnly_register event)
      rw [perform]
      generalize s.adapter.run (Adapter.register event) = result at hroutes
      rcases result with ⟨_ | _, _⟩ <;> exact hroutes
  | discard i =>
      rw [perform]
      cases s.callbacks[i]? with
      | none => rfl
      | some g =>
          have hroutes := hrecords (Adapter.recordsOnly_discard g)
          exact hroutes
  | enter i conversation =>
      rw [perform]
      cases s.callbacks[i]? with
      | none => rfl
      | some g =>
          dsimp only
          rcases Adapter.enter_cases s.adapter g (s.conversation? conversation) with
            ⟨e, recorder, hrun⟩ | ⟨firing, recorder, hrun, -⟩ <;>
            rw [hrun]
  | leave completed =>
      rw [perform]
      cases s.visits with
      | nil => rfl
      | cons v visits =>
          obtain ⟨recorder, hrun⟩ := Adapter.run_leave_conversation s.adapter v.firing completed
          dsimp only
          rw [ask]
          dsimp only
          rw [hrun]
  | respond value =>
      rw [perform, ask]
      dsimp only
      rcases Adapter.respond_cases s.adapter value with
        ⟨e, recorder, hrun⟩ | ⟨id, recorder, -, -, hrun⟩ <;>
        rw [hrun]
  | fetch method url body => exact routes_fetch s.adapter method url body
  | takeResponse c =>
      rw [perform]
      cases s.conversations[c]? <;> rfl
  | _ => rfl

theorem Leads.routes (hleads : s.Leads log s') :
    s'.adapter.network.routes = s.adapter.network.routes := by
  induction log generalizing s with
  | nil =>
      obtain rfl : s' = s := hleads
      rfl
  | cons entry log ih => exact (ih hleads.2).trans (routes_perform s entry.1)

/-- Outside of all callbacks, in the program's own context. -/
abbrev outside : Whereabouts :=
  (some Recorder.rootContext, none)

variable {network : Network}

theorem inUse_new : (Scene.new (.new (some .new) network)).InUse Recorder.new.nextContext .new where
  recorder := rfl
  usable := ⟨Recorder.sound_new, plainPending_new, rfl, Nat.le_refl _, own_rootContext⟩
  callbacks := List.forall_mem_nil _
  visits := List.forall_mem_nil _

theorem poised_new : (Scene.new (.new (some .new) network)).Poised outside where
  home := rfl
  pending := List.forall_mem_nil _
  responses _ _ := rfl

theorem perform_restart {b : Recorder} {B : Adapter} (hb : B.recorder = some b) (hready : b.Ready) :
    (Scene.new B).perform (.operation .restart) =
      (.ok .done, { Scene.new B with adapter := { B with recorder := some b.restarted } }) := by
  have hrecorder : (Scene.new B).adapter.recorder = some b := hb
  rw [perform, ask, Adapter.run_record hrecorder, hready.run_restart]
  rfl

/-- What a new adapter goes through, an adapter that has recorded at least as much goes through as
well, if both start over. -/
theorem leads_again (hlog : log.IsPlain) (hfirst : log.head? = some (.operation .restart, .ok .done))
    (hleads : (Scene.new (.new (some .new) network)).Leads log s') {r : Recorder}
    (hr : s'.adapter.recorder = some r) {B : Adapter} {b : Recorder} (hb : B.recorder = some b)
    (hready : b.Ready) (hpoised : (Scene.new B).Poised outside)
    (hroutes : B.network.routes = network.routes) (hcovers : Covers b.root r.root) :
    ∃ t' b', (Scene.new B).Leads log t' ∧ t'.adapter.recorder = some b' ∧ b'.root = b.root := by
  obtain ⟨rest, rfl⟩ := List.head?_eq_some_iff.mp hfirst
  obtain ⟨-, hleads⟩ := hleads
  obtain ⟨-, hrest⟩ := List.forall_mem_cons.mp hlog
  have hstart : (Scene.new (.new (some .new) network)).perform (.operation .restart) = _ :=
    perform_restart rfl Recorder.ready_new
  have hrepeats : (Scene.new (.new (some .new) network)).Repeats Recorder.new.nextContext 0 0 .new
      (.operation .restart) .done _ := inUse_new.repeats ⟨nofun, fun _ => rfl⟩ hstart
  obtain ⟨a, ha, -⟩ := hrepeats
  obtain rfl : Recorder.new.restarted = a := Option.some.inj ha.recorder
  rw [hstart] at hleads
  obtain ⟨r', hr', hgrown, hagain⟩ := ha.leads hrest hleads
  obtain rfl : r = r' := Option.some.inj (hr.symm.trans hr'.recorder)
  have htidy := hready.sound.tidy.wellFormed
  have hbegun : Covers b.root Recorder.new.root :=
    hcovers.trans htidy hr'.usable.sound.tidy.wellFormed Recorder.sound_new.tidy.wellFormed hgrown
  have hstep : InStep Recorder.new.nextContext b.nextContext B.opened
      { Scene.new (.new (some .new) network) with
        adapter := { Adapter.new (some .new) network with recorder := some Recorder.new.restarted } }
      { Scene.new B with adapter := { B with recorder := some b.restarted } }
      Recorder.new.restarted b.restarted := by
    refine ⟨rfl, Recorder.mirrors_restarted Recorder.ready_new hready hbegun, hready.sound_restarted,
      ⟨?_, ?_, fun id => ?_, fun id => ?_, hroutes⟩, rfl, rfl, rfl⟩
    · exact congrArg Prod.snd hpoised.home
    · exact (Nat.zero_add _).symm
    · refine iff_of_false (fun hid => ?_) List.not_mem_nil
      exact Nat.not_lt.mpr (Nat.le_add_left _ id) (hpoised.pending _ hid)
    · exact hpoised.responses _ (Nat.le_add_left _ id)
  obtain ⟨t', b', hleads', ht', hroot⟩ := hagain _ _ hstep hcovers
  refine ⟨t', b', ⟨?_, ?_⟩, ht'.recorder, hroot⟩
  · rw [perform_restart hb hready]
  · rw [perform_restart hb hready]
    exact hleads'

end Scene

end TraceLoom
