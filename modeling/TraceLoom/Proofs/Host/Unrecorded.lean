import TraceLoom.Proofs.Host.Again

/-!
Recording changes nothing about what an adapter does.  An adapter without a recorder, of which the
same is asked but for what concerns the recorder alone, gives the same replies and comes to the
same state, whatever answers requests have.
-/

namespace TraceLoom

/-! ## Hosts -/

/-- Whatever answers requests, knowing those that were sent before, the latest first. -/
abbrev Host := List Request → Request → Except HostError Json

/-- Answers that are fixed in advance. -/
def Network.host (n : Network) : Host :=
  fun _ request => (n.send request).1

/-- Fetches from any host. -/
def Adapter.fetchFrom (host : Host) (a : Adapter) (method : Event) (url : String)
    (body : Option Json) : Except HostError Json × Adapter :=
  if method.isRequest then
    match Network.dataUrl? url with
    | some answer => (answer, a)
    | none =>
      let request : Request := ⟨method, url, body⟩
      (host a.network.sent request,
        { a with network := { a.network with sent := request :: a.network.sent } })
  else (.error (.notARequest method), a)

theorem Adapter.fetchFrom_network (a : Adapter) (method : Event) (url : String)
    (body : Option Json) :
    a.fetchFrom a.network.host method url body = a.fetch method url body := by
  unfold fetchFrom fetch
  split
  · cases Network.dataUrl? url <;> rfl
  · rfl

namespace Scene

/-- Performs a move where any host answers the requests. -/
def performWith (host : Host) (s : Scene) : Move → Reply × Scene
  | .fetch method url body =>
      let (answer, adapter) := s.adapter.fetchFrom host method url body
      (.ok (.fetched answer), { s with adapter })
  | move => s.perform move

/-- With fixed answers that is what scenes do anyway. -/
theorem performWith_network (s : Scene) (move : Move) :
    s.performWith s.adapter.network.host move = s.perform move := by
  cases move with
  | fetch method url body => rw [performWith, Adapter.fetchFrom_network, perform]
  | _ => rfl

theorem host_perform (s : Scene) (move : Move) :
    (s.perform move).2.adapter.network.host = s.adapter.network.host := by
  funext sent request
  simp only [Network.host, Network.send, routes_perform]

/-- The moves that are made, with their replies. -/
def logWith (host : Host) (s : Scene) : List Move → Log
  | [] => []
  | move :: moves =>
      (move, (s.performWith host move).1) :: (s.performWith host move).2.logWith host moves

/-- The scene after some moves. -/
def afterWith (host : Host) (s : Scene) (moves : List Move) : Scene :=
  moves.foldl (fun s move => (s.performWith host move).2) s

theorem afterWith_cons (host : Host) (s : Scene) (move : Move) (moves : List Move) :
    s.afterWith host (move :: moves) = (s.performWith host move).2.afterWith host moves := rfl

theorem logWith_append (host : Host) (s : Scene) (moves more : List Move) :
    s.logWith host (moves ++ more) =
      s.logWith host moves ++ (s.afterWith host moves).logWith host more := by
  induction moves generalizing s with
  | nil => rfl
  | cons move moves ih => rw [List.cons_append, logWith, ih, logWith, afterWith_cons, List.cons_append]

theorem leads_logWith_network (s : Scene) (moves : List Move) :
    s.Leads (s.logWith s.adapter.network.host moves) (s.after moves) := by
  induction moves generalizing s with
  | nil => rfl
  | cons move moves ih =>
      have hmoves := ih (s.perform move).2
      rw [host_perform] at hmoves
      rw [logWith, performWith_network, after_cons]
      exact ⟨rfl, hmoves⟩

end Scene

/-! ## Without a recorder -/

def Registration.unrecorded (g : Registration) : Registration :=
  { g with context := none }

def Firing.unrecorded (f : Firing) : Firing :=
  { f with previousContext := none }

def Adapter.unrecorded (a : Adapter) : Adapter :=
  { a with recorder := none }

def Visit.unrecorded (v : Visit) : Visit :=
  ⟨v.callback, v.firing.unrecorded, (none, v.before.2)⟩

/-- The scene as it is but for the recorder and its contexts. -/
def Scene.unrecorded (s : Scene) : Scene :=
  ⟨s.adapter.unrecorded, s.callbacks.map Registration.unrecorded, s.conversations,
    s.visits.map Visit.unrecorded, s.entered⟩

/-- Whether a move concerns the recorder alone. -/
def Move.isForRecorder : Move → Bool
  | .operation _ | .tracing | .trace => true
  | _ => false

namespace Adapter

variable {α β : Type} {a b : Adapter}

/-- What a step gives and does when it succeeds, another one does without the recorder. -/
def Shadows (x : Adapting α) (y : Adapting β) (f : α → β) : Prop :=
  ∀ {a b : Adapter} {v : α}, a.run x = (.ok v, b) → a.unrecorded.run y = (.ok (f v), b.unrecorded)

theorem RecordsOnly.unrecorded_eq {x : Adapting α} (hx : RecordsOnly x) (a : Adapter) :
    (a.run x).2.unrecorded = a.unrecorded := by
  obtain ⟨recorder, ha⟩ := hx a
  rw [ha]
  rfl

theorem shadows_register (event : Event) :
    Shadows (register event) (register event) Registration.unrecorded := by
  intro a b g h
  have hb := (recordsOnly_register event).unrecorded_eq a
  rw [h] at hb
  rw [run_register_of_none rfl, hb]
  cases hr : a.recorder with
  | none =>
      rw [run_register_of_none hr] at h
      cases h
      rfl
  | some r =>
      rw [run_register hr] at h
      rcases hresult : (Recording.run (Recorder.registering event) r).1 with e | id
      · rw [hresult] at h
        cases h
      · rw [hresult] at h
        cases h
        rfl

theorem shadows_discard (g : Registration) :
    Shadows (discard g) (discard g.unrecorded) id := by
  intro a b v h
  have hb := (recordsOnly_discard g).unrecorded_eq a
  rw [h] at hb
  rw [run_discard_of_none rfl, hb]

/-- Entering a callback goes into its conversation; besides it may change the recorder. -/
theorem enter_eq_ok {g : Registration} {conversation : Option ConversationId} {firing : Firing}
    (h : a.run (enter g conversation) = (.ok firing, b)) :
    firing.unrecorded = ⟨g.event, none, a.conversation⟩ ∧
      b.unrecorded = { a.unrecorded with conversation := conversation.or g.conversation } := by
  cases hr : a.recorder with
  | none =>
      rw [run_enter_of_none hr] at h
      cases h
      exact ⟨rfl, rfl⟩
  | some r =>
      cases hid : g.context with
      | some id =>
          obtain ⟨previous, r', -, rfl, rfl⟩ := (run_enter_eq_ok_iff hr hid).mp h
          exact ⟨rfl, rfl⟩
      | none =>
          rw [enter, run_bind, run_get] at h
          dsimp only at h
          rw [hr, hid] at h
          cases h
          exact ⟨rfl, rfl⟩

theorem shadows_enter (g : Registration) (conversation : Option ConversationId) :
    Shadows (enter g conversation) (enter g.unrecorded conversation) Firing.unrecorded := by
  intro a b firing h
  obtain ⟨hfiring, hb⟩ := enter_eq_ok h
  rw [run_enter_of_none rfl, hfiring, hb]
  rfl

theorem shadows_leave (firing : Firing) (completed : Bool) :
    Shadows (leave firing completed) (leave firing.unrecorded completed) id := by
  intro a b v h
  obtain ⟨recorder, hb⟩ := run_leave_conversation a firing completed
  rw [h] at hb
  obtain rfl : b = _ := hb
  exact run_leave_of_none rfl firing.unrecorded completed

theorem shadows_respond (value : Json) : Shadows (respond value) (respond value) id := by
  intro a b v h
  rw [run_respond_of_none rfl]
  have hsettle {c : Adapter} (hc : c.unrecorded = a.unrecorded)
      (hrun : c.run (settle value) = (.ok v, b)) :
      a.unrecorded.run (settle value) = (.ok v, b.unrecorded) := by
    have hsame := (run_settle c value).2
    rw [hrun] at hsame
    rw [← hc]
    exact hsame
  cases hr : a.recorder with
  | none =>
      rw [run_respond_of_none hr] at h
      exact hsettle rfl h
  | some r =>
      rw [run_respond hr, run_bind, run_record hr] at h
      rcases hsending : Recording.run Recorder.sending r with ⟨e | _, r'⟩
      · rw [hsending] at h
        cases h
      · rw [hsending] at h
        exact hsettle (c := { a with recorder := some r' }) rfl h

end Adapter

namespace Scene

variable {host : Host} {s s' : Scene} {move : Move} {answer : Answer}

/-! ## One move -/

theorem ask_unrecorded {α β : Type} {x : Adapting α} {y : Adapting β} {f : α → β} {g : α → Answer}
    {k : β → Answer} (hxy : Adapter.Shadows x y f) (hk : ∀ v, k (f v) = g v)
    (h : s.ask x g = (.ok answer, s')) : s.unrecorded.ask y k = (.ok answer, s'.unrecorded) := by
  rcases hrun : s.adapter.run x with ⟨result, b⟩
  rw [ask, hrun] at h
  cases result with
  | error e => cases h
  | ok v =>
      cases h
      rw [ask, show s.unrecorded.adapter.run y = _ from hxy hrun, ← hk]
      rfl

/-- What concerns the recorder alone changes nothing else. -/
theorem performWith_of_isForRecorder (host : Host) (s : Scene) (hmove : move.isForRecorder = true) :
    (s.performWith host move).2.unrecorded = s.unrecorded := by
  cases move with
  | operation op =>
      have hsame := (Adapter.recordsOnly_record op.perform).unrecorded_eq s.adapter
      show Scene.mk (s.adapter.run (Adapter.record op.perform)).2.unrecorded _ _ _ _ = _
      rw [hsame]
      rfl
  | tracing | trace => rfl
  | _ => cases hmove

/-- Every other move that succeeds does the same without the recorder. -/
theorem performWith_unrecorded (hmove : move.isForRecorder = false)
    (h : s.performWith host move = (.ok answer, s')) :
    s.unrecorded.performWith host move = (.ok answer, s'.unrecorded) := by
  have hcallback (i : Nat) :
      s.unrecorded.callbacks[i]? = s.callbacks[i]?.map Registration.unrecorded :=
    List.getElem?_map
  cases move with
  | operation | tracing | trace => cases hmove
  | register event =>
      simp only [performWith, perform] at h ⊢
      rcases hrun : s.adapter.run (Adapter.register event) with ⟨_ | g, b⟩
      · rw [hrun] at h
        cases h
      · rw [hrun] at h
        cases h
        rw [show s.unrecorded.adapter.run _ = _ from Adapter.shadows_register event hrun]
        simp [unrecorded]
  | discard i =>
      simp only [performWith, perform, hcallback] at h ⊢
      cases hi : s.callbacks[i]? with
      | none =>
          rw [hi] at h
          cases h
      | some g =>
          rw [hi] at h
          exact ask_unrecorded (Adapter.shadows_discard g) (fun _ => rfl) h
  | enter i conversation =>
      simp only [performWith, perform, hcallback] at h ⊢
      cases hi : s.callbacks[i]? with
      | none =>
          rw [hi] at h
          cases h
      | some g =>
          rw [hi] at h
          dsimp only at h
          rcases hrun : s.adapter.run (Adapter.enter g (s.conversation? conversation)) with
            ⟨_ | firing, b⟩
          · rw [hrun] at h
            cases h
          · rw [hrun] at h
            cases h
            have hshadow : s.unrecorded.adapter.run (Adapter.enter g.unrecorded
                (s.unrecorded.conversation? conversation)) = _ := Adapter.shadows_enter g _ hrun
            simp only [Option.map_some, hshadow]
            rfl
  | leave completed =>
      simp only [performWith, perform] at h ⊢
      cases hvisits : s.visits with
      | nil =>
          rw [hvisits] at h
          cases h
      | cons visit visits =>
          rw [hvisits] at h
          have hunrecorded : s.unrecorded.visits =
              visit.unrecorded :: visits.map Visit.unrecorded := by
            rw [unrecorded, hvisits, List.map_cons]
          rw [hunrecorded]
          exact ask_unrecorded (s := { s with visits }) (Adapter.shadows_leave visit.firing completed)
            (fun _ => rfl) h
  | respond value => exact ask_unrecorded (Adapter.shadows_respond value) (fun _ => rfl) h
  | fetch method url body =>
      simp only [performWith] at h ⊢
      cases h
      unfold Adapter.fetchFrom
      split
      · show _ = _
        split <;> rfl
      · rfl
  | openConversation =>
      cases h
      rfl
  | takeResponse c =>
      simp only [performWith, perform] at h ⊢
      rw [show s.unrecorded.conversations = s.conversations from rfl]
      cases hc : s.conversations[c]? with
      | none =>
          rw [hc] at h
          cases h
      | some id =>
          rw [hc] at h
          cases h
          rfl

/-! ## Any number of moves -/

/-- The moves that a program makes whether or not it is recorded. -/
def unrecordedMoves (moves : List Move) : List Move :=
  moves.filter fun move => !move.isForRecorder

theorem logWith_unrecorded {moves : List Move}
    (hok : ∀ entry ∈ s.logWith host moves, entry.2.isOk = true) :
    s.unrecorded.logWith host (unrecordedMoves moves) =
        (s.logWith host moves).filter (fun entry => !entry.1.isForRecorder) ∧
      s.unrecorded.afterWith host (unrecordedMoves moves) = (s.afterWith host moves).unrecorded := by
  induction moves generalizing s with
  | nil => exact ⟨rfl, rfl⟩
  | cons move moves ih =>
      obtain ⟨hmove, hmoves⟩ := List.forall_mem_cons.mp hok
      obtain ⟨hlog, hafter⟩ := ih hmoves
      cases hrecorder : move.isForRecorder with
      | true =>
          have hsame := performWith_of_isForRecorder host s hrecorder
          rw [hsame] at hlog hafter
          rw [unrecordedMoves, List.filter_cons_of_neg (by simp [hrecorder]), logWith,
            List.filter_cons_of_neg (by simp [hrecorder]), afterWith_cons]
          exact ⟨hlog, hafter⟩
      | false =>
          rcases hperform : s.performWith host move with ⟨e | answer, s'⟩
          · rw [hperform] at hmove
            cases hmove
          · have hunrecorded := performWith_unrecorded hrecorder hperform
            rw [hperform] at hlog hafter
            rw [unrecordedMoves, List.filter_cons_of_pos (by simp [hrecorder]), logWith, logWith,
              List.filter_cons_of_pos (by simp [hrecorder]), afterWith_cons, afterWith_cons,
              hunrecorded, hperform]
            exact ⟨congrArg _ hlog, hafter⟩

/-- Recording does not change what an adapter does.  When every move of a scene that is recorded
succeeds, then without a recorder the same moves, but for those that concern the recorder alone,
succeed with the same replies, whatever host answers the requests; and after each of them the scene
is the same but for the recorder and its contexts: the registrations have the same events and
conversations, and the same conversation is active. -/
theorem logWith_untraced (host : Host) (r : Recorder) (network : Network) (moves : List Move)
    (hok : ∀ entry ∈ (new (.new (some r) network)).logWith host moves, entry.2.isOk = true) :
    (new (.new none network)).logWith host (unrecordedMoves moves) =
        ((new (.new (some r) network)).logWith host moves).filter
          (fun entry => !entry.1.isForRecorder) ∧
      ∀ part, part <+: moves →
        (new (.new none network)).afterWith host (unrecordedMoves part) =
          ((new (.new (some r) network)).afterWith host part).unrecorded := by
  refine ⟨(logWith_unrecorded (s := new (.new (some r) network)) hok).1, ?_⟩
  rintro part ⟨rest, rfl⟩
  rw [logWith_append] at hok
  exact (logWith_unrecorded (s := new (.new (some r) network)) fun entry hentry =>
    hok entry (List.mem_append_left _ hentry)).2

/-- A callback is registered, runs for a request, fetches and responds. -/
def exchange : List Move :=
  [.operation (.pushArgs [.name "later", .name "reply"]), .register .immediate, .tracing,
    .openConversation, .enter 0 (some 0), .operation .popArgs,
    .operation (.pushArgs [.name "respond", .string "ok"]), .fetch .get "http://a/" none,
    .respond (.string "ok"), .leave true, .trace, .takeResponse 0, .discard 0]

theorem logWith_untraced_exchange :
    let host : Host := fun sent _ => .ok (.integer sent.length)
    let network : Network := .ofRoutes []
    (∀ entry ∈ (new (.new (some .new) network)).logWith host exchange, entry.2.isOk = true) ∧
      (new (.new none network)).logWith host (unrecordedMoves exchange) =
        ((new (.new (some .new) network)).logWith host exchange).filter
          (fun entry => !entry.1.isForRecorder) ∧
      ∀ part, part <+: exchange →
        (new (.new none network)).afterWith host (unrecordedMoves part) =
          ((new (.new (some .new) network)).afterWith host part).unrecorded := by
  intro host network
  have hok : ∀ entry ∈ (new (.new (some .new) network)).logWith host exchange,
      entry.2.isOk = true := by
    decide +kernel
  exact ⟨hok, logWith_untraced host .new network exchange hok⟩

end Scene

end TraceLoom
