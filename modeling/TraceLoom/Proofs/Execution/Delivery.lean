import TraceLoom.Proofs.Execution.Errands
import TraceLoom.Proofs.Execution.Preservation
import TraceLoom.Proofs.Host.Whereabouts

/-!
Calls from outside.  A run first gives up what still waits, a request opens a conversation for the
listener and takes its answer at the end.  In between, both only do what programs do.
-/

namespace TraceLoom

open Script Running

/-- A call of an evaluator. -/
inductive Call where
  | reset
  | run (p : Program)
  | request (body : Json)

def Call.step (budget : Nat) : Call → Running Outcome
  | reset => (fun _ => Outcome.value .undefined) <$> Machine.reset
  | run p => Outcome.value <$> Machine.runProgram budget p
  | request body => Outcome.answer <$> Machine.request budget body

/-! ## Giving up callbacks -/

/-- Callbacks are given up, one after the other. -/
def discards (callbacks : List Nat) : Log :=
  callbacks.map fun i => (.discard i, .ok .done)

namespace Adapter

/-- Giving up a callback never fails. -/
theorem run_discard_ok (a : Adapter) (registration : Registration) :
    (a.run (discard registration)).1 = .ok () := by
  cases hr : a.recorder with
  | none => rw [run_discard_of_none hr]
  | some r =>
      cases hid : registration.context with
      | some id => rw [run_discard hr hid]
      | none =>
          rw [discard, run_bind, run_get]
          dsimp only
          rw [hr, hid]
          rfl

end Adapter

namespace Scene

variable {s t : Scene}

theorem perform_discard {i : Nat} (hi : i < t.callbacks.length) :
    t.perform (.discard i) =
      (.ok .done, { t with adapter := (t.adapter.run (Adapter.discard (t.callback i))).2 }) := by
  simp only [perform, getElem?_callbacks hi, ask, Adapter.run_discard_ok]
  rfl

theorem exists_discards (is : List Nat) (his : ∀ i ∈ is, i < s.callbacks.length) :
    ∃ t, s.Leads (discards is) t := by
  induction is generalizing s with
  | nil => exact ⟨s, rfl⟩
  | cons i is ih =>
      obtain ⟨hi, his⟩ := List.forall_mem_cons.mp his
      obtain ⟨t, ht⟩ := ih (s := (s.perform (.discard i)).2) (by rwa [perform_discard hi])
      exact ⟨t, by rw [perform_discard hi], ht⟩

end Scene

variable {T : Terms} {q q' : Side} {s s' : Scene}

theorem run_discards {t t' : Scene} {g : Gate} (q : Side) {is : List Nat}
    (his : ∀ i ∈ is, i < t.callbacks.length) (hleads : t.Leads (discards is) t') :
    (q.under g t).run (is.forM fun i => adapting (Adapter.discard (t.callback i))) =
      (.ok (), q.under g t') ∧ t'.visits = t.visits := by
  induction is generalizing t with
  | nil =>
      obtain rfl : t' = t := hleads
      exact ⟨rfl, rfl⟩
  | cons i is ih =>
      obtain ⟨hi, his⟩ := List.forall_mem_cons.mp his
      obtain ⟨-, hleads⟩ := hleads
      rw [Scene.perform_discard hi] at hleads
      obtain ⟨hrun, hvisits⟩ := ih (t := { t with
        adapter := (t.adapter.run (Adapter.discard (t.callback i))).2 }) his hleads
      refine ⟨?_, hvisits⟩
      change (q.under g t).run (adapting (Adapter.discard (t.callback i)) >>= fun _ =>
        is.forM fun j => adapting (Adapter.discard (t.callback j))) = _
      rw [Machine.run_bind, Machine.run_adapting, show (q.under g t).adapter = t.adapter from rfl,
        Adapter.run_discard_ok]
      exact hrun

/-- A side that starts anew. -/
def Side.fresh (q : Side) : Side where
  config := q.config
  store := Store.empty.newGlobals.2
  globals := Store.empty.newGlobals.1
  output := q.output
  errands := .empty
  listener := none

theorem run_reset {g : Gate} (q : Side) (t : Scene) :
    (q.under g t).run Machine.reset =
      (q.fresh.under g t).run (q.waiting.forM fun i => adapting (Adapter.discard (t.callback i))) := by
  have hleft : (q.under g t).run Machine.reset = (q.fresh.under g t).run (do
      (q.under g t).tasks.toList.forM fun task => adapting (Adapter.discard task.registration)
      (q.under g t).listener.forM fun listener =>
        adapting (Adapter.discard listener.registration)) := rfl
  have htasks : (q.under g t).tasks.toList = q.errands.toList.map (Side.task t) :=
    Queue.toList_map ..
  have hlistener : (q.under g t).listener = q.listener.map fun l => ⟨t.callback l.1, l.2⟩ := rfl
  rw [hleft, htasks, hlistener]
  simp only [Side.waiting, List.forM_eq_forM, List.forM_append, List.forM_map]
  cases q.listener with
  | none => simp [Side.task]
  | some l => simp [Side.task]

theorem tells_reset (g : Gate) (q : Side) (s : Scene)
    (hwaiting : ∀ i ∈ q.waiting, i < s.callbacks.length) :
    ∃ s', Tells g q s (fun _ => Machine.reset) (discards q.waiting) s' (.ok ()) q.fresh := by
  obtain ⟨s', hs'⟩ := Scene.exists_discards q.waiting hwaiting
  refine ⟨s', hs', fun {t t' g'} hlevel hleads _ => ?_, ?_⟩
  · have hwaiting' : ∀ i ∈ q.waiting, i < t.callbacks.length :=
      fun i hi => hlevel.callbacks ▸ hwaiting i hi
    obtain ⟨hrun, hvisits⟩ := run_discards (g := g') q.fresh hwaiting' hleads
    refine ⟨?_, hvisits⟩
    rw [run_reset, ← hrun]
  · simp [discards, Except.isOk, Except.toBool]

/-! ## Runs -/

/-- The value of a program that ended in a certain way. -/
def topValue : Flow → Running Value
  | .next => pure .undefined
  | .returnWith v => pure v
  | .breakTo label => throw (.labelNotOpen (labelText label))

/-- A program runs, gives its value and lets the callbacks run that it queued. -/
theorem runProgram_eq (budget : Nat) (p : Program) : Machine.runProgram budget p = (do
    let value ← topValue (← Stmt.execBlock (fun callee => callFrom callee) (← get).globals p)
    Machine.drain budget
    return value) := by
  unfold Machine.runProgram
  refine bind_congr fun m => bind_congr fun flow => ?_
  cases flow <;> rfl

theorem accounts_runProgram (hfits : T.Fits q s) (budget : Nat) (p : Program) :
    Accounts T q s (fun _ => Machine.runProgram budget p) fun _ q' => q'.errands.toList = [] := by
  have hbody : Accounts T q s (fun _ => do
      let value ← topValue (← Stmt.execBlock (fun callee => callFrom callee) q.globals p)
      Machine.drain budget
      return value) fun _ q' => q'.errands.toList = [] := by
    refine (keeps_program q.globals p q s hfits).bind (fun {flow q₁ s₁} _ hfits₁ _ => ?_)
      fun _ _ _ => rfl
    have hrest (value : Value) : Accounts T q₁ s₁ (fun _ => do
        Machine.drain budget
        return value) fun _ q' => q'.errands.toList = [] :=
      (accounts_drain hfits₁ budget budget).bind (f := fun _ _ => pure value)
        (fun hnone hfits₂ _ => .silent (r := .ok value) hfits₂ (fun _ _ => rfl) fun _ _ => hnone)
        fun _ _ _ => rfl
    cases flow with
    | next => exact hrest .undefined
    | returnWith v => exact hrest v
    | breakTo label => exact .silent (r := .error _) hfits₁ (fun _ _ => rfl) nofun
  rw [runProgram_eq]
  exact hbody.congr fun _ _ _ => rfl

/-- The terms of a call: only what waits and what is new may be entered. -/
def Side.terms (q : Side) (g : Gate) (s : Scene) : Terms where
  gate := g
  may := fun i => i ∈ q.waiting ∨ s.callbacks.length ≤ i
  listener := q.listener
  config := q.config

theorem Side.fits_terms (g : Gate) {t : Scene} (hbegins : s.callbacks <+: t.callbacks)
    (hwaiting : ∀ i ∈ q.waiting, i < s.callbacks.length) : (q.terms g s).Fits q t where
  waiting := fun i hi => ⟨Nat.lt_of_lt_of_le (hwaiting i hi) hbegins.length_le, .inl hi⟩
  new := fun _ hi => .inr (Nat.le_trans hbegins.length_le hi)
  listener := fun _ hl => hl
  config := rfl

theorem exists_run (g : Gate) (hwaiting : ∀ i ∈ q.waiting, i < s.callbacks.length) (budget : Nat)
    (p : Program) :
    ∃ log s' r q', Tells g q s (fun _ => Machine.runProgram budget p) log s' r q' ∧
      (q.terms g s).Fits q' s' ∧ (∀ entry ∈ log, (q.terms g s).Allows entry.1) ∧
      (r.isOk = true → q'.errands.toList = []) := by
  obtain ⟨log, s', r, q', haccount, hnone⟩ :=
    accounts_runProgram (Side.fits_terms g List.prefix_rfl hwaiting) budget p
  refine ⟨log, s', r, q', haccount.toTells, haccount.fits, haccount.allowed, fun hok => ?_⟩
  cases r with
  | error e => cases hok
  | ok a => exact hnone a rfl

/-! ## Requests -/

namespace Scene

/-- The conversation with a number. -/
def identifier (s : Scene) (c : Nat) : ConversationId :=
  s.conversations[c]?.getD 0

theorem conversation?_some {t : Scene} {c : Nat} (hc : c < t.conversations.length) :
    t.conversation? (some c) = some (t.identifier c) := by
  simp [conversation?, identifier, hc]

theorem Leads.conversations_isPrefix {t : Scene} {log : Log} (h : s.Leads log t) :
    s.conversations <+: t.conversations := by
  induction log generalizing s with
  | nil =>
      obtain rfl : t = s := h
      exact List.prefix_rfl
  | cons entry log ih =>
      obtain ⟨-, conversations, hconversations, -⟩ := numbers_perform s entry.1
      exact (List.prefix_append ..).trans (hconversations ▸ ih h.2)

theorem identifier_eq_of_isPrefix {t t' : Scene} (h : t.conversations <+: t'.conversations) {c : Nat}
    (hc : c < t.conversations.length) : t'.identifier c = t.identifier c := by
  obtain ⟨more, hmore⟩ := h
  rw [identifier, identifier, ← hmore, List.getElem?_append_left hc]

end Scene

/-- The answer of a conversation is taken. -/
theorem exists_takeResponse (g : Gate) (q : Side) {c : Nat} (hc : c < s.conversations.length) :
    ∃ answer s', Tells g q s (fun t => Machine.takeResponse (t.identifier c))
      [(.takeResponse c, .ok (.response answer))] s' (.ok answer) q := by
  have hperform {t : Scene} (ht : c < t.conversations.length) : t.perform (.takeResponse c) =
      (.ok (.response (t.adapter.takeResponse (t.identifier c)).1),
        { t with adapter := (t.adapter.takeResponse (t.identifier c)).2 }) := by
    have hget : t.conversations[c]? = some (t.identifier c) := by simp [Scene.identifier, ht]
    simp only [Scene.perform, hget]
  have htake := Tells.move (g := g) (q := q) (s := s) (p := q)
    (x := fun t => Machine.takeResponse (t.identifier c))
    (r := .ok (s.adapter.takeResponse (s.identifier c)).1) (.takeResponse c)
    (fun {t g'} hlevel ht => ?_) fun _ => by rw [hperform hc]; rfl
  · rw [hperform hc] at htake
    exact ⟨_, _, htake⟩
  · have hc' : c < t.conversations.length := hlevel.conversations ▸ hc
    rw [hperform hc, hperform hc'] at ht
    rw [hperform hc']
    have hanswer := Answer.response.inj (Except.ok.inj ht)
    exact ⟨Prod.ext (congrArg Except.ok hanswer) rfl, rfl⟩

/-- What is done about a request after it was delivered: the queue is worked off, and the answer
taken. -/
theorem exists_conclusion (hfits : T.Fits q s) (budget : Nat) {c : Nat}
    (hc : c < s.conversations.length) :
    ∃ log s' r q', Tells T.gate q s (fun t => do
        Running.drain budget budget
        Machine.takeResponse (t.identifier c)) log s' r q' ∧ T.Fits q' s' ∧
      ((∃ e, r = .error e ∧ ∀ entry ∈ log, T.Allows entry.1) ∨
        ∃ main answer, r = .ok answer ∧ log = main ++ [(.takeResponse c, .ok (.response answer))] ∧
          (∀ entry ∈ main, T.Allows entry.1) ∧ q'.errands.toList = []) := by
  obtain ⟨log, s₁, r, q₁, haccount, hnone⟩ := accounts_drain hfits budget budget
  cases r with
  | error e =>
      refine ⟨log, s₁, .error e, q₁, haccount.toTells.fails fun _ _ hrun => ?_, haccount.fits,
        .inl ⟨e, rfl, haccount.allowed⟩⟩
      rw [Machine.run_bind, hrun]
  | ok a =>
      have hc₁ : c < s₁.conversations.length :=
        Nat.lt_of_lt_of_le hc haccount.leads.conversations_isPrefix.length_le
      obtain ⟨answer, s₂, htake⟩ := exists_takeResponse T.gate q₁ hc₁
      refine ⟨_, s₂, .ok answer, q₁, haccount.toTells.andThen htake fun {t t'} _ hlevel hleads hrun => ?_,
        haccount.fits.mono htake.leads.callbacks_isPrefix,
        .inr ⟨log, answer, rfl, rfl, haccount.allowed, hnone a rfl⟩⟩
      have hc' : c < t.conversations.length := hlevel.conversations ▸ hc
      rw [Machine.run_bind_of_ok hrun, Scene.identifier_eq_of_isPrefix hleads.conversations_isPrefix hc']

/-- A request is delivered to the listener, in a conversation that is open. -/
theorem exists_delivery (hfits : T.Fits q s) (budget : Nat) {l c : Nat} (f : Value) (args : List Value)
    (hl : l < s.callbacks.length) (hc : c < s.conversations.length) :
    ∃ log s' r q', Tells T.gate q s (fun t => do
        fire (t.callback l) (some (t.identifier c)) (call f args)
        Running.drain budget budget
        Machine.takeResponse (t.identifier c))
        ((.enter l (some c), (s.perform (.enter l (some c))).1) :: log) s' r q' ∧ T.Fits q' s' ∧
      ((∃ e, r = .error e ∧ ∀ entry ∈ log, T.Allows entry.1) ∨
        ∃ main answer, r = .ok answer ∧ log = main ++ [(.takeResponse c, .ok (.response answer))] ∧
          (∀ entry ∈ main, T.Allows entry.1) ∧ q'.errands.toList = []) := by
  obtain ⟨log, s₁, r, q₁, hfire, hfits₁, hallowed⟩ :=
    exists_fire hfits hl (some c) (keeps_call f args)
  have hconversation {t : Scene} (hlevel : s.Level t) :
      t.conversation? (some c) = some (t.identifier c) :=
    Scene.conversation?_some (hlevel.conversations ▸ hc)
  cases r with
  | error e =>
      refine ⟨log, s₁, .error e, q₁, hfire.fails fun hlevel _ hrun => ?_, hfits₁,
        .inl ⟨e, rfl, hallowed⟩⟩
      rw [hconversation hlevel] at hrun
      rw [Machine.run_bind, hrun]
  | ok a =>
      have hc₁ : c < s₁.conversations.length :=
        Nat.lt_of_lt_of_le hc hfire.leads.conversations_isPrefix.length_le
      obtain ⟨log', s₂, r, q₂, hrest, hfits₂, hend⟩ := exists_conclusion hfits₁ budget hc₁
      refine ⟨log ++ log', s₂, r, q₂, hfire.andThen hrest fun {t t'} _ hlevel hleads hrun => ?_, hfits₂,
        ?_⟩
      · rw [hconversation hlevel] at hrun
        have hc' : c < t.conversations.length := hlevel.conversations ▸ hc
        rw [Machine.run_bind_of_ok hrun,
          Scene.identifier_eq_of_isPrefix hleads.conversations_isPrefix hc']
      · refine hend.imp (fun ⟨e, he, hallowed'⟩ => ⟨e, he, ?_⟩)
          fun ⟨main, answer, hanswer, hlog, hallowed', hnone⟩ =>
            ⟨log ++ main, answer, hanswer, ?_, ?_, hnone⟩
        · exact List.forall_mem_append.mpr ⟨hallowed, hallowed'⟩
        · rw [hlog, List.append_assoc]
        · exact List.forall_mem_append.mpr ⟨hallowed, hallowed'⟩

theorem tells_unheard (g : Gate) (h : q.listener = none) (s : Scene) (budget : Nat) (body : Json) :
    Tells g q s (fun _ => Machine.request budget body) [] s (.error .notListening) q := by
  refine .silent fun {t g'} _ _ => ?_
  rw [Machine.request, Machine.run_bind, Machine.run_get]
  dsimp only
  rw [show (q.under g' t).listener = none by simp [Side.under, h]]
  rfl

theorem exists_request (g : Gate) (hwaiting : ∀ i ∈ q.waiting, i < s.callbacks.length) {l : Nat}
    {f : Value} (hl : q.listener = some (l, f)) (budget : Nat) (body : Json) :
    ∃ reply log s' r q', Tells g q s (fun _ => Machine.request budget body)
        ((.openConversation, .ok (.number s.conversations.length)) ::
          (.enter l (some s.conversations.length), reply) :: log) s' r q' ∧
      (q.terms g s).Fits q' s' ∧
      ((∃ e, r = .error e ∧ ∀ entry ∈ log, (q.terms g s).Allows entry.1) ∨
        ∃ main answer, r = .ok answer ∧
          log = main ++ [(.takeResponse s.conversations.length, .ok (.response answer))] ∧
          (∀ entry ∈ main, (q.terms g s).Allows entry.1) ∧ q'.errands.toList = []) := by
  have hlistener : l ∈ q.waiting := by simp [Side.waiting, hl]
  let s₁ := (s.perform .openConversation).2
  let q₁ : Side := { q with store := (q.store.ofJson body).2 }
  have hopen : Tells g q s (fun _ => do
      let _ ← Machine.openConversation
      make (Store.ofJson body)) [(.openConversation, (s.perform .openConversation).1)] s₁
      (.ok (q.store.ofJson body).1) q₁ :=
    .move .openConversation (fun _ _ => ⟨rfl, rfl⟩) fun _ => rfl
  have hbegins := hopen.leads.callbacks_isPrefix
  have hfits : (q.terms g s).Fits q₁ s₁ := by
    have h := Side.fits_terms g hbegins hwaiting
    exact ⟨h.waiting, h.new, h.listener, rfl⟩
  have hc : s.conversations.length < s₁.conversations.length := by
    obtain ⟨-, conversations, hconversations, hlength⟩ := s.numbers_perform .openConversation
    rw [hconversations, List.length_append, hlength]
    exact Nat.lt_succ_self _
  obtain ⟨log, s', r, q', htells, hfits', hend⟩ :=
    exists_delivery hfits budget f [(q.store.ofJson body).1]
      (Nat.lt_of_lt_of_le (hwaiting l hlistener) hbegins.length_le) hc
  refine ⟨_, log, s', r, q', hopen.andThen htells fun {t t' g'} hlevel hleads _ => ?_, hfits', hend⟩
  obtain ⟨-, rfl⟩ := Scene.leads_singleton.mp hleads
  have hidentifier : (t.perform .openConversation).2.identifier s.conversations.length =
      t.adapter.opened := by
    have hlast : (t.conversations ++ [t.adapter.opened])[t.conversations.length]?.getD 0 =
        t.adapter.opened := by simp
    rwa [hlevel.conversations] at hlast
  rw [hidentifier, Machine.request, Machine.run_bind, Machine.run_get]
  dsimp only
  rw [show (q.under g' t).listener = some ⟨t.callback l, f⟩ by simp [Side.under, hl]]
  rfl

/-! ## Calls -/

/-- What a call asks of the adapter, and what it comes to.  A reset gives up what still waits.  A
request opens a conversation, enters the listener in it, and takes its answer at the end, unless
something fails.  The rest is what programs do. -/
inductive Call.Conduct (g : Gate) (q : Side) (s : Scene) :
    Call → Log → Except EvalError Outcome → Side → Prop
  | reset : Conduct g q s .reset (discards q.waiting) (.ok (.value .undefined)) q.fresh
  | run {p : Program} {log : Log} {r : Except EvalError Outcome} {q' : Side}
      (allowed : ∀ entry ∈ log, (q.terms g s).Allows entry.1)
      (done : r.isOk = true → q'.errands.toList = []) :
      Conduct g q s (.run p) log r q'
  | unheard {body : Json} (h : q.listener = none) :
      Conduct g q s (.request body) [] (.error .notListening) q
  | failed {body : Json} {l : Nat} {f : Value} {reply : Reply} {log : Log} {e : EvalError}
      {q' : Side} (listener : q.listener = some (l, f))
      (allowed : ∀ entry ∈ log, (q.terms g s).Allows entry.1) :
      Conduct g q s (.request body)
        ((.openConversation, .ok (.number s.conversations.length)) ::
          (.enter l (some s.conversations.length), reply) :: log) (.error e) q'
  | answered {body : Json} {l : Nat} {f : Value} {reply : Reply} {log : Log} {answer : Option Json}
      {q' : Side} (listener : q.listener = some (l, f))
      (allowed : ∀ entry ∈ log, (q.terms g s).Allows entry.1)
      (done : q'.errands.toList = []) :
      Conduct g q s (.request body)
        ((.openConversation, .ok (.number s.conversations.length)) ::
          (.enter l (some s.conversations.length), reply) ::
          (log ++ [(.takeResponse s.conversations.length, .ok (.response answer))]))
        (.ok (.answer answer)) q'

/-- The side with which a call does what it does. -/
def Call.side (q : Side) : Call → Side
  | reset => q.fresh
  | run _ => q
  | request _ => q

theorem Tells.map {α β : Type} {g : Gate} {x : Scene → Running α} {log : Log}
    {r : Except EvalError α} (h : Tells g q s x log s' r q') (f : α → β) :
    Tells g q s (fun t => f <$> x t) log s' (r.map f) q' where
  leads := h.leads
  run := by
    intro t t' g' hlevel hleads hg
    have hg' : g.Serves r g' := hg.imp_right fun hg => ⟨by cases r <;> [cases hg.1; rfl], hg.2⟩
    obtain ⟨hrun, hvisits⟩ := h.run hlevel hleads hg'
    refine ⟨?_, hvisits⟩
    rw [map_eq_pure_bind, Machine.run_bind, hrun]
    cases r <;> rfl
  strict hok := h.strict (by cases r <;> [cases hok; rfl])

/-- Every call is told by a log. -/
theorem Call.exists_conduct (g : Gate) (hwaiting : ∀ i ∈ q.waiting, i < s.callbacks.length)
    (budget : Nat) (call : Call) :
    ∃ log s' r q', Tells g q s (fun _ => call.step budget) log s' r q' ∧
      ((call.side q).terms g s).Fits q' s' ∧ call.Conduct g q s log r q' := by
  cases call with
  | reset =>
      obtain ⟨s', hreset⟩ := tells_reset g q s hwaiting
      exact ⟨_, s', _, q.fresh, hreset.map _,
        Side.fits_terms g hreset.leads.callbacks_isPrefix nofun, .reset⟩
  | run p =>
      obtain ⟨log, s', r, q', htells, hfits, hallowed, hnone⟩ := exists_run g hwaiting budget p
      refine ⟨log, s', _, q', htells.map Outcome.value, hfits, .run hallowed fun hok => hnone ?_⟩
      cases r <;> [cases hok; rfl]
  | request body =>
      cases hl : q.listener with
      | none =>
          exact ⟨[], s, _, q, (tells_unheard g hl s budget body).map Outcome.answer,
            Side.fits_terms g List.prefix_rfl hwaiting, .unheard hl⟩
      | some listener =>
          obtain ⟨l, f⟩ := listener
          obtain ⟨reply, log, s', r, q', htells, hfits, hend⟩ :=
            exists_request g hwaiting hl budget body
          refine ⟨_, s', _, q', htells.map Outcome.answer, hfits, ?_⟩
          rcases hend with ⟨e, rfl, hallowed⟩ | ⟨main, answer, rfl, rfl, hallowed, hnone⟩
          · exact .failed hl hallowed
          · exact .answered hl hallowed hnone

end TraceLoom
