import TraceLoom.Proofs.Execution.Delivery
import TraceLoom.Proofs.Host.Conversations

/-!
Requests and their answers.  Whatever programs do in any number of runs and requests, the answer to
a request is the one that was given in its own conversation.
-/

namespace TraceLoom

open Script Running

/-! ## Between calls -/

/-- The side of a new machine. -/
def Side.new (config : Config) : Side where
  config
  store := Store.empty.newGlobals.2
  globals := Store.empty.newGlobals.1
  output := []
  errands := .empty
  listener := none

/-- Nothing is running. -/
structure Idle (log : Log) (q : Side) (s : Scene) : Prop where
  told : s.Told log
  visits : s.visits = []
  waiting : ∀ i ∈ q.waiting, i < s.callbacks.length
  /-- The listener was registered outside of any conversation. -/
  listener : ∀ l, q.listener = some l → (Activity.after log).owners[l.1]? = some none
  /-- So was everything that waits while there is no listener. -/
  unheard : q.listener = none → ∀ i ∈ q.waiting, (Activity.after log).owners[i]? = some none

/-- No callback of a conversation waits. -/
def Past (log : Log) (q : Side) (c : Nat) : Prop :=
  ∀ i ∈ q.waiting, (Activity.after log).owners[i]? ≠ some (some c)

variable {log l : Log} {q q' : Side} {s s' : Scene} {g : Gate} {budget : Nat} {call : Call}
  {r : Except EvalError Outcome} {c : Nat}

namespace Idle

theorem running (h : Idle log q s) : (Activity.after log).running = [] := by
  have hrunning := h.told.running
  rw [h.visits] at hrunning
  cases hr : (Activity.after log).running with
  | nil => rfl
  | cons c running =>
      rw [hr] at hrunning
      cases hrunning

theorem length_owners (h : Idle log q s) :
    (Activity.after log).owners.length = s.callbacks.length := by
  rw [← h.told.owners, List.length_map]

theorem length_conversations (h : Idle log q s) : s.conversations.length = s.adapter.opened := by
  rw [h.told.conversations, List.length_range]

theorem new (config : Config) (recorder : Option Recorder) (network : Network) :
    Idle [] (.new config) (.new (.new recorder network)) :=
  ⟨.new recorder network, rfl, nofun, nofun, fun _ => nofun⟩

/-- Only code of certain conversations can run from here if only such callbacks wait. -/
theorem inside (h : Idle log q s) (g : Gate) (C : Option Nat → Prop) (hC : C none) {p : Side}
    (hwaiting : ∀ i ∈ p.waiting, ∀ d, (Activity.after log).owners[i]? = some d → C d) :
    (Activity.after log).Inside C (p.terms g s).may := by
  refine ⟨hC, h.running ▸ nofun, fun i hi d hd => ?_⟩
  rcases hi with hi | hle
  · exact hwaiting i hi d hd
  · rw [List.getElem?_eq_none (h.length_owners ▸ hle)] at hd
    cases hd

end Idle

/-! ## Calls -/

namespace Call.Conduct

/-- A request enters its listener in a new conversation.  Otherwise only such callbacks are entered
as the terms allow, in their own conversations. -/
theorem enters (h : call.Conduct g q s l r q') : ∀ entry ∈ l, ∀ i d, entry.1 = .enter i d →
    (d = none ∧ ((call.side q).terms g s).may i) ∨
      (∃ body, call = .request body) ∧ d = some s.conversations.length := by
  have hallowed {main : Log} (hmain : ∀ entry ∈ main, (q.terms g s).Allows entry.1)
      {P : Option Nat → Prop} :
      ∀ entry ∈ main, ∀ i d, entry.1 = .enter i d → (d = none ∧ (q.terms g s).may i) ∨ P d := by
    intro entry hentry i d heq
    have h := hmain entry hentry
    rw [heq] at h
    exact .inl h
  cases h with
  | reset =>
      intro entry hentry i d heq
      obtain ⟨j, -, rfl⟩ := List.mem_map.mp hentry
      cases heq
  | run allowed done => exact hallowed allowed
  | unheard h => exact List.forall_mem_nil _
  | failed listener allowed =>
      refine List.forall_mem_cons.mpr ⟨by rintro _ _ ⟨⟩,
        List.forall_mem_cons.mpr ⟨fun i d heq => ?_, hallowed allowed⟩⟩
      cases heq
      exact .inr ⟨⟨_, rfl⟩, rfl⟩
  | answered listener allowed done =>
      refine List.forall_mem_cons.mpr ⟨by rintro _ _ ⟨⟩,
        List.forall_mem_cons.mpr ⟨fun i d heq => ?_, List.forall_mem_append.mpr ⟨hallowed allowed,
          List.forall_mem_singleton.mpr (by rintro _ _ ⟨⟩)⟩⟩⟩
      cases heq
      exact .inr ⟨⟨_, rfl⟩, rfl⟩

/-- By the time the listener is entered, its conversation has been opened. -/
theorem knows (h : call.Conduct g q s l r q') : s.Knows l := by
  have henters := h.enters
  have hopened {rest : Log} (hrest : ∀ entry ∈ rest, ∀ i d, entry.1 = .enter i d →
      (d = none ∧ ((call.side q).terms g s).may i) ∨
        (∃ body, call = .request body) ∧ d = some s.conversations.length) :
      (s.perform .openConversation).2.Knows rest := by
    refine .of_lt fun entry hentry i c heq => ?_
    change c < (s.conversations ++ [_]).length
    rcases hrest entry hentry i (some c) heq with ⟨hnone, -⟩ | ⟨-, hc⟩
    · cases hnone
    · rw [Option.some.inj hc, List.length_append]
      exact Nat.lt_succ_self _
  have houtside {l : Log} (hcall : ∀ body, call ≠ .request body)
      (hl : ∀ entry ∈ l, ∀ i d, entry.1 = .enter i d →
        (d = none ∧ ((call.side q).terms g s).may i) ∨
          (∃ body, call = .request body) ∧ d = some s.conversations.length) : s.Knows l := by
    refine .of_lt fun entry hentry i c heq => ?_
    rcases hl entry hentry i (some c) heq with ⟨hnone, -⟩ | ⟨⟨body, hbody⟩, -⟩
    · cases hnone
    · exact absurd hbody (hcall body)
  cases h with
  | reset => exact houtside nofun henters
  | run allowed done => exact houtside nofun henters
  | unheard h => trivial
  | failed listener allowed => exact ⟨nofun, hopened (List.forall_mem_cons.mp henters).2⟩
  | answered listener allowed done => exact ⟨nofun, hopened (List.forall_mem_cons.mp henters).2⟩

/-- Code of other conversations stays of other conversations. -/
theorem inside (h : call.Conduct g q s l r q') {C : Option Nat → Prop}
    (hC : (∃ body, call = .request body) → C (some s.conversations.length))
    (hinside : (Activity.after log).Inside C ((call.side q).terms g s).may) :
    (Activity.after (log ++ l)).Inside C ((call.side q).terms g s).may := by
  rw [Activity.after_append]
  refine hinside.foldl fun entry hentry i d heq => ?_
  rcases h.enters entry hentry i d heq with hallowed | ⟨hrequest, rfl⟩
  · exact .inl hallowed
  · exact .inr ⟨nofun, hC hrequest⟩

end Call.Conduct

/-! ## From call to call -/

theorem Activity.owners_isPrefix (log l : Log) :
    (Activity.after log).owners <+: (Activity.after (log ++ l)).owners := by
  rw [Activity.after_append]
  generalize Activity.after log = a
  induction l generalizing a with
  | nil => exact List.prefix_rfl
  | cons entry l ih =>
      refine List.IsPrefix.trans ?_ (ih (a.step entry))
      obtain ⟨move, reply⟩ := entry
      cases move <;> cases reply <;> first | exact List.prefix_rfl | exact List.prefix_append ..

section

variable (h : Idle log q s) (htells : Tells g q s (fun _ => call.step budget) l s' r q')
  (hfits : ((call.side q).terms g s).Fits q' s') (hconduct : call.Conduct g q s l r q')

include h htells hconduct

theorem Idle.told_next : s'.Told (log ++ l) :=
  h.told.leads hconduct.knows htells.leads

include hfits

/-- What waits after a run without a listener was registered outside of any conversation. -/
theorem Idle.owner_of_run {p : Program} (hrun : call = .run p) (hl : q.listener = none) {i : Nat}
    (hi : i ∈ q'.waiting) : (Activity.after (log ++ l)).owners[i]? = some none := by
  have htold := h.told_next htells hconduct
  subst hrun
  obtain ⟨hlt, hmay⟩ := hfits.waiting i hi
  have hinside := hconduct.inside (fun hrequest => nomatch hrequest)
    (h.inside g (· = none) rfl (p := q) fun i hi d hd =>
      Option.some.inj (hd.symm.trans (h.unheard hl i hi)))
  rw [← List.length_map, htold.owners] at hlt
  rw [List.getElem?_eq_getElem hlt]
  exact congrArg some (hinside.owners i hmay _ (List.getElem?_eq_getElem hlt))

/-- After a call nothing is running, as before. -/
theorem Idle.next : Idle (log ++ l) q' s' where
  told := h.told_next htells hconduct
  visits := (htells.run (.refl s) htells.leads (.inl rfl)).2.trans h.visits
  waiting i hi := (hfits.waiting i hi).1
  listener l' hl := by
    have hkept (l₀ : Nat × Value) (hq : q.listener = some l₀) (hq' : q'.listener = some l₀) :
        (Activity.after (log ++ l)).owners[l'.1]? = some none := by
      obtain rfl : l₀ = l' := Option.some.inj (hq'.symm.trans hl)
      exact getElem?_of_isPrefix (Activity.owners_isPrefix log l) (h.listener l₀ hq)
    cases hq : q.listener with
    | some l₀ =>
        cases call with
        | reset =>
            cases hconduct
            cases hl
        | run p => exact hkept l₀ hq (hfits.listener l₀ hq)
        | request body => exact hkept l₀ hq (hfits.listener l₀ hq)
    | none =>
        cases call with
        | reset =>
            cases hconduct
            cases hl
        | run p => exact h.owner_of_run htells hfits hconduct rfl hq (by simp [Side.waiting, hl])
        | request body =>
            cases hconduct with
            | unheard _ => cases hq.symm.trans hl
            | failed listener _ => cases hq.symm.trans listener
            | answered listener _ _ => cases hq.symm.trans listener
  unheard hl i hi := by
    cases call with
    | reset =>
        cases hconduct
        cases hi
    | run p =>
        refine h.owner_of_run htells hfits hconduct rfl ?_ hi
        cases hq : q.listener with
        | none => rfl
        | some l₀ => cases hl.symm.trans (hfits.listener l₀ hq)
    | request body =>
        cases hq : q.listener with
        | some l₀ => cases hl.symm.trans (hfits.listener l₀ hq)
        | none =>
            cases hconduct with
            | unheard _ => exact getElem?_of_isPrefix (Activity.owners_isPrefix log []) (h.unheard hq i hi)
            | failed listener _ => cases hq.symm.trans listener
            | answered listener _ _ => cases hq.symm.trans listener

end

section

variable (h : Idle log q s) (hpast : Past log q c) (hc : c ≠ s.conversations.length)
  (hconduct : call.Conduct g q s l r q')

include h hpast

theorem Past.inside (g : Gate) (call : Call) :
    (Activity.after log).Inside (· ≠ some c) ((call.side q).terms g s).may := by
  have hq : (Activity.after log).Inside (· ≠ some c) (q.terms g s).may :=
    h.inside g _ nofun fun i hi d hd heq => hpast i hi (heq ▸ hd)
  cases call with
  | reset => exact h.inside g _ nofun nofun
  | run p => exact hq
  | request body => exact hq

include hc hconduct

/-- What is past stays past. -/
theorem Past.next (hfits : ((call.side q).terms g s).Fits q' s') : Past (log ++ l) q' c := by
  intro i hi heq
  have hinside := hconduct.inside (C := (· ≠ some c)) (fun _ heq => hc (Option.some.inj heq).symm)
    (hpast.inside h g call)
  exact hinside.owners i (hfits.waiting i hi).2 _ heq rfl

end

/-- A request that succeeds has been answered in its own conversation, or not at all. -/
theorem Idle.answered (h : Idle log q s) {body : Json} {answer : Option Json}
    (htells : Tells g q s (fun _ => (Call.request body).step budget) l s' (.ok (.answer answer)) q')
    (hfits : (q.terms g s).Fits q' s')
    (hconduct : (Call.request body).Conduct g q s l (.ok (.answer answer)) q') :
    (∃ i reply rest, l = (.openConversation, .ok (.number s.conversations.length)) ::
        (.enter i (some s.conversations.length), reply) :: rest) ∧
      (∀ value, answer = some value ↔ Log.Answers (log ++ l) s.conversations.length value) ∧
      Past (log ++ l) q' s.conversations.length := by
  have hnext := h.next htells hfits hconduct
  have hknows := hconduct.knows
  have hleads := htells.leads
  cases hconduct with
  | answered listener allowed done =>
      rename_i i f reply main
      refine ⟨⟨i, reply, _, rfl⟩, fun value => ?_, fun j hj heq => ?_⟩
      · rw [← List.cons_append, ← List.cons_append] at hleads hknows ⊢
        obtain ⟨s₁, hleads, htake⟩ := Scene.leads_append.mp hleads
        have htold := h.told.leads ((Scene.knows_append hleads).mp hknows).1 hleads
        rw [← List.append_assoc, Log.answers_concat_of_ne (e := (.takeResponse _, _)) nofun,
          htold.takeResponse_eq (Scene.leads_singleton.mp htake).1]
        refine and_iff_left fun ⟨v, hv⟩ => ?_
        -- nobody else takes the answer, and not before the end
        rcases List.mem_append.mp hv with hold | hv
        · obtain ⟨w, hw⟩ := h.told.delivered _ ⟨v, hold⟩
          exact Nat.lt_irrefl _ (h.length_conversations ▸ h.told.answered _ w hw)
        · simp only [List.mem_cons, Prod.mk.injEq, reduceCtorEq, false_and, false_or] at hv
          exact allowed _ hv
      · obtain ⟨l', hl', rfl⟩ : ∃ l', q'.listener = some l' ∧ l'.1 = j := by
          simpa [Side.waiting, done] using hj
        cases (hnext.listener l' hl').symm.trans heq

/-! ## Chronicles -/

/-- The results of steps that a machine takes one after the other. -/
def Machine.results {α : Type} (m : Machine) : List (Running α) → List (Except EvalError α)
  | [] => []
  | step :: steps => (m.run step).1 :: (m.run step).2.results steps

end TraceLoom
