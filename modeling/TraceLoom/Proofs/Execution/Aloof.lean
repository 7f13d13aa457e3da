import TraceLoom.Proofs.Execution.Encores

/-!
Programs that have a function `require` of their own.  They come by no module, so that all they can
do is to write to the console: callbacks and traces are out of their reach.
-/

namespace TraceLoom

open Script Running

/-- The realm of a program without modules. -/
def Realm.bare : Realm where
  vocabulary := .all
  native n := ∃ name, n = .console name
  kept _ := none
  hidden _ _ := True
  hidden_function _ _ _ := trivial

/-- Nothing but values and lines is new. -/
def Machine.Undisturbed (m n : Machine) : Prop :=
  n = { m with store := n.store, output := n.output }

theorem Machine.Undisturbed.trans {m n k : Machine} (h : m.Undisturbed n) (h' : n.Undisturbed k) :
    m.Undisturbed k := by
  unfold Machine.Undisturbed at h h' ⊢
  rw [h', h]

/-- A step that only concerns values and writes lines, within a realm. -/
def Aloof {α : Type} (R : Realm) (Q : α → Prop) (x : Running α) : Prop :=
  ∀ m : Machine, m.store.Reaches R → (m.run x).2.store.Reaches R ∧ m.Undisturbed (m.run x).2 ∧
    ∀ a, (m.run x).1 = .ok a → Q a

section

variable {R : Realm} {α β : Type} {Q : α → Prop}

theorem aloof_pure {a : α} (h : Q a) : Aloof R Q (pure a) :=
  fun _ hm => ⟨hm, rfl, fun _ ha => Except.ok.inj ha ▸ h⟩

theorem aloof_throw (e : EvalError) : Aloof R Q (throw e : Running α) :=
  fun _ hm => ⟨hm, rfl, nofun⟩

theorem Aloof.bind {Q' : β → Prop} {x : Running α} {f : α → Running β} (hx : Aloof R Q x)
    (hf : ∀ a, Q a → Aloof R Q' (f a)) : Aloof R Q' (x >>= f) := by
  intro m hm
  obtain ⟨hstore, hsame, hvalue⟩ := hx m hm
  rw [Machine.run_bind]
  generalize m.run x = result at hstore hsame hvalue
  obtain ⟨_ | a, n⟩ := result
  · exact ⟨hstore, hsame, nofun⟩
  · obtain ⟨hstore', hsame', hvalue'⟩ := hf a (hvalue a rfl) n hstore
    exact ⟨hstore', hsame.trans hsame', hvalue'⟩

theorem aloof_look {f : Config → Store → Running α}
    (h : ∀ c s, s.Reaches R → Aloof R Q (f c s)) :
    Aloof R Q (get >>= fun m => f m.config m.store) := by
  intro m hm
  rw [Machine.run_bind, Machine.run_get]
  exact h m.config m.store hm m hm

theorem aloof_make {f : Store → α × Store}
    (h : ∀ s : Store, s.Reaches R → Q (f s).1 ∧ (f s).2.Reaches R) : Aloof R Q (make f) :=
  fun m hm => ⟨(h m.store hm).2, rfl, fun _ ha => Except.ok.inj ha ▸ (h m.store hm).1⟩

theorem aloof_permit (callee : Option Expr) (function : Value) (args : List Value) :
    Aloof R (fun _ => True) (permit callee function args) := by
  intro m hm
  rw [Machine.run_permit]
  exact ⟨hm, rfl, fun _ _ => trivial⟩

end

theorem aloof_log (values : List Value) : Aloof .bare (fun _ => True) (Native.log values) :=
  fun _ hm => ⟨hm, rfl, fun _ _ => trivial⟩

theorem aloof_callNative {onAnswer : Registration → Value → Value → Running Unit}
    (callee : Option Expr) {n : Native} (hn : Realm.bare.native n) (args : List Value) :
    Aloof .bare (Value.Reaches .bare) (callNative onAnswer callee n args) := by
  obtain ⟨name, rfl⟩ := hn
  rw [callNative_eq]
  refine (aloof_permit _ _ _).bind fun _ _ => ?_
  refine Aloof.bind (Q := fun result => result = .value .undefined)
    ((aloof_log args).bind fun _ _ => aloof_pure rfl) fun result hresult => ?_
  subst hresult
  exact aloof_pure trivial

/-- A program without modules keeps to itself. -/
theorem pervasive_aloof : Pervasive .bare (Aloof .bare) where
  pure := aloof_pure
  throw := aloof_throw
  bind := Aloof.bind
  look := aloof_look
  make := aloof_make
  permit callee _ args _ := aloof_permit callee _ args
  native hn _ _ := aloof_callNative _ hn _
  answering _ hn _ _ := aloof_callNative _ hn _
  inserted _ hs := hs.elim

/-! ## Runs -/

/-- Where a program has a function `require` of its own, it has nothing of the host but the
console. -/
theorem reaches_hoisted {p : Program} {env : Environment} {s : Store} {gs : Fields Variable}
    (harrays : s.arrays = #[]) (hobjects : s.objects = #[consoleFields]) (hscopes : s.scopes = #[gs])
    (hkeys : gs.keys.Nodup) (hhoists : ∀ n, Hoists env p globalFields gs n) {pos : Position}
    {params : List String} {fbody : List Stmt} (hrequire : .function pos "require" params fbody ∈ p) :
    s.Reaches .bare := by
  have hplain (v : Value) (hv : ∀ n, v = .native n → ∃ name, n = .console name) :
      v.Reaches .bare := by
    cases v with
    | native n => exact hv n rfl
    | object place => rfl
    | function i closure =>
        exact ⟨fun _ _ _ => trivial, fun _ _ => trivial, Stmt.properList_all closure.body⟩
    | _ => trivial
  refine ⟨?_, fun place _ => ?_, nofun, ?_⟩
  · rw [harrays]
    exact fun items hitems => absurd hitems (Array.not_mem_empty items)
  · rw [Store.properties, hobjects]
    cases place with
    | zero => exact List.forall_mem_cons.mpr ⟨⟨_, rfl⟩, List.forall_mem_singleton.mpr ⟨_, rfl⟩⟩
    | succ place => exact List.forall_mem_nil _
  · rw [hscopes]
    intro fields hfields field hfield
    obtain rfl := Array.mem_singleton.mp hfields
    refine Realm.binds_own trivial (hplain _ fun n hn => ?_)
    -- a native could only be there from the start, and there is but one
    have hget := Fields.get?_of_mem hkeys hfield
    rcases hhoists field.1 with ⟨hsame, hnone⟩ | ⟨i, _, _, _, -, hnew⟩
    · rw [hget] at hsame
      have hmem := Fields.mem_of_get? hsame.symm
      simp only [globalFields, List.mem_cons, List.not_mem_nil, or_false, Prod.mk.injEq] at hmem
      rcases hmem with ⟨-, hv⟩ | ⟨hname, -⟩ | ⟨-, hv⟩
      · rw [hv] at hn
        cases hn
      · rw [hname] at hnone
        exact absurd hrequire (hnone _ _ _)
      · rw [hv] at hn
        cases hn
    · rw [hget] at hnew
      rw [Option.some.inj hnew] at hn
      cases hn

/-- A program with a function `require` of its own asks nothing of the adapter. -/
theorem undisturbed_runProgram {p : Program} {pos : Position} {params : List String}
    {fbody : List Stmt} (hrequire : .function pos "require" params fbody ∈ p) (budget : Nat)
    (config : Config) (a : Adapter) :
    (Machine.new config a).Undisturbed
      ((Machine.new config a).run (Machine.runProgram budget p)).2 := by
  obtain ⟨t, gs, hhoist, harrays, hobjects, hscopes, hkeys, hhoists⟩ :=
    exists_hoist Store.empty.newGlobals.1 rfl p
      (show Store.empty.newGlobals.2.scopes = #[globalFields] from rfl) (by decide)
  have hreaches : t.Reaches .bare :=
    reaches_hoisted harrays hobjects hscopes hkeys hhoists hrequire
  have hbody : Aloof .bare (fun _ => True) (do
      topValue (← Stmt.execList (fun callee => callFrom (some callee)) Store.empty.newGlobals.1 p)) := by
    refine (pervasive_aloof.execList pervasive_aloof.callsWithin_callFrom _ p
      (Stmt.properList_all p)).bind fun flow _ => ?_
    cases flow with
    | next | returnWith v => exact aloof_pure trivial
    | breakTo label => exact aloof_throw _
  obtain ⟨-, hsame, -⟩ := hbody { Machine.new config a with store := t } hreaches
  have hrun : (Machine.new config a).run (Machine.runProgram budget p) =
      Machine.run { Machine.new config a with store := t } (do
        let value ← (do
          topValue (← Stmt.execList (fun callee => callFrom (some callee))
            Store.empty.newGlobals.1 p))
        Machine.drain budget
        return value) := by
    rw [runProgram_eq, Machine.run_bind, Machine.run_get]
    dsimp only
    rw [show (Machine.new config a).globals = Store.empty.newGlobals.1 from rfl, Stmt.execBlock,
      bind_assoc, Machine.run_bind_of_ok (hhoist (Machine.new config a) rfl), ← bind_assoc]
    rfl
  rw [hrun, Machine.run_bind]
  generalize Machine.run { Machine.new config a with store := t } _ = result at hsame
  obtain ⟨_ | v, n⟩ := result
  · exact hsame
  · have hsame : Machine.Undisturbed { Machine.new config a with store := t } n := hsame
    have htasks : n.tasks.pop? = none := by
      rw [hsame]
      rfl
    have hdrain : n.run (Machine.drain budget) = (.ok (), n) := run_drain_of_none htasks budget budget
    dsimp only
    rw [Machine.run_bind_of_ok hdrain]
    exact hsame

/-! ## Sessions -/

/-- A machine that is as new, apart from its variables. -/
structure Machine.AsNew (config : Config) (a : Adapter) (m : Machine) : Prop where
  undisturbed : (Machine.new config a).Undisturbed m
  output : m.output = []

theorem Machine.AsNew.run_reset {config : Config} {a : Adapter} {m : Machine} (h : m.AsNew config a) :
    m.run Machine.reset = (.ok (), Machine.new config a) := by
  rw [h.undisturbed, h.output]
  rfl

namespace Session

variable {config : Config} {a : Adapter} {m n : Machine} {p : Program} {pos : Position}
  {params : List String} {fbody : List Stmt} {budget : Nat}

section

variable (hrequire : .function pos "require" params fbody ∈ p)

include hrequire

/-- Only runs succeed, and all in the same way. -/
theorem run_call_asNew (hm : m.AsNew config a) {c : Call} {o : Outcome TraceLoom.Outcome}
    (hrun : m.run (c.step budget p) = (.ok o, n)) :
    n.AsNew config a ∧ ∀ m' : Machine, m'.AsNew config a → m'.run (c.step budget p) = (.ok o, n) := by
  cases c with
  | run =>
      have hstep {k : Machine} (hk : k.AsNew config a) : k.run (Call.step budget p .run) =
          (Machine.new config a).run (noting (Outcome.value <$> Machine.runProgram budget p)) := by
        rw [step_run, map_bind, run_noting, run_noting, Machine.run_bind_of_ok hk.run_reset]
      refine ⟨?_, fun m' hm' => (hstep hm').trans ((hstep hm).symm.trans hrun)⟩
      rw [hstep hm] at hrun
      obtain ⟨k, hvalue, -, rfl⟩ := run_noting_eq_ok_iff.mp hrun
      obtain ⟨v, hprogram, -⟩ := run_map_eq_ok_iff.mp hvalue
      have hsame : (Machine.new config a).Undisturbed k := by
        have hundisturbed := undisturbed_runProgram hrequire budget config a
        rwa [hprogram] at hundisturbed
      have hk : k.takeLines.2 = { k with output := [] } := rfl
      refine ⟨?_, rfl⟩
      rw [hk, hsame]
      rfl
  | request body =>
      obtain ⟨k, hvalue, -, rfl⟩ := run_noting_eq_ok_iff.mp hrun
      obtain ⟨answer, hanswer, -⟩ := run_map_eq_ok_iff.mp hvalue
      have hlistener : m.listener = none := by
        rw [hm.undisturbed]
        rfl
      rw [Machine.request, Machine.run_bind, Machine.run_get] at hanswer
      dsimp only at hanswer
      rw [hlistener] at hanswer
      cases hanswer

theorem run_steps_asNew {calls : List Call} {outcomes : List (Outcome TraceLoom.Outcome)}
    (hm : m.AsNew config a) (hrun : m.run (steps budget p calls) = (.ok outcomes, n)) :
    n.AsNew config a ∧ ∀ m' : Machine, m'.AsNew config a →
      ∃ n', n'.AsNew config a ∧ m'.run (steps budget p calls) = (.ok outcomes, n') := by
  induction calls generalizing m outcomes with
  | nil =>
      cases hrun
      exact ⟨hm, fun m' hm' => ⟨m', hm', rfl⟩⟩
  | cons c calls ih =>
      obtain ⟨o, k, rest, hcall, hcalls, rfl⟩ := run_steps_cons_eq_ok_iff.mp hrun
      obtain ⟨hk, hagain⟩ := run_call_asNew hrequire hm hcall
      obtain ⟨hn, -⟩ := ih hk hcalls
      exact ⟨hn, fun m' hm' => ⟨n, hn, run_steps_cons_eq_ok_iff.mpr
        ⟨o, k, rest, hagain m' hm', hcalls, rfl⟩⟩⟩

end

variable {s : Session} {calls : List Call} {outcomes : List (Outcome TraceLoom.Outcome)}

theorem repeats_of_require (hmachine : s.machine = .new config a)
    (hrequire : .function pos "require" params fbody ∈ s.program)
    (hok : (s.callAll budget calls).1 = .ok outcomes) :
    (s.callAll budget calls).2.Repeats budget calls outcomes := by
  obtain ⟨hresult, hmachine', hprogram⟩ := s.callAll_eq budget calls
  rw [hok] at hresult
  generalize (s.callAll budget calls).2 = s' at hmachine' hprogram ⊢
  have hnew : s.machine.AsNew config a := hmachine ▸ ⟨rfl, rfl⟩
  obtain ⟨hasNew, hagain⟩ := run_steps_asNew hrequire hnew (Prod.ext hresult.symm hmachine'.symm)
  obtain ⟨n, hn, hrun⟩ := hagain s'.machine hasNew
  obtain ⟨hresult', hmachine'', -⟩ := s'.callAll_eq budget calls
  rw [hprogram, hrun] at hresult' hmachine''
  refine ⟨hresult', ?_⟩
  have hadapter {m : Machine} (hm : m.AsNew config a) : m.adapter = a := by
    rw [hm.undisturbed]
    rfl
  rw [trace, trace, recorder, recorder, hmachine'', hadapter hasNew, show (_, n).2 = n from rfl,
    hadapter hn]

end Session

end TraceLoom
