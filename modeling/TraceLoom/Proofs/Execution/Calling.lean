import TraceLoom.Proofs.Execution.Subscribing

/-!
Calls that the program makes.  Where closures are entered alike, whatever is called gives
corresponding results, and so do the expressions that call it.
-/

namespace TraceLoom

open Script Instrument Running

variable {P : Expectation} {W W' : World} {m m' n n' : Machine} {env env' : Environment}
  {call call' : Expr → Value → List Value → Running Value}
  {enter enter' : Value → Closure → List Value → Running Value}

/-- Corresponding values, with the recorder in the same list as before. -/
def Returned (P : Expectation) (m : Machine) (W : World) (v v' : Value) (n : Machine) : Prop :=
  ValueRel P W v v' ∧ (P.strict → Advances m.frames n.frames)

theorem Returned.after_adapter {k : Machine} {v v' : Value} (hadapter : n.adapter = m.adapter)
    (h : Returned P n W v v' k) : Returned P m W v v' k :=
  ⟨h.1, fun hstrict => Machine.frames_of_adapter hadapter ▸ h.2 hstrict⟩

theorem Valued.returned {v v' : Value} (h : Valued P m W v v' n) (hopen : P.strict → m.frames ≠ []) :
    Returned P m W v v' n := by
  refine ⟨h.1, fun hstrict => ?_⟩
  rw [Machine.frames_of_adapter h.2.adapter]
  exact .refl (hopen hstrict)

/-- Corresponding closures are entered with corresponding results. -/
def EntersAlike (P : Expectation) (enter enter' : Value → Closure → List Value → Running Value) :
    Prop :=
  ∀ {W : World} {m m' : Machine} {i j : Nat} {c c' : Closure} {vs ws : List Value},
    MachineRel P W m m' → W.Ready → (P.strict → m'.frames ≠ []) → W.identities[i]? = some j →
    ClosureRel P W c c' → List.Forall₂ (ValueRel P W) vs ws →
    Sim P W m m' (enter (.function i c) c vs) (enter' (.function j c') c' ws) (Returned P m')

/-- Corresponding functions are called with corresponding results. -/
structure CallsAlike (P : Expectation) (call call' : Expr → Value → List Value → Running Value) :
    Prop where
  applies : Applies call'
  sim : ∀ {W : World} {m m' : Machine} {callee : Expr} {v v' : Value} {vs ws : List Value},
    MachineRel P W m m' → W.Ready → (P.strict → m'.frames ≠ []) →
    isInserted (some callee) = false → ValueRel P W v v' → List.Forall₂ (ValueRel P W) vs ws →
    Sim P W m m' (call callee v vs) (call' callee v' ws) (Returned P m')

/-! ## Applying a value -/

/-- The gate holds back operations of the recorder, and nothing else. -/
theorem sim_permit (hrel : MachineRel P W m m') {callee : Option Expr}
    (hcallee : isInserted callee = false) {v v' : Value} (hv : ValueRel P W v v')
    (vs ws : List Value) :
    Sim P W m m' (permit callee v vs) (permit callee v' ws) fun W' _ _ n' =>
      W' = W ∧ n' = m' ∧ ∀ native, v = .native native → native.isRecording = false := by
  have hx : m.run (permit callee v vs) = (.ok (), m) := by
    rw [Machine.run_permit, hrel.gate]
  have hy : m'.run (permit callee v' ws) =
      (recorderGate P.refusal callee v' ws m'.store, m') := by
    rw [Machine.run_permit, hrel.gate']
  have hpass (h : recorderGate P.refusal callee v' ws m'.store = .ok ())
      (hnative : ∀ native, v = .native native → native.isRecording = false) :
      Sim P W m m' (permit callee v vs) (permit callee v' ws) fun W' _ _ n' =>
        W' = W ∧ n' = m' ∧ ∀ native, v = .native native → native.isRecording = false :=
    .ok hx (h ▸ hy) (World.le_refl W) hrel (Machine.stays_of_adapter rfl rfl) ⟨rfl, rfl, hnative⟩
  cases hv with
  | native native =>
      cases native with
      | trace name =>
          refine .stop (hy.trans ?_) (World.le_refl W) hrel (Machine.stays_of_adapter rfl rfl)
            P.refusal_ne .refusal
          rw [recorderGate, hcallee, if_neg Bool.false_ne_true]
      | _ => exact hpass rfl fun _ heq => by cases heq; rfl
  | _ => exact hpass rfl fun _ heq => by cases heq

/-- What happens to the callback of a request that is answered at once. -/
def AnswersAlike (P : Expectation) (onAnswer onAnswer' : Registration → Value → Value → Running Unit) :
    Prop :=
  ∀ {W : World} {m m' : Machine} {x y : Registration} {id : ContextId}
    {callback callback' answer answer' : Value}, MachineRel P W m m' → W.Ready →
    RegistrationRel x y → y.context = some id → Enterable W m' y.event.isRepeating id →
    ValueRel P W callback callback' → ValueRel P W answer answer' →
    Sim P W m m' (onAnswer x callback answer) (onAnswer' y callback' answer')
      fun _ _ _ n' => n'.frames = m'.frames

theorem sim_notAFunction {Q : World → Value → Value → Machine → Prop} (hrel : MachineRel P W m m')
    {v v' : Value} (hv : ValueRel P W v v') :
    Sim P W m m' (do throw (.notAFunction ((← get).store.text v)))
      (do throw (.notAFunction ((← get).store.text v'))) Q := by
  refine .get_bind ?_
  rw [hrel.store.text_eq hv]
  exact .throw hrel nofun

theorem sim_applyWith {onAnswer onAnswer' : Registration → Value → Value → Running Unit}
    (henter : EntersAlike P enter enter') (honAnswer : AnswersAlike P onAnswer onAnswer')
    (hrel : MachineRel P W m m') (hW : W.Ready) (hopen : P.strict → m'.frames ≠ [])
    {callee : Option Expr} (hcallee : isInserted callee = false) {v v' : Value}
    (hv : ValueRel P W v v') {vs ws : List Value} (hvs : List.Forall₂ (ValueRel P W) vs ws) :
    Sim P W m m' (applyWith enter onAnswer callee v vs) (applyWith enter' onAnswer' callee v' ws)
      (Returned P m') := by
  refine (sim_permit hrel hcallee hv vs ws).bind ?_
  rintro _ _ _ _ _ - hrel₁ - ⟨rfl, rfl, hnative⟩
  cases hv with
  | function hi hc => exact henter hrel₁ hW hopen hi hc hvs
  | native native =>
      refine (sim_native hrel₁ hopen (hnative native rfl) hvs).bind fun hle hrel₂ _ hperformed => ?_
      cases hperformed with
      | value hv hframes => exact .pure hrel₂ ⟨hv, hframes⟩
      | answered hxy hid honce hwaiting hcallback hanswer =>
          refine (honAnswer hrel₂ (hW.mono hle) hxy hid (honce ▸ hwaiting.enterable) hcallback
            hanswer).bind fun _ hrel₃ _ hframes => ?_
          exact .pure hrel₃ ⟨.undefined, fun hstrict => hframes ▸ hwaiting.frames hstrict⟩
  | undefined => exact sim_notAFunction hrel₁ .undefined
  | null => exact sim_notAFunction hrel₁ .null
  | boolean b => exact sim_notAFunction hrel₁ (.boolean b)
  | number x => exact sim_notAFunction hrel₁ (.number x)
  | string u => exact sim_notAFunction hrel₁ (.string u)
  | array hab => exact sim_notAFunction hrel₁ (.array hab)
  | object hab => exact sim_notAFunction hrel₁ (.object hab)
  | trace hi u => exact sim_notAFunction hrel₁ (.trace hi u)

theorem sim_apply (henter : EntersAlike P enter enter') (hrel : MachineRel P W m m') (hW : W.Ready)
    (hopen : P.strict → m'.frames ≠ []) {callee : Option Expr} (hcallee : isInserted callee = false)
    {v v' : Value} (hv : ValueRel P W v v') {vs ws : List Value}
    (hvs : List.Forall₂ (ValueRel P W) vs ws) :
    Sim P W m m' (apply enter callee v vs) (apply enter' callee v' ws) (Returned P m') := by
  refine sim_applyWith henter ?_ hrel hW hopen hcallee hv hvs
  intro W m m' x y id callback callback' answer answer' hrel hW hxy hid henterable hcallback hanswer
  refine sim_fire hrel hxy hid henterable none fun {n n' previous} hrel₁ hopen₁ => ?_
  refine (sim_applyWith henter (fun hrel _ _ _ _ _ _ => .pure hrel rfl) hrel₁
    (hW.withHeld _) hopen₁ rfl (hcallback.withHeld _) (.cons (hanswer.withHeld _) .nil)).imp ?_
  exact fun _ hreturned hstrict => (hreturned.2 hstrict).ne_nil

/-! ## Expressions that call -/

theorem sim_callFunction (hcalls : CallsAlike P call call') (hrel : MachineRel P W m m')
    (hW : W.Ready) (hopen : P.strict → m'.frames ≠ []) {callee : Expr}
    (hcallee : isInserted (some callee) = false) {v v' : Value} (hv : ValueRel P W v v')
    {vs ws : List Value} (hvs : List.Forall₂ (ValueRel P W) vs ws) :
    Sim P W m m' (callFunction call callee v vs) (callFunction call' callee v' ws)
      (Returned P m') := by
  unfold callFunction
  rw [hv.isCallable_eq]
  split
  · exact hcalls.sim hrel hW hopen hcallee hv hvs
  · exact .throw hrel nofun

theorem sim_callMethod (hcalls : CallsAlike P call call') (hrel : MachineRel P W m m')
    (hW : W.Ready) (hopen : P.strict → m'.frames ≠ []) {callee : Expr}
    (hcallee : isInserted (some callee) = false) {receiver receiver' v v' : Value} (name : String)
    (hreceiver : ValueRel P W receiver receiver') (hv : ValueRel P W v v') {vs ws : List Value}
    (hvs : List.Forall₂ (ValueRel P W) vs ws) :
    Sim P W m m' (callMethod call callee receiver name v vs)
      (callMethod call' callee receiver' name v' ws) (Returned P m') := by
  unfold callMethod
  rw [hv.isCallable_eq]
  split
  · exact hcalls.sim hrel hW hopen hcallee hv hvs
  · have hmethod := Method.find?_rel hreceiver name
    generalize Method.find? receiver name = x, Method.find? receiver' name = y at hmethod
    cases hmethod with
    | none => exact .throw hrel nofun
    | some hmethod =>
        obtain ⟨hstore, hresult⟩ := hrel.store.invoke hmethod hvs
        refine (Sim.make (r := ValueRel P) hrel ⟨W, World.le_refl W, hstore, hresult⟩).imp ?_
        rintro _ _ _ _ - ⟨hresult, rfl⟩
        exact ⟨hresult, fun hstrict => .refl (hopen hstrict)⟩

/-- What can be called in a normal program: a name, or a property of something that calls nothing. -/
inductive PlainCallee : Expr → Prop
  | name (pos : Position) (n : String) : PlainCallee (.name pos n)
  | member (pos : Position) {object object' : Expr} (property : String) {ν ν' : Names}
      (hobject : (standard.expr object).run ν = .ok (object', ν')) :
      PlainCallee (.member pos object property)

theorem isInserted_eq_false {callee : Expr}
    (hnames : ∀ n ∈ callee.freeNames Option.toList, ¬ Hidden n) :
    isInserted (some callee) = false := by
  unfold isInserted
  split
  · rename_i pos n _ _ heq
    cases heq
    refine beq_eq_false_iff_ne.mpr fun hn => hnames _ (List.mem_singleton_self _) ?_
    exact hn ▸ hidden_callbacksBinding
  · rfl

theorem sim_call (hcalls : CallsAlike P call call') (hrel : MachineRel P W m m') (hW : W.Ready)
    (henv : EnvRel W env env') (hopen : P.strict → m'.frames ≠ []) {pos : Position}
    {callee : Expr} {args args' : List Expr} {ν ν' : Names} (hcallee : PlainCallee callee)
    (hargs : (standard.exprs args).run ν = .ok (args', ν'))
    (hnames : ∀ n ∈ (Expr.call pos callee args).freeNames Option.toList, ¬ Hidden n) :
    Sim P W m m' ((Expr.call pos callee args).eval call env)
      ((Expr.call pos callee args).eval call' env') (Returned P m') := by
  obtain ⟨hnames, hnames'⟩ := forall_append hnames
  have hinserted := isInserted_eq_false hnames
  have hstill {n' : Machine} (hquiet : m'.Quiet n') : P.strict → n'.frames ≠ [] := by
    rw [Machine.frames_of_adapter hquiet.adapter]
    exact hopen
  cases hcallee with
  | name npos n =>
      refine (Sim.readName hrel henv (hnames n (List.mem_singleton_self n))).bind ?_
      rintro W₁ n₁ n₁' v v' hle hrel₁ - ⟨hv, hquiet⟩
      refine (sim_exprs args hargs hrel₁ (henv.mono hle) hnames').bind ?_
      rintro W₂ n₂ n₂' vs vs' hle' hrel₂ - ⟨hvs, hquiet'⟩
      have hquiet'' := hquiet.trans hquiet'
      exact (sim_callFunction hcalls hrel₂ (hW.mono (World.le_trans hle hle')) (hstill hquiet'')
        hinserted (hv.mono hle') hvs).imp fun _ => .after_adapter hquiet''.adapter
  | member npos property hobject =>
      refine (sim_expr _ hobject hrel henv hnames).bind ?_
      rintro W₁ n₁ n₁' receiver receiver' hle hrel₁ - ⟨hreceiver, hquiet⟩
      refine (Sim.readValue hrel₁ (hrel₁.store.property hreceiver property)).bind ?_
      rintro W₂ n₂ n₂' v v' hle₂ hrel₂ - ⟨hv, hquiet₂⟩
      refine (sim_exprs args hargs hrel₂ (henv.mono (World.le_trans hle hle₂)) hnames').bind ?_
      rintro W₃ n₃ n₃' vs vs' hle₃ hrel₃ - ⟨hvs, hquiet₃⟩
      have hquiet' := (hquiet.trans hquiet₂).trans hquiet₃
      exact (sim_callMethod hcalls hrel₃ (hW.mono (World.le_trans hle (World.le_trans hle₂ hle₃)))
        (hstill hquiet') hinserted property (hreceiver.mono (World.le_trans hle₂ hle₃))
        (hv.mono hle₃) hvs).imp fun _ => .after_adapter hquiet'.adapter

end TraceLoom
