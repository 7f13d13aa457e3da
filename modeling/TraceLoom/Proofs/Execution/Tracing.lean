import TraceLoom.Proofs.Execution.Materials
import TraceLoom.Proofs.Execution.Passing

/-!
What inserted statements do.  They make values, record plain traces, and bind variables with
generated names to plain traces.
-/

namespace TraceLoom

open Script Instrument Running

/-- Where inserted calls of the recorder pass, a step of a machine that only makes values and
records, does so as well if it has to record plain traces. -/
def Machine.Gathers {α : Type} (R : Realm) (refusal : EvalError) (m : Machine)
    (Q : α → Store → Prop) (x : Running α) : Prop :=
  ∀ (a : α) (m' : Machine), m.run x = (.ok a, m') →
    (m'.Guarded R refusal ∧ m.store.Grows m'.store ∧ Q a m'.store) ∧
      (m.plain refusal).run x = (.ok a, m'.plain refusal)

section

variable {R : Realm} {refusal : EvalError} {m : Machine} {α β : Type} {Q : α → Store → Prop}
  {Q' : β → Store → Prop}

theorem Machine.Gathers.imp {x : Running α} (hx : m.Gathers R refusal Q x) {Q' : α → Store → Prop}
    (h : ∀ a s, Q a s → Q' a s) : m.Gathers R refusal Q' x := by
  intro a m' hrun
  obtain ⟨⟨hm', hgrows, ha⟩, hplain⟩ := hx a m' hrun
  exact ⟨⟨hm', hgrows, h a _ ha⟩, hplain⟩

theorem Machine.Gathers.bind {x : Running α} {f : α → Running β} (hx : m.Gathers R refusal Q x)
    (hf : ∀ a (n : Machine), n.Guarded R refusal → m.store.Grows n.store → Q a n.store →
      n.Gathers R refusal Q' (f a)) : m.Gathers R refusal Q' (x >>= f) := by
  intro b m' hrun
  obtain ⟨a, n, hfirst, hrest⟩ := Machine.exists_of_run_bind hrun
  obtain ⟨⟨hn, hgrows, ha⟩, hplain⟩ := hx a n hfirst
  obtain ⟨⟨hm', hgrows', hb⟩, hplain'⟩ := hf a n hn hgrows ha b m' hrest
  exact ⟨⟨hm', hgrows.trans hgrows', hb⟩, (Machine.run_bind_of_ok hplain f).trans hplain'⟩

/-- Where a step does the same as another one. -/
theorem Machine.Gathers.congr {x y : Running α} (hx : m.Gathers R refusal Q x)
    (h : m.run y = m.run x) (hplain : (m.plain refusal).run y = (m.plain refusal).run x) :
    m.Gathers R refusal Q y := by
  intro a m' hrun
  rw [hplain]
  exact hx a m' (h.symm.trans hrun)

/-- From a machine on, a step that succeeds does so as well if calls of the recorder have to record
plain traces. -/
def Machine.Passes (R : Realm) (refusal : EvalError) (m : Machine) (P : α → Prop) (x : Running α) :
    Prop :=
  ∀ (a : α) (m' : Machine), m.run x = (.ok a, m') →
    (m'.Guarded R refusal ∧ P a) ∧ (m.plain refusal).run x = (.ok a, m'.plain refusal)

theorem Passes.from {x : Running α} {P : α → Prop} (hx : Passes R refusal P x)
    (hm : m.Guarded R refusal) : m.Passes R refusal P x :=
  fun a m' hrun => hx m a m' hm hrun

theorem Machine.Gathers.passes {x : Running α} {f : α → Running β} {P : β → Prop}
    (hx : m.Gathers R refusal Q x)
    (hf : ∀ a (n : Machine), n.Guarded R refusal → Q a n.store → n.Passes R refusal P (f a)) :
    m.Passes R refusal P (x >>= f) := by
  intro b m' hrun
  obtain ⟨a, n, hfirst, hrest⟩ := Machine.exists_of_run_bind hrun
  obtain ⟨⟨hn, -, ha⟩, hplain⟩ := hx a n hfirst
  obtain ⟨hm', hplain'⟩ := hf a n hn ha b m' hrest
  exact ⟨hm', (Machine.run_bind_of_ok hplain f).trans hplain'⟩

theorem gathers_throw (e : EvalError) : m.Gathers R refusal Q (throw e : Running α) :=
  fun _ _ hrun => nomatch hrun

section

variable (hm : m.Guarded R refusal)

include hm

theorem gathers_pure {a : α} (h : Q a m.store) : m.Gathers R refusal Q (pure a) := by
  intro b m' hrun
  cases hrun
  exact ⟨⟨hm, .refl _, h⟩, rfl⟩

theorem gathers_ofExcept {x : Except EvalError α} (h : ∀ a, x = .ok a → Q a m.store) :
    m.Gathers R refusal Q (MonadExcept.ofExcept x) := by
  cases x with
  | ok a => exact gathers_pure hm (h a rfl)
  | error e => exact gathers_throw e

theorem gathers_read {f : Store → Except EvalError α} (h : ∀ a, f m.store = .ok a → Q a m.store) :
    m.Gathers R refusal Q (read f) :=
  (gathers_ofExcept hm h).congr (Machine.run_bind m get _) (Machine.run_bind _ get _)

theorem gathers_make {f : Store → α × Store} (hreaches : (f m.store).2.Reaches R)
    (hgrows : m.store.Grows (f m.store).2) (h : Q (f m.store).1 (f m.store).2) :
    m.Gathers R refusal Q (make f) := by
  intro a m' hrun
  cases hrun
  exact ⟨⟨{ hm with store := hreaches }, hgrows, h⟩, Machine.run_make _ f⟩

theorem gathers_adapting {x : Adapting α} {P : α → Prop}
    (h : ∀ (b : Adapter) v, m.adapter.run x = (.ok v, b) → b.InUse ∧ P v) :
    m.Gathers R refusal (fun v _ => P v) (adapting x) := by
  intro v m' hrun
  rw [Machine.run_adapting] at hrun
  rcases hresult : m.adapter.run x with ⟨e | w, b⟩
  · rw [hresult] at hrun
    cases hrun
  · rw [hresult] at hrun
    cases hrun
    obtain ⟨hb, hv⟩ := h b _ hresult
    refine ⟨⟨{ hm with adapter := hb }, .refl _, hv⟩, ?_⟩
    rw [Machine.run_adapting, show (m.plain refusal).adapter = m.adapter from rfl, hresult]
    rfl

theorem gathers_readName (env : Environment) {name : String} {P : Value → Prop}
    (h : ∀ v, R.Binds name v → P v) :
    m.Gathers R refusal (fun v _ => P v) (readName env name) := by
  refine gathers_read hm fun v hv => h v ?_
  cases hlookup : m.store.lookup? env name with
  | none =>
      rw [hlookup] at hv
      cases hv
  | some w =>
      rw [hlookup] at hv
      cases hv
      exact hm.store.binds hlookup

end

end

/-! ## The modules -/

section

variable {identity : Nat} {refusal : EvalError} {m : Machine} {env : Environment}
  {call : Expr → Value → List Value → Running Value}

theorem not_own_of_isReserved {n : String} (h : standard.options.isReserved n = true) :
    ¬ reread.own n :=
  not_not_intro (.inl h)

theorem not_own_of_generated {n : String} (h : Generated n) : ¬ reread.own n :=
  not_not_intro (.inr h)

theorem Store.Reaches.properties_kept {s : Store} {R : Realm} (h : s.Reaches R) (place : Nat)
    {fields : Fields Value} (hkept : R.kept place = some fields) : s.properties place = fields := by
  rw [Store.properties, h.kept place fields hkept, Option.getD_some]

theorem run_call_record (happlies : Applies call) (k : Machine) {callee : Expr} {name : String}
    {args : List Value}
    (hgate : k.gate (some callee) (.native (.trace name)) args k.store = .ok ()) :
    k.run (call callee (.native (.trace name)) args) = k.run (Native.record name args) := by
  obtain ⟨enter, hcall⟩ := happlies k callee (.native (.trace name)) args
  rw [hcall, run_apply_native hgate, Native.perform, bind_assoc]
  simp only [pure_bind, bind_pure]

/-- What a variable of the instrumentation may hold. -/
theorem binds_generated {n : String} {v : Value} (hn : Generated n) (hv : v.Inert) :
    (Realm.instrumented identity).Binds n v :=
  Realm.binds_hidden (not_own_of_generated hn) ⟨fun heq => absurd heq (hn.ne (by decide)),
    fun heq => absurd heq (hn.ne (by decide)), fun _ => hv⟩

section

variable (hm : m.Guarded (.instrumented identity) refusal)

include hm

theorem gathers_builderModule :
    m.Gathers (.instrumented identity) refusal (fun v _ => v = .object builderPlace)
      (readName env standard.options.expBinding) :=
  gathers_readName hm env fun _ hv => (hv.2 (not_own_of_isReserved (by decide))).builder rfl

theorem gathers_callbacksModule :
    m.Gathers (.instrumented identity) refusal (fun v _ => v = .object callbacksPlace)
      (readName env standard.options.callbacksBinding) :=
  gathers_readName hm env fun _ hv => (hv.2 (not_own_of_isReserved (by decide))).callbacks rfl

theorem gathers_generated {n : String} (hn : Generated n) :
    m.Gathers (.instrumented identity) refusal (fun v _ => v.Inert) (readName env n) :=
  gathers_readName hm env fun _ hv => (hv.2 (not_own_of_generated hn)).generated hn

/-- A property of an object that is kept. -/
theorem gathers_property (place : Nat) {fields : Fields Value}
    (hkept : modulesKept identity place = some fields) {name : String} {v : Value}
    (hget : fields.get? name = some v) :
    m.Gathers (.instrumented identity) refusal (fun w _ => w = v)
      (Running.read fun s => s.property (.object place) name) := by
  refine gathers_read hm fun w hw => ?_
  rw [Store.property, hm.store.properties_kept place hkept, hget] at hw
  cases hw
  rfl

/-! ## Calls of natives -/

theorem gathers_builder (happlies : Applies call) {callee : Expr} {name : String}
    (hne : name ≠ "froms") {args : List Value}
    (hplain : ∀ t, Builder.build ⟨name, args, m.store⟩ = .ok t → t.Plain) :
    m.Gathers (.instrumented identity) refusal (fun v _ => v.Inert)
      (call callee (.native (.builder name)) args) := by
  have hbuild : m.Gathers (.instrumented identity) refusal (fun v _ => v.Inert)
      (MonadExcept.ofExcept (Builder.build ⟨name, args, m.store⟩) >>= fun t =>
        make (Store.newTrace t)) :=
    (gathers_ofExcept (Q := fun t _ => t.Plain) hm hplain).bind
      fun t n hn _ ht => gathers_make hn (hn.store.newTrace t) (.newTrace t _) ht
  have hrun (k : Machine) (hk : k.store = m.store) (hgate : k.gate (some callee)
      (.native (.builder name)) args k.store = .ok ()) :
      k.run (call callee (.native (.builder name)) args) =
        k.run (MonadExcept.ofExcept (Builder.build ⟨name, args, m.store⟩) >>= fun t =>
          make (Store.newTrace t)) := by
    rw [run_call_builder happlies hgate, Native.build, Native.arguments]
    simp only [bind_assoc, pure_bind, if_neg hne]
    rw [Machine.run_bind, Machine.run_get]
    dsimp only
    rw [hk]
  exact hbuild.congr (hrun m rfl (by rw [hm.gate]; rfl)) (hrun _ rfl rfl)

theorem gathers_outcomeValue {out : Operation.Outcome}
    (hplain : ∀ ts, out = .args ts → ∀ t ∈ ts, Trace.Plain t) :
    m.Gathers (.instrumented identity) refusal (fun v s => v.TameIn s) (outcomeValue out) := by
  cases out with
  | done | context => exact gathers_pure hm trivial
  | args ts =>
      obtain ⟨-, -, hgrows, -⟩ := Store.newTraces_grows ts m.store
      exact gathers_make hm (hm.store.newTraces ts) hgrows (tameIn_newTraces (hplain ts rfl) _)

theorem gathers_operation (happlies : Applies call) {callee : Expr}
    (hcallee : isInserted (some callee) = true) {name : String} (hne : name ≠ "getTrace")
    {args : List Value} (hplain : ∀ op, Operation.ofArguments ⟨name, args, m.store⟩ = .ok op →
      op.Plain ∧ ∀ c, (op.plan? c).isSome = true) :
    m.Gathers (.instrumented identity) refusal (fun v s => v.TameIn s)
      (call callee (.native (.trace name)) args) := by
  have hgate : m.gate (some callee) (.native (.trace name)) args m.store = .ok () := by
    rw [hm.gate, recorderGate, if_pos hcallee]
  have hplainGate : plainGate refusal (some callee) (.native (.trace name)) args m.store = .ok () := by
    rw [plainGate, if_neg hne]
    cases hop : Operation.ofArguments ⟨name, args, m.store⟩ with
    | error e => rfl
    | ok op => exact if_pos (hplain op hop).1
  obtain ⟨r, hr, huse⟩ := hm.adapter
  have hrecord : m.Gathers (.instrumented identity) refusal (fun v s => v.TameIn s)
      (MonadExcept.ofExcept (Operation.ofArguments ⟨name, args, m.store⟩) >>= fun op =>
        adapting (Adapter.record op.perform) >>= outcomeValue) := by
    refine (gathers_ofExcept (Q := fun op _ => op.Plain ∧ ∀ c, (op.plan? c).isSome = true) hm
      hplain).bind fun op n hn _ hop => ?_
    obtain ⟨hop, hplan⟩ := hop
    refine (gathers_adapting hn (P := fun out => ∀ ts, out = .args ts → ∀ t ∈ ts, Trace.Plain t)
      fun b out hrun => ?_).bind fun out n hn _ hout => gathers_outcomeValue hn hout
    obtain ⟨hb, hout, -⟩ := hn.adapter.record (Recording.echoes_perform (m := 0) hop hplan) hrun
    exact ⟨hb, hout⟩
  have hrun (k : Machine) (hk : k.store = m.store) (hadapter : k.adapter = m.adapter)
      (hgate : k.gate (some callee) (.native (.trace name)) args k.store = .ok ()) :
      k.run (call callee (.native (.trace name)) args) =
        k.run (MonadExcept.ofExcept (Operation.ofArguments ⟨name, args, m.store⟩) >>= fun op =>
          adapting (Adapter.record op.perform) >>= outcomeValue) := by
    rw [run_call_record happlies k hgate, run_record k hne, hadapter, hr, hk]
  exact hrecord.congr (hrun m rfl rfl hgate) (hrun _ rfl rfl hplainGate)

end

/-! ## Inserted expressions -/

theorem gathers_evalList {Q : Value → Store → Prop} {es : List Expr}
    (hgrows : ∀ v s t, Q v s → s.Grows t → Q v t) (hm : m.Guarded (.instrumented identity) refusal)
    (h : ∀ e ∈ es, ∀ {m : Machine}, m.Guarded (.instrumented identity) refusal →
      m.Gathers (.instrumented identity) refusal Q (e.eval call env)) :
    m.Gathers (.instrumented identity) refusal (fun vs s => ∀ v ∈ vs, Q v s)
      (Expr.evalList call env es) := by
  induction es generalizing m with
  | nil => exact gathers_pure hm (List.forall_mem_nil _)
  | cons e es ih =>
      obtain ⟨he, hes⟩ := List.forall_mem_cons.mp h
      refine (he hm).bind fun v n hn _ hv => (ih hn hes).bind fun vs k hk hsame hvs => ?_
      exact gathers_pure hk (List.forall_mem_cons.mpr ⟨hgrows _ _ _ hv hsame, hvs⟩)

theorem gathers_evalEntries {Q : Value → Store → Prop} {es : List (String × Expr)}
    (hgrows : ∀ v s t, Q v s → s.Grows t → Q v t) (hm : m.Guarded (.instrumented identity) refusal)
    (h : ∀ entry ∈ es, ∀ {m : Machine}, m.Guarded (.instrumented identity) refusal →
      m.Gathers (.instrumented identity) refusal Q (entry.2.eval call env)) :
    m.Gathers (.instrumented identity) refusal (fun fields s => ∀ field ∈ fields, Q field.2 s)
      (Expr.evalEntries call env es) := by
  induction es generalizing m with
  | nil => exact gathers_pure hm (List.forall_mem_nil _)
  | cons entry es ih =>
      obtain ⟨he, hes⟩ := List.forall_mem_cons.mp h
      refine (he hm).bind fun v n hn _ hv => (ih hn hes).bind fun vs k hk hsame hvs => ?_
      exact gathers_pure hk (List.forall_mem_cons.mpr ⟨hgrows _ _ _ hv hsame, hvs⟩)

theorem gathers_datum {e : Expr} (he : ReadNumber e) (hm : m.Guarded (.instrumented identity) refusal) :
    m.Gathers (.instrumented identity) refusal (fun _ _ => True) (e.eval call env) := by
  induction he generalizing m with
  | number => exact gathers_pure hm trivial
  | name => exact gathers_readName hm env fun _ _ => trivial
  | neg _ ih => exact (ih hm).bind fun _ n hn _ _ => gathers_pure hn trivial

/-- A variable of the instrumentation, or several ones, and nothing else. -/
theorem passes_declare {target : Pattern} {e : Expr} {pos : Position} {Q : Value → Store → Prop}
    (he : ∀ {m : Machine}, m.Guarded (.instrumented identity) refusal →
      m.Gathers (.instrumented identity) refusal Q (e.eval call env))
    (htarget : ∀ v (n : Machine), n.Guarded (.instrumented identity) refusal → Q v n.store →
      n.Passes (.instrumented identity) refusal (fun _ => True) (bindPattern env .ofLet target v)) :
    Passes (.instrumented identity) refusal (Flow.Reaches (.instrumented identity))
      ((Stmt.declare pos .ofLet [(target, some e)]).exec call env) := by
  have hdeclared : Passes (.instrumented identity) refusal (fun _ => True) (e.eval call env >>= fun v =>
      bindPattern env .ofLet target v >>= fun _ => pure ()) := by
    refine fun m b m' hm => (he hm).passes (P := fun _ => True) (fun v n hn hv c k hrun => ?_) b m'
    obtain ⟨_, k', hbind, hrest⟩ := Machine.exists_of_run_bind hrun
    cases hrest
    obtain ⟨hk, hplain⟩ := htarget v n hn hv _ k hbind
    exact ⟨hk, Machine.run_bind_of_ok hplain _⟩
  exact hdeclared.bind fun _ _ => passes_pure trivial

section

variable (happlies : Applies call)

include happlies

/-- A call of a constructor. -/
theorem gathers_build (hm : m.Guarded (.instrumented identity) refusal) {pos mpos npos : Position}
    {builder : String} {args : List Expr} (hbuilder : builder ∈ Builder.names)
    (hne : builder ≠ "froms") {Q : List Value → Store → Prop}
    (hargs : ∀ {m : Machine}, m.Guarded (.instrumented identity) refusal →
      m.Gathers (.instrumented identity) refusal Q (Expr.evalList call env args))
    (hplain : ∀ vs s t, Q vs s → Builder.build ⟨builder, vs, s⟩ = .ok t → t.Plain) :
    m.Gathers (.instrumented identity) refusal (fun v _ => v.Inert)
      ((Expr.call pos (.member mpos (.name npos standard.options.expBinding) builder) args).eval
        call env) := by
  have hget : (builderFields identity).get? builder = some (.native (.builder builder)) := by
    rw [builderFields, Fields.get?_append, Fields.get?_map_name _ hbuilder, Option.some_or]
  refine (gathers_builderModule hm).bind fun v n hn _ hv => ?_
  subst hv
  refine (gathers_property hn builderPlace rfl hget).bind fun f n hn _ hf => ?_
  subst hf
  refine (hargs hn).bind fun vs n hn _ hvs => ?_
  rw [callMethod, if_pos (show Value.isCallable (.native (.builder builder)) = true from rfl)]
  exact gathers_builder hn happlies hne fun t => hplain vs _ t hvs

theorem gathers_tracer {strict : Bool} {e : Expr} (he : Tracer ReadNumber strict e)
    (hm : m.Guarded (.instrumented identity) refusal) :
    m.Gathers (.instrumented identity) refusal (fun v s => v.TameIn s ∧ (strict = true → v.Inert))
      (e.eval call env) := by
  have hinert {m : Machine} {strict : Bool} {x : Running Value}
      (h : m.Gathers (.instrumented identity) refusal (fun v _ => v.Inert) x) :
      m.Gathers (.instrumented identity) refusal
        (fun v s => v.TameIn s ∧ (strict = true → v.Inert)) x :=
    h.imp fun v s hv => ⟨hv.tameIn s, fun _ => hv⟩
  have htame (v : Value) (s t : Store) (hv : v.TameIn s ∧ (true = true → v.Inert)) (hst : s.Grows t) :
      v.TameIn t ∧ (true = true → v.Inert) :=
    ⟨hv.1.grows hst, hv.2⟩
  induction he generalizing m with
  | undefined =>
      refine hinert ((gathers_builderModule hm).bind fun v n hn _ hv => ?_)
      subst hv
      have hget : (builderFields identity).get? "undefined_" = some (.trace identity .undefined) := by
        simp [builderFields, Fields.get?, Builder.names]
      refine (gathers_property hn builderPlace rfl hget).imp fun w _ hw => ?_
      subst hw
      exact Trace.plain_leaf rfl rfl rfl
  | bound name => exact hinert (gathers_generated hm name)
  | number h =>
      exact hinert (gathers_build happlies hm (by decide) (by decide) (Q := fun _ _ => True)
        (fun hn => (gathers_evalList (Q := fun _ _ => True) (fun _ _ _ _ _ => trivial) hn
          (List.forall_mem_singleton.mpr fun hn => gathers_datum h hn)).imp fun _ _ _ => trivial)
        fun _ _ _ _ => plain_of_build_number)
  | build mem all ih =>
      have hne {builder : String} (hmem : builder ∈ builders) : builder ≠ "froms" := by
        rintro rfl
        exact absurd hmem (by decide)
      have hnames : ∀ builder ∈ builders, builder ∈ Builder.names := by decide
      refine hinert (gathers_build happlies hm (hnames _ mem) (hne mem)
        (fun hn => gathers_evalList (Q := fun v s => v.TameIn s) (fun _ _ _ hv => hv.grows) hn
          fun e he m hm => (ih e he hm).imp fun _ _ hv => hv.1)
        fun _ _ _ hvs => plain_of_build mem hvs)
  | string | boolean => exact hinert (gathers_pure hm trivial)
  | list all ih =>
      refine (gathers_evalList htame hm fun e he m hm => ih e he hm).bind fun vs n hn _ hvs => ?_
      have hmem {v : Value} (hv : v ∈ vs.toArray) : v.Inert := (hvs v (List.mem_toArray.mp hv)).2 rfl
      refine gathers_make hn (hn.store.newArray fun v hv => (hmem hv).reaches rfl) (.newArray _ _)
        ⟨⟨by simp [Store.newArray], fun v hv => ?_⟩, fun h => Bool.noConfusion h⟩
      rw [Store.items_newArray] at hv
      exact hmem hv
  | record all ih =>
      refine (gathers_evalEntries htame hm fun entry he m hm => ih entry he hm).bind
        fun fields n hn _ hfields => ?_
      have hinert : ∀ field ∈ Fields.ofPairs fields, field.2.Inert :=
        Fields.forall_ofPairs fun field hfield => (hfields field hfield).2 rfl
      refine gathers_make hn (hn.store.newObject fun field hfield => (hinert field hfield).reaches rfl).2
        (.newObject _ _) ⟨⟨by simp [Store.newObject], ?_, fun field hfield => ?_⟩, fun h => Bool.noConfusion h⟩
      · rw [Store.properties_newObject]
        exact Fields.nodup_ofPairs fields
      · rw [Store.properties_newObject] at hfield
        exact hinert field hfield

/-- A call of an operation of the recorder. -/
theorem gathers_recording {operation : String} {args : List Expr} {e : Expr}
    (hrecording : IsRecording operation args e) (hm : m.Guarded (.instrumented identity) refusal)
    (hoperation : operation ∈ Operation.names) (hne : operation ≠ "getTrace")
    {Q : List Value → Store → Prop}
    (hargs : ∀ {m : Machine}, m.Guarded (.instrumented identity) refusal →
      m.Gathers (.instrumented identity) refusal Q (Expr.evalList call env args))
    (hplain : ∀ vs s op, Q vs s → Operation.ofArguments ⟨operation, vs, s⟩ = .ok op →
      op.Plain ∧ ∀ c, (op.plan? c).isSome = true) :
    m.Gathers (.instrumented identity) refusal (fun v s => v.TameIn s) (e.eval call env) := by
  obtain @⟨pos, mpos, tpos, npos⟩ := hrecording
  have hoperations : callbacksFields.get? "trace" = some (.object operationsPlace) := by
    simp [callbacksFields, Fields.get?, Event.all, Event.name]
  have hget : operationFields.get? operation = some (.native (.trace operation)) := by
    rw [operationFields, Fields.get?_map_name _ hoperation]
  have hmodule : m.Gathers (.instrumented identity) refusal (fun v _ => v = .object operationsPlace)
      ((Expr.member tpos (.name npos standard.options.callbacksBinding) "trace").eval call env) := by
    refine (gathers_callbacksModule hm).bind fun v n hn _ hv => ?_
    subst hv
    exact gathers_property hn callbacksPlace rfl hoperations
  refine hmodule.bind fun v n hn _ hv => ?_
  subst hv
  refine (gathers_property hn operationsPlace rfl hget).bind fun f n hn _ hf => ?_
  subst hf
  refine (hargs hn).bind fun vs n hn _ hvs => ?_
  rw [callMethod, if_pos (show Value.isCallable (.native (.trace operation)) = true from rfl)]
  exact gathers_operation hn happlies (by simp [isInserted]) hne fun op => hplain vs _ op hvs

/-! ## Inserted statements -/

theorem passes_recorded {operation : String} {args : List Expr} {e : Expr} {pos : Position}
    (hrecording : IsRecording operation args e) (hmem : operation ∈ recordings)
    (hargs : ∀ a ∈ args, Tracer ReadNumber false a) :
    Passes (.instrumented identity) refusal (Flow.Reaches (.instrumented identity))
      ((Stmt.expr pos e).exec call env) := by
  have hnames : ∀ operation ∈ recordings, operation ∈ Operation.names := by decide
  have hne : operation ≠ "getTrace" := by
    rintro rfl
    exact absurd hmem (by decide)
  intro m flow m' hm
  refine (gathers_recording happlies hrecording hm (hnames _ hmem) hne
    (fun hn => gathers_evalList (Q := fun v s => v.TameIn s) (fun _ _ _ hv => hv.grows) hn
      fun e he m hm => (gathers_tracer happlies (hargs e he) hm).imp fun _ _ hv => hv.1)
    fun _ _ _ hvs => plain_of_ofArguments hmem hvs).passes (fun _ n hn _ => ?_) flow m'
  exact (passes_pure trivial).from hn

theorem passes_test {n : String} {e : Expr} {pos : Position} (hn : Generated n)
    (he : Tracer ReadNumber true e) :
    Passes (.instrumented identity) refusal (Flow.Reaches (.instrumented identity))
      ((Stmt.declare pos .ofLet [(.name n, some e)]).exec call env) :=
  passes_declare (gathers_tracer happlies he) fun v _ hk hv =>
    (passes_make (f := fun s => ((), s.declare env n v false)) fun _ hs =>
      ⟨trivial, hs.declare env (binds_generated hn (hv.2 rfl)) _⟩).from hk

theorem passes_prologue {names : List String} {label : String} {arity e : Expr}
    {pos spos : Position} (hnames : ∀ n ∈ names, Generated n) (harity : ReadNumber arity)
    (hrecording : IsRecording "traceFunctionBody" [.string spos label, arity] e) :
    Passes (.instrumented identity) refusal (Flow.Reaches (.instrumented identity))
      ((Stmt.declare pos .ofLet [(.array names, some e)]).exec call env) := by
  have hargs {m : Machine} (hm : m.Guarded (.instrumented identity) refusal) :
      m.Gathers (.instrumented identity) refusal (fun _ _ => True)
        (Expr.evalList call env [.string spos label, arity]) :=
    (gathers_evalList (Q := fun _ _ => True) (fun _ _ _ _ _ => trivial) hm
      (List.forall_mem_cons.mpr ⟨fun hn => gathers_pure hn trivial,
        List.forall_mem_singleton.mpr fun hn => gathers_datum harity hn⟩)).imp fun _ _ _ => trivial
  refine passes_declare (fun hm => gathers_recording happlies hrecording hm (by decide) (by decide)
    hargs fun _ _ _ _ => plain_of_traceFunctionBody) fun v k hk hv => ?_
  have hread : k.Gathers (.instrumented identity) refusal
      (fun bound _ => ∀ entry ∈ bound, entry.1 ∈ names ∧ entry.2.Inert)
      (Running.read fun s => s.destructure names v) :=
    gathers_read hk fun bound hbound => inert_of_destructure hv hbound
  exact hread.passes fun bound n hn hbound => (passes_make fun s hs => ⟨trivial, hs.declareAll env
    (fun entry hentry => binds_generated (hnames _ (hbound entry hentry).1) (hbound entry hentry).2)
    _⟩).from hn

/-- The statements that instrumentation inserts. -/
theorem passes_inserted {s : Stmt} (hs : Inserted ReadNumber s) :
    Passes (.instrumented identity) refusal (Flow.Reaches (.instrumented identity))
      (s.exec call env) := by
  cases hs with
  | record mem all call => exact passes_recorded happlies call mem all
  | test name value => exact passes_test happlies (.inr (.inl name)) value
  | prologue generated count call => exact passes_prologue happlies generated count call

end

end

/-! ## Programs -/

/-- What a program itself calls is not inserted. -/
theorem isInserted_of_proper {callee : Option Expr} (h : ∀ e ∈ callee, e.Proper reread) :
    isInserted callee = false := by
  unfold isInserted
  split
  · rename_i mpos tpos npos n property
    obtain ⟨⟨hn, -⟩, -⟩ := h _ rfl
    exact beq_eq_false_iff_ne.mpr (not_hidden_ne hn hidden_callbacksBinding)
  · rfl

/-- Whatever an instrumented program does, it records plain traces. -/
theorem pervasive_passes (identity : Nat) (refusal : EvalError) :
    Pervasive (.instrumented identity) (Passes (.instrumented identity) refusal) where
  toElementary := elementary_passes _ _
  permit callee function args h := passes_permit fun _ _ => by
    cases function with
    | native n => exact absurd rfl (h n)
    | _ => rfl
  native _ hanswer _ :=
    passes_callNative (fun _ => trivial) (fun _ _ _ _ => passes_pure trivial)
      (isInserted_of_proper fun _ he => absurd he (Option.not_mem_none _)) _
      (List.forall_mem_singleton.mpr hanswer)
  answering hcallee _ hargs hbody :=
    passes_callNative (fun _ => trivial) (fun hcontext hcallback hanswer hinert =>
      passes_fire hcontext (hbody _ _ hcallback hanswer hinert)) (isInserted_of_proper hcallee) _
      hargs
  inserted hcall hs := passes_inserted hcall hs

end TraceLoom
