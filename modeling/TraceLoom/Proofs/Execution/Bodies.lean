import TraceLoom.Proofs.Execution.Control
import TraceLoom.Proofs.Numeric.Whole

/-!
Bodies of functions.  The instrumented body first takes its closure record and the traces of its
arguments from the recorder; then both bodies run alike.
-/

namespace TraceLoom

open Script Instrument Running

variable {P : Expectation} {W W' : World} {m m' n n' : Machine} {env env' : Environment}
  {call call' : Expr → Value → List Value → Running Value}

/-! ## Scopes of bodies -/

theorem StoreRel.declareAll {s t : Store} (h : StoreRel P W s t) (henv : EnvRel W env env')
    {entries : List (String × Nat)} (hentries : ∀ entry ∈ entries, ¬ Hidden entry.1)
    {vs ws : List Value} (hvs : List.Forall₂ (ValueRel P W) vs ws) :
    StoreRel P W
      (entries.foldl (fun s entry =>
        s.declare env entry.1 (vs[entry.2]?.getD .undefined) false) s)
      (entries.foldl (fun t entry =>
        t.declare env' entry.1 (ws[entry.2]?.getD .undefined) false) t) := by
  induction entries generalizing s t with
  | nil => exact h
  | cons entry entries ih =>
      obtain ⟨hentry, hrest⟩ := List.forall_mem_cons.mp hentries
      have hv := ValueRel.getD (rel_getElem? hvs entry.2)
      exact ih (h.write (List.forall₂_cons.mp henv.scopes).1 hentry ⟨hv, rfl⟩) hrest

/-- A function is bound in the scope of its body under the name it gives itself. -/
theorem sim_declareSelf (hrel : MachineRel P W m m') {inner inner' : Environment}
    (hinner : EnvRel W inner inner') (hopened : Opened W n' env' inner' m') {name : String}
    (hname : standard.options.isReserved name = false) {v v' : Value} (hv : ValueRel P W v v') :
    Sim P W m m' (change (Store.declare inner name v false))
      (change (Store.declare inner' name v' false)) fun W' _ _ k' =>
        W' = W ∧ k'.adapter = m'.adapter := by
  by_cases hhidden : Hidden name
  · have hgenerated : Generated name := hhidden.resolve_left (by simp [hname])
    have hfurnishing : Furnishing W m'.store inner'.own name v' := by
      refine .of_generated hgenerated fun _ => ⟨hopened.fresh, fun hbound => ?_⟩
      have hkey := hrel.store.furnished.bound hbound
      rw [hopened.bindings] at hkey
      exact absurd hkey List.not_mem_nil
    have hstore : StoreRel P W (m.store.declare inner name v false)
        (m'.store.declare inner' name v' false) := (hrel.store.write_left hhidden _).write_right
      hhidden hfurnishing
    exact (Sim.change hrel hstore).imp fun _ hn => ⟨hn.1, by rw [hn.2]⟩
  · exact (sim_declare hrel hinner hhidden hv false).imp fun _ hn => ⟨hn.1, by rw [hn.2]⟩

theorem sim_openBody (hrel : MachineRel P W m m') {i j : Nat} (hi : W.identities[i]? = some j)
    {c c' : Closure} (hc : ClosureRel P W c c') {vs ws : List Value}
    (hvs : List.Forall₂ (ValueRel P W) vs ws) :
    Sim P W m m' (openBody (.function i c) c vs) (openBody (.function j c') c' ws)
      fun W' inner inner' n' => EnvRel W' inner inner' ∧ n'.adapter = m'.adapter ∧
        inner'.own ∉ W'.blocks := by
  unfold openBody
  refine (sim_openScope hrel hc.env).bind
    fun {W₁ n n' inner inner'} hle hrel₁ _ ⟨hinner, hopened⟩ => ?_
  dsimp only
  rw [hc.bindsSelf, hc.name, hc.params]
  have hparams {k k' : Machine} (hrel₂ : MachineRel P W₁ k k')
      (hadapter : k'.adapter = n'.adapter) :
      Sim P W₁ k k'
        (do
          change fun s => c.params.zipIdx.foldl (fun s entry =>
            s.declare inner entry.1 (vs[entry.2]?.getD .undefined) false) s
          return inner)
        (do
          change fun s => c.params.zipIdx.foldl (fun s entry =>
            s.declare inner' entry.1 (ws[entry.2]?.getD .undefined) false) s
          return inner')
        fun W' inner inner' n' => EnvRel W' inner inner' ∧ n'.adapter = m'.adapter ∧
          inner'.own ∉ W'.blocks := by
    have hnames : ∀ entry ∈ c.params.zipIdx, ¬ Hidden entry.1 := fun entry hentry =>
      hc.fits.names _ (List.fst_mem_of_mem_zipIdx hentry)
    refine (Sim.change hrel₂ (hrel₂.store.declareAll hinner hnames
      (hvs.imp fun _ _ hv => hv.mono hle))).bind ?_
    rintro _ _ _ _ _ - hrel₃ - ⟨rfl, rfl⟩
    exact .pure hrel₃ ⟨hinner, hadapter.trans hopened.quiet.adapter, hopened.fresh⟩
  split
  · rename_i name hself hname
    refine (sim_declareSelf hrel₁ hinner hopened (hc.self hself name hname)
      (.function (getElem?_of_isPrefix hle.identities hi) (hc.mono hle))).bind ?_
    rintro _ _ _ _ _ - hrel₂ - ⟨rfl, hadapter⟩
    exact hparams hrel₂ hadapter
  · exact hparams hrel₁ rfl

/-! ## Arguments -/

/-- A variable of the instrumentation has a plain trace. -/
def HasTrace (s : Store) (scope : ScopeId) (n : String) : Prop :=
  ∃ x, (s.bindings scope).get? n = some x ∧ IsPlain x.value

/-- Names of what a function takes from the recorder. -/
def IsArgument (n : String) : Prop :=
  n = closureParam ∨ ∃ i : Nat, n = "$p" ++ toString i

theorem IsArgument.generated {n : String} (h : IsArgument n) : Generated n :=
  h.imp id .inr

/-- Variables with the given values in the innermost scope. -/
def Store.declareAll (env : Environment) (entries : Fields Value) (s : Store) : Store :=
  entries.foldl (fun s entry => s.declare env entry.1 entry.2 false) s

theorem StoreRel.declareTraces {s t : Store} (h : StoreRel P W s t)
    (hfresh : env'.own ∉ W.blocks) (hlt : env'.own < t.scopes.size) {entries : Fields Value}
    (hentries : ∀ entry ∈ entries, IsArgument entry.1 ∧ IsPlain entry.2) :
    StoreRel P W s (t.declareAll env' entries) ∧
      ∀ n, HasTrace t env'.own n ∨ n ∈ entries.keys →
        HasTrace (t.declareAll env' entries) env'.own n := by
  induction entries generalizing t with
  | nil => exact ⟨h, fun n hn => hn.resolve_right List.not_mem_nil⟩
  | cons entry entries ih =>
      obtain ⟨name, v⟩ := entry
      obtain ⟨⟨hname, hv⟩, hrest⟩ := List.forall_mem_cons.mp hentries
      have hfurnishing : Furnishing W t env'.own name v :=
        .of_generated hname.generated fun _ => ⟨hfresh, fun _ => hv⟩
      have hdeclared : StoreRel P W s (t.declare env' name v false) :=
        h.write_right (.inr hname.generated) hfurnishing
      have hlt' : env'.own < (t.declare env' name v false).scopes.size := by
        simpa [Store.declare, Store.write] using hlt
      obtain ⟨hstore, htraces⟩ := ih hdeclared hlt' hrest
      refine ⟨hstore, fun n hn => htraces n ?_⟩
      have hget := get?_bindings_write t env'.own env'.own name n ⟨v, false⟩
      by_cases hname' : n = name
      · rw [if_pos ⟨rfl, hlt, hname'⟩] at hget
        exact .inl ⟨_, hget, hv⟩
      · rw [if_neg fun hcond => hname' hcond.2.2] at hget
        rcases hn with ⟨x, hx, hplain⟩ | hmem
        · exact .inl ⟨x, hget.trans hx, hplain⟩
        · exact .inr ((List.mem_cons.mp hmem).resolve_left hname')

/-- The names in an array pattern with what they get. -/
def destructured (names : List String) (s : Store) (place : Nat) : Fields Value :=
  names.zipIdx.map fun entry => (entry.1, (s.items place)[entry.2]?.getD Value.undefined)

theorem run_bindArray (names : List String) (place : Nat) :
    m'.run (bindPattern env' .ofLet (.array names) (.array place)) =
      (.ok ⟨⟩, { m' with
        store := m'.store.declareAll env' (destructured names m'.store place) }) :=
  Machine.run_bind_of_ok (m'.run_read fun s => s.destructure names (.array place)) _

theorem arity_ofNat {count : Nat} (hcount : count ≤ Recorder.maxArity) (first : Value) (s : Store) :
    Operation.arity ⟨"traceFunctionBody", [first, .number (Numeric.Binary64.ofNat count)], s⟩ 1 =
      .ok count := by
  have hlt : count < 2 ^ 53 := Nat.lt_of_le_of_lt hcount (by decide)
  have hnumber : Arguments.number ⟨"traceFunctionBody",
      [first, .number (Numeric.Binary64.ofNat count)], s⟩ 1 =
      .ok (Numeric.Binary64.ofNat count) := rfl
  have hslot : (Value.slot? (Numeric.Binary64.ofNat count)).filter (· ≤ Recorder.maxArity) =
      some count := by
    rw [Value.slot?_ofNat hlt, Option.filter_some, if_pos (by simpa using hcount)]
  rw [Operation.arity, hnumber]
  simp only [bind, Except.bind, hslot]
  rfl

/-- The names that the first statement of a body declares. -/
def argumentNames (count : Nat) : List String :=
  closureParam :: (List.range count).map fun i => "$p" ++ toString i

theorem isArgument_of_mem {count : Nat} {n : String} (h : n ∈ argumentNames count) :
    IsArgument n := by
  rcases List.mem_cons.mp h with rfl | hmem
  · exact .inl rfl
  · obtain ⟨i, -, rfl⟩ := List.mem_map.mp hmem
    exact .inr ⟨i, rfl⟩

/-- A list of plain traces gives a plain trace to each of as many names. -/
theorem destructured_plain {names : List String} {s : Store} {place : Nat} {ts : List Trace}
    (hitems : List.Forall₂ IsTraceOf ts (s.items place).toList) (hplain : ∀ t ∈ ts, Trace.Plain t)
    (hlength : ts.length = names.length) :
    (destructured names s place).keys = names ∧
      ∀ entry ∈ destructured names s place, entry.1 ∈ names ∧ IsPlain entry.2 := by
  refine ⟨?_, fun entry hentry => ?_⟩
  · simp [destructured, Fields.keys, Function.comp_def]
  · obtain ⟨⟨name, i⟩, hmem, rfl⟩ := List.mem_map.mp hentry
    obtain ⟨hi, hname⟩ := List.mem_zipIdx' hmem
    refine ⟨hname ▸ List.getElem_mem hi, ?_⟩
    have hi' : i < ts.length := hlength ▸ hi
    have hsize : i < (s.items place).size := by
      rw [← Array.length_toList, ← hitems.length_eq]
      exact hi'
    obtain ⟨identity, hvalue⟩ := (List.forall₂_iff_get.mp hitems).2 i hi' (by simpa using hsize)
    refine ⟨identity, ts[i], ?_, hplain _ (List.getElem_mem hi')⟩
    simpa [hsize] using hvalue

/-- What a function has taken from the recorder. -/
structure Taken (P : Expectation) (env' : Environment) (names : List String) (W W' : World)
    (n' : Machine) : Prop where
  world : W' = W.addBound [(env'.own, closureParam)]
  traces : ∀ n ∈ names, HasTrace n'.store env'.own n

theorem sim_bindArguments (hrel : MachineRel P W m m') (hfresh : env'.own ∉ W.blocks)
    (hlt : env'.own < m'.store.scopes.size) {count place : Nat} {ts : List Trace}
    (hitems : List.Forall₂ IsTraceOf ts (m'.store.items place).toList)
    (hplain : ∀ t ∈ ts, Trace.Plain t) (hlength : ts.length = count + 1) :
    Sim P W m m' (pure ()) (bindPattern env' .ofLet (.array (argumentNames count)) (.array place))
      fun W' _ _ n' => Taken P env' (argumentNames count) W W' n' ∧ n'.adapter = m'.adapter := by
  have hcount : ts.length = (argumentNames count).length := by simp [argumentNames, hlength]
  obtain ⟨hkeys, hentries⟩ := destructured_plain hitems hplain hcount
  obtain ⟨hstore, htraces⟩ := hrel.store.declareTraces hfresh hlt fun entry hentry =>
    ⟨isArgument_of_mem (hentries entry hentry).1, (hentries entry hentry).2⟩
  rw [hkeys] at htraces
  have hclosure := htraces closureParam (.inr List.mem_cons_self)
  have hbound : ∀ entry ∈ [(env'.own, closureParam)], entry.2 ∈ Fields.keys
      ((m'.store.declareAll env' (destructured (argumentNames count) m'.store place)).bindings
        entry.1) ∧ (entry.2 = closureParam → ∀ x,
      ((m'.store.declareAll env' (destructured (argumentNames count) m'.store place)).bindings
        entry.1).get? closureParam = some x → IsPlain x.value) := by
    intro entry hentry
    obtain rfl := List.mem_singleton.mp hentry
    obtain ⟨x, hx, hplain'⟩ := hclosure
    exact ⟨Fields.exists_get?_iff_mem_keys.mp ⟨x, hx⟩, fun _ y hy =>
      Option.some.inj (hx.symm.trans hy) ▸ hplain'⟩
  exact .ok rfl (run_bindArray (argumentNames count) place) (W.le_addBound _)
    (hrel.withStores (W.le_addBound _) (hstore.addBound hbound)) (Machine.stays_of_adapter rfl rfl)
    ⟨⟨rfl, fun n hn => htraces n (.inr hn)⟩, rfl⟩

/-- A function takes its closure record and the traces of its arguments from the recorder. -/
theorem sim_takeArguments (h : Equipped P W m env' call' m') (hopen : P.strict → m'.frames ≠ [])
    (hfresh : env'.own ∉ W.blocks) (hlt : env'.own < m'.store.scopes.size) {count : Nat}
    (hcount : count ≤ Recorder.maxArity) :
    let value := traceExpr standard "traceFunctionBody"
      [.text standard.options.returnLabel, .num (Numeric.Binary64.ofNat count)]
    Sim P W m m' (pure ())
      ((Stmt.declare .none .ofLet [(.array (argumentNames count), some value)]).exec call' env')
      fun W' _ flow n' => flow = .next ∧ Taken P env' (argumentNames count) W W' n' ∧
        (P.strict → Opens (.label standard.options.returnLabel) m'.frames n'.frames) := by
  intro value
  have hargs : Gives call' env' m'
      [.text standard.options.returnLabel, .num (Numeric.Binary64.ofNat count)]
      [.string standard.options.returnLabel, .number (Numeric.Binary64.ofNat count)] m' :=
    gives_text (gives_cons rfl (.refl m') gives_nil)
  have hop : Operation.ofArguments ⟨"traceFunctionBody", [.string standard.options.returnLabel,
      .number (Numeric.Binary64.ofNat count)], m'.store⟩ =
      .ok (.enterBody standard.options.returnLabel count) :=
    congrArg (Operation.enterBody standard.options.returnLabel <$> ·)
      (arity_ofNat hcount _ m'.store)
  have hvalue := sim_traceExpr h (by decide) (by decide) hargs hop nofun (fun _ => rfl)
    fun hstrict => Operation.leads_enterBody (hopen hstrict) hcount
  have hbound : Sim P W m m' (pure ()) (Stmt.execDeclarators call' env' .ofLet
      [(.array (argumentNames count), some value)]) fun W' _ _ n' =>
        Taken P env' (argumentNames count) W W' n' ∧
          (P.strict → Opens (.label standard.options.returnLabel) m'.frames n'.frames) := by
    refine Sim.after hvalue ?_
    rintro _ _ n' _ v - hrel - ⟨⟨rfl, hgrows, hframes⟩, out, hgives, hanswers⟩
    obtain ⟨ts, rfl, hlength⟩ := Operation.gives_enterBody hgives
    obtain ⟨place, rfl, hitems, hplain⟩ := hanswers ts rfl
    refine (sim_bindArguments hrel hfresh (Nat.lt_of_lt_of_le hlt hgrows.scopes) hitems hplain
      hlength).after fun _ hrel' _ ⟨htaken, hadapter⟩ => ?_
    exact .pure hrel' ⟨htaken, fun hstrict => Machine.frames_of_adapter hadapter ▸ hframes hstrict⟩
  exact Sim.after hbound fun _ hrel _ htaken => .pure hrel ⟨rfl, htaken⟩

/-- The parameters of a function are recorded with the traces of the arguments. -/
theorem sim_traceParams {params : List (String × String)} (h : Equipped P W m env' call' m')
    (hopen : P.strict → m'.frames ≠ [])
    (hparams : ∀ param ∈ params, HasTrace m'.store env'.own param.2) {rest : List Stmt}
    {x : Running Flow} {R : World → Flow → Flow → Machine → Prop}
    (hrest : ∀ {n'}, MachineRel P W m n' → (P.strict → Advances m'.frames n'.frames) →
      Sim P W m n' x (Stmt.execList call' env' rest) R) :
    Sim P W m m' x (Stmt.execList call' env'
      (params.map (fun param => traceLet standard param.1 (.ident param.2)) ++ rest)) R := by
  induction params generalizing m' with
  | nil => exact hrest h.rel fun hstrict => .refl (hopen hstrict)
  | cons param params ih =>
      obtain ⟨⟨y, hy, hplain⟩, hparams⟩ := List.forall_mem_cons.mp hparams
      have hbuilds : Builds call' env' m' (.ident param.2) := by
        refine ⟨y.value, m', run_readName ?_, .refl m', hplain⟩
        rw [Store.lookup?, Store.find?, hy]
        rfl
      refine sim_inserted_cons (sim_traceLet h hopen param.1 hbuilds) fun hrel hgrows hframes => ?_
      refine ih ⟨hrel, h.ready, h.home, h.applies⟩ (fun hstrict => (hframes hstrict).ne_nil)
        (fun other hother => ?_) fun hrel' hframes' => hrest hrel' fun hstrict =>
          (hframes hstrict).trans (hframes' hstrict)
      obtain ⟨z, hz, hplain'⟩ := hparams other hother
      exact ⟨z, (congrArg _ (hgrows.bindings _)).trans hz, hplain'⟩

/-! ## Bodies -/

/-- Bodies end alike: behind their last statement or with corresponding results. -/
inductive Finishes (P : Expectation) (W : World) : Flow → Flow → Prop
  | next : Finishes P W .next .next
  | returnWith {v v' : Value} (hv : ValueRel P W v v') :
      Finishes P W (.returnWith v) (.returnWith v')

theorem prologue_no_function (params : List String) :
    ∀ s ∈ prologue standard params, s.isFunction = false := by
  intro s hs
  rcases List.mem_cons.mp hs with rfl | hmem
  · rfl
  · obtain ⟨param, -, rfl⟩ := List.mem_map.mp hmem
    rfl

theorem hoist_wovenClosure (env : Environment) (params : List String) (out : List Stmt) :
    hoist env (prologue standard params ++ out ++ [exitBlock standard]) = hoist env out := by
  rw [hoist_append_exitBlock, hoist_append_of_no_function (prologue_no_function params)]

theorem HasClosure.of_mem (h : (env'.own, closureParam) ∈ W.bound) : HasClosure W env' :=
  ⟨[], env'.own, env'.outer, rfl, nofun, h⟩

theorem openAt_functionBody (hF : P.strict → ∃ rest,
    Opens (.label standard.options.returnLabel) rest m'.frames) :
    OpenAt P .functionBody m'.frames where
  ne_nil hstrict := (hF hstrict).elim fun _ h => h.ne_nil
  labels _ label hlabel := absurd hlabel List.not_mem_nil
  body hstrict _ := by
    obtain ⟨_, hopens⟩ := hF hstrict
    obtain ⟨rest, hrest, -⟩ := hopens.unwind_self
    rw [hrest, Option.isSome_some]

/-- A body that was woven does what the body does, and leaves the recorder where it was. -/
theorem sim_body (hcalls : CallsAlike P call call') (hrel : MachineRel P W m m') (hW : W.Ready)
    (henv : EnvRel W env env') (hopen : P.strict → m'.frames ≠ []) (hfresh : env'.own ∉ W.blocks)
    {params : List String} {body body' : List Stmt} (hfits : P.FitsFunction params body)
    (hwoven : WovenClosure params body body') :
    Sim P W m m' (Stmt.execBlock call env body) (Stmt.execBlock call' env' body')
      fun W' flow flow' n' =>
        Finishes P W' flow flow' ∧ (P.strict → Advances m'.frames n'.frames) := by
  obtain ⟨hbinds, -, hweaves⟩ := hwoven
  rename_i pos out inner bound
  unfold Stmt.execBlock
  rw [hoist_wovenClosure]
  refine (sim_hoist hweaves hfits.body hrel henv).bind
    fun {W₁ n n' _ _} hle hrel₁ _ ⟨hhoisted, hblocks⟩ => ?_
  have hframes₁ := Machine.frames_of_adapter hhoisted.adapter
  rw [← hframes₁] at hopen ⊢
  have henv₁ := henv.mono hle
  have hequipped : Equipped P W₁ n env' call' n' :=
    ⟨hrel₁, hW.mono hle, henv₁.home, hcalls.applies⟩
  have hlt : env'.own < n'.store.scopes.size :=
    hrel₁.store.scopes.lt_right (List.forall₂_cons.mp henv₁.scopes).1
  rw [List.append_assoc, prologue, List.cons_append, execList_cons]
  refine (sim_takeArguments hequipped hopen (hblocks ▸ hfresh) hlt hfits.arity).before ?_
  rintro _ k' _ - hrel₂ - ⟨rfl, ⟨rfl, htraces⟩, hopens⟩
  have hle₂ := World.le_trans hle (W₁.le_addBound [(env'.own, closureParam)])
  have hequipped₂ : Equipped P (W₁.addBound [(env'.own, closureParam)]) n env' call' k' :=
    ⟨hrel₂, hW.mono hle₂, henv₁.home, hcalls.applies⟩
  refine sim_traceParams hequipped₂ (fun hstrict => (hopens hstrict).ne_nil)
    (fun param hparam => ?_) fun {l'} hrel₃ hframes₃ => ?_
  · exact htraces _ (List.mem_cons_of_mem _ (List.of_mem_zip hparam).2)
  have hopens₃ (hstrict : P.strict) : Opens (.label standard.options.returnLabel) n'.frames l'.frames :=
    (hopens hstrict).advances (hframes₃ hstrict)
  have hpoised : Poised P (W₁.addBound [(env'.own, closureParam)]) n l' env env' call call'
      .functionBody :=
    ⟨hrel₃, hW.mono hle₂, henv.mono hle₂, hcalls,
      openAt_functionBody fun hstrict => ⟨_, hopens₃ hstrict⟩⟩
  have hsees := Names.Sees.none.binds ((Names.binds_ofParams params pos).trans hbinds)
  rw [execList_append]
  refine (sim_stmts body hpoised hsees (by simp +contextual) hweaves hfits.body
    (.inl (.of_mem List.mem_cons_self))).after fun {W₄ l l'' flow flow'} hle₄ hrel₄ _ hflows => ?_
  cases hflows with
  | next hF =>
      have hequipped₄ : Equipped P W₄ l env' call' l'' :=
        ⟨hrel₄, hpoised.ready.mono hle₄, hle₄.home ▸ hpoised.env.home, hcalls.applies⟩
      exact sim_inserted_cons (sim_exitBlock hequipped₄ fun hstrict =>
        Operation.leads_exit ((hopens₃ hstrict).advances (hF hstrict)))
        fun hrel₅ _ hframes => .pure hrel₅ ⟨.next, hframes⟩
  | breakTo hlabel hF => exact absurd hlabel List.not_mem_nil
  | returnWith hplace hv hF =>
      refine .pure hrel₄ ⟨.returnWith hv, fun hstrict => ?_⟩
      obtain ⟨rest, hrest, hadvances⟩ := (hopens₃ hstrict).unwind_self
      exact Option.some.inj (hrest.symm.trans (hF hstrict)) ▸ hadvances

/-! ## Closures -/

theorem CallsAlike.of_entersAlike {enter enter' : Value → Closure → List Value → Running Value}
    (h : EntersAlike P enter enter') :
    CallsAlike P (fun callee => apply enter (some callee))
      (fun callee => apply enter' (some callee)) where
  applies := applies_apply enter'
  sim hrel hW hopen hcallee hv hvs := sim_apply h hrel hW hopen hcallee hv hvs

/-- Closures are entered alike however deep calls may nest. -/
theorem entersAlike (limit depth : Nat) :
    EntersAlike P (enterClosure limit depth) (enterClosure limit depth) := by
  induction depth with
  | zero => exact fun hrel _ _ _ _ _ => .throw hrel nofun
  | succ depth ih =>
      intro W m m' i j c c' vs ws hrel hW hopen hi hc hvs
      refine (sim_openBody hrel hi hc hvs).bind
        fun {W₁ n n' inner inner'} hle hrel₁ _ ⟨hinner, hadapter, hfresh⟩ => ?_
      have hframes := Machine.frames_of_adapter hadapter
      rw [← hframes] at hopen
      refine (sim_body (.of_entersAlike ih) hrel₁ (hW.mono hle) hinner hopen hfresh hc.fits
        hc.woven).bind ?_
      rintro W₂ l l' flow flow' - hrel₂ - ⟨hfinishes, hframes₂⟩
      rw [hframes] at hframes₂
      cases hfinishes with
      | next => exact .pure hrel₂ ⟨.undefined, hframes₂⟩
      | returnWith hv => exact .pure hrel₂ ⟨hv, hframes₂⟩

/-- Functions are called alike from outside of any function. -/
theorem sim_callFrom (hrel : MachineRel P W m m') (hW : W.Ready)
    (hopen : P.strict → m'.frames ≠ []) {callee : Option Expr}
    (hcallee : isInserted callee = false) {v v' : Value} (hv : ValueRel P W v v')
    {vs ws : List Value} (hvs : List.Forall₂ (ValueRel P W) vs ws) :
    Sim P W m m' (callFrom callee v vs) (callFrom callee v' ws) (Returned P m') := by
  refine .get_bind ?_
  dsimp only
  rw [hrel.config]
  exact sim_apply (entersAlike _ _) hrel hW hopen hcallee hv hvs

theorem callsAlike_callFrom :
    CallsAlike P (fun callee => callFrom (some callee)) (fun callee => callFrom (some callee)) where
  applies := applies_callFrom
  sim hrel hW hopen hcallee hv hvs := sim_callFrom hrel hW hopen hcallee hv hvs

end TraceLoom
