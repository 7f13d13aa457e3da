import TraceLoom.Proofs.Execution.Bodies
import TraceLoom.Proofs.Instrument.Accepted

/-!
Whole programs.  An instrumented program first gets its modules and starts its trace; then it does
what the program does, and so do the callbacks that were queued and the requests that come in.
-/

namespace TraceLoom

open Script Instrument Running

variable {P : Expectation} {W W' : World} {m m' n n' : Machine} {env env' : Environment}
  {call call' : Expr → Value → List Value → Running Value}

/-! ## New machines -/

/-- Nothing has a counterpart yet. -/
def World.empty : World :=
  ⟨[], [], [], [], [], [], 0, []⟩

theorem not_hidden {n : String} (hreserved : standard.options.isReserved n = false)
    (hhead : n.toList.head? ≠ some '$') : ¬ Hidden n := by
  rintro (h | h)
  · simp [h] at hreserved
  · exact hhead h.head?_eq

theorem StoreRel.empty : StoreRel P World.empty Store.empty Store.empty where
  arrays := ⟨rfl, List.nodup_nil, nofun⟩
  objects := ⟨rfl, List.nodup_nil, nofun⟩
  scopes := ⟨rfl, List.nodup_nil, nofun⟩
  identities := ⟨rfl, List.nodup_nil, nofun⟩
  items hab := by cases hab
  properties hab := by cases hab
  bindings hab := by cases hab
  furnished := by
    have hnone {scope : ScopeId} {n : String} {x : Variable} :
        (Store.empty.bindings scope).get? n ≠ some x := by
      simp [Store.bindings, Store.empty, Fields.get?]
    refine ⟨fun hx => absurd hx hnone, fun hx => absurd hx hnone, ?_, ?_, ?_⟩ <;>
      exact fun hmem => absurd hmem List.not_mem_nil

/-- The names that every program has correspond. -/
theorem StoreRel.newGlobals {s t : Store} (h : StoreRel P W s t) :
    StoreRel P ((W.addScope t.scopes.size).addObject t.objects.size) s.newGlobals.2
      t.newGlobals.2 := by
  have hscope : (W.addScope t.scopes.size).scopes[s.scopes.size]? = some t.scopes.size :=
    h.scopes.getElem?_push
  have hundefined : VariableRel P (W.addScope t.scopes.size) ⟨.undefined, true⟩ ⟨.undefined, true⟩ :=
    ⟨.undefined, rfl⟩
  have hrequire : VariableRel P (W.addScope t.scopes.size) ⟨.native .require, true⟩
      ⟨.native .require, true⟩ := ⟨.native .require, rfl⟩
  have hstore := ((h.child ⟨0, []⟩ ⟨0, []⟩).write hscope
    (not_hidden (n := "undefined") (by decide) (by decide)) hundefined).write hscope
    (not_hidden (n := "require") (by decide) (by decide)) hrequire
  have hfields : FieldsRel P (W.addScope t.scopes.size)
      [("log", .native (.console "log")), ("error", .native (.console "error"))]
      [("log", .native (.console "log")), ("error", .native (.console "error"))] :=
    .cons ⟨rfl, .native _⟩ (.cons ⟨rfl, .native _⟩ .nil)
  obtain ⟨hconsole, hv⟩ := hstore.newObject hfields
  exact hconsole.write hscope (not_hidden (n := "console") (by decide) (by decide)) ⟨hv, rfl⟩

theorem plainPending_new : Recorder.new.PlainPending := by
  intro entry hentry
  obtain rfl := List.mem_singleton.mp hentry
  exact fun _ hargs => absurd hargs List.not_mem_nil

/-- The machine of a program, and that of the instrumented program. -/
theorem machineRel_new (P : Expectation) {config : Config}
    (hconfig : config.instrument = standard.options) (network : Network) :
    MachineRel P ((World.empty.addScope 0).addObject 0) (Machine.new config (.new none network))
      { Machine.new config (.new (some .new) network) with gate := recorderGate P.refusal } where
  config := rfl
  options := hconfig
  gate := rfl
  gate' := rfl
  adapter := rfl
  tracks := ⟨.new, rfl, Recorder.sound_new, plainPending_new, List.nodup_nil, List.not_mem_nil, nofun⟩
  store := StoreRel.empty.newGlobals
  globals := ⟨.cons rfl .nil, List.mem_singleton_self _⟩
  home := rfl
  output := rfl
  tasks := .nil
  listener := .none

/-! ## Modules -/

theorem run_importModule (hoptions : m'.config.instrument = standard.options) :
    m'.run (Native.importModule standard.options.expModule) =
        m'.run (make Store.newBuilderModule) ∧
      m'.run (Native.importModule standard.options.callbacksModule) =
        m'.run (make Store.newCallbacksModule) := by
  have hget {α : Type} (f : Machine → Running α) : m'.run (get >>= f) = m'.run (f m') :=
    m'.run_bind get f
  constructor
  · rw [Native.importModule, hget, hoptions, if_pos rfl]
  · rw [Native.importModule, hget, hoptions, if_neg (by decide), if_pos rfl]

/-- A declaration binds a new module. -/
theorem run_import (happlies : Applies call')
    (hgate : ∀ callee args s, m'.gate callee (.native .require) args s = .ok ())
    (hrequire : m'.store.lookup? env' "require" = some (.native .require)) {binding path : String}
    {pos cpos npos spos : Position} {f : Store → Value × Store}
    (himport : m'.run (Native.importModule path) = m'.run (make f)) :
    m'.run ((Stmt.declare pos .ofLet [(.name binding,
        some (.call cpos (.name npos "require") [.string spos path]))]).exec call' env') =
      (.ok .next, { m' with
        store := (f m'.store).2.declare env' binding (f m'.store).1 false }) := by
  have hcall : m'.run (call' (.name npos "require") (.native .require) [.string path]) =
      (.ok (f m'.store).1, { m' with store := (f m'.store).2 }) := by
    obtain ⟨enter, hcall⟩ := happlies m' (.name npos "require") (.native .require) [.string path]
    have hargument : m'.run (Native.perform .require [.string path]) =
        m'.run (Native.importModule path >>= fun v => return .value v) := rfl
    rw [hcall, run_apply_native (hgate ..), Machine.run_bind, hargument,
      Machine.run_bind, himport, Machine.run_make]
    rfl
  change m'.run (((readName env' "require" >>= fun v => do
    let vs ← Expr.evalList call' env' [.string spos path]
    callFunction call' (.name npos "require") v vs) >>= _) >>= _) = _
  have hvalues : m'.run (Expr.evalList call' env' [.string spos path]) = (.ok [.string path], m') := rfl
  rw [Machine.run_bind, Machine.run_bind, Machine.run_bind, run_readName hrequire]
  dsimp only
  rw [Machine.run_bind, hvalues]
  dsimp only
  rw [callFunction, if_pos (show Value.isCallable (.native .require) = true from rfl), hcall]
  rfl

theorem get?_declare_self {s : Store} (h : env'.own < s.scopes.size) (name : String) (v : Value) :
    ((s.declare env' name v false).bindings env'.own).get? name = some ⟨v, false⟩ := by
  rw [Store.declare, get?_bindings_write, if_pos ⟨rfl, h, rfl⟩]

/-- What another variable is bound to stays when something is declared. -/
theorem lookup?_declare_of_ne {s t : Store} (hgrows : s.Grows t) {name other : String}
    (hne : other ≠ name) (v : Value) :
    (t.declare env' name v false).lookup? env other = s.lookup? env other := by
  rw [Store.lookup?, Store.lookup?, find?_congr fun scope _ => ?_]
  rw [Store.declare, get?_bindings_write, if_neg fun hcond => hne hcond.2.2, hgrows.bindings]

/-- After an inserted declaration of a module the machines still correspond. -/
theorem bindsModule (happlies : Applies call') (hrel : MachineRel P W m m')
    (hrequire : m'.store.lookup? m'.globals "require" = some (.native .require))
    {binding path : String} (hne : binding ≠ "require") (hclosure : binding ≠ closureParam)
    (hhidden : Hidden binding) {f : Store → Value × Store}
    (himport : m'.run (Native.importModule path) = m'.run (make f))
    (hgrows : m'.store.Grows (f m'.store).2)
    (hfurnishing : Furnishing W (f m'.store).2 m'.globals.own binding (f m'.store).1) :
    ∃ s, MachineRel P (W.addBound [(W.home, binding)]) m { m' with store := s } ∧
      s.lookup? m'.globals "require" = some (.native .require) ∧
      m'.run ((requireModule binding path).exec call' m'.globals) =
        (.ok .next, { m' with store := s }) := by
  have hlt : m'.globals.own < (f m'.store).2.scopes.size := Nat.lt_of_lt_of_le
    (hrel.store.scopes.lt_right (List.forall₂_cons.mp hrel.globals.scopes).1) hgrows.scopes
  have hbound : ∀ entry ∈ [(W.home, binding)], entry.2 ∈ Fields.keys
      (((f m'.store).2.declare m'.globals binding (f m'.store).1 false).bindings entry.1) ∧
      (entry.2 = closureParam → ∀ x, (((f m'.store).2.declare m'.globals binding
        (f m'.store).1 false).bindings entry.1).get? closureParam = some x → IsPlain x.value) := by
    intro entry hentry
    obtain rfl := List.mem_singleton.mp hentry
    rw [← hrel.home]
    exact ⟨Fields.exists_get?_iff_mem_keys.mp ⟨_, get?_declare_self hlt _ _⟩,
      fun heq => absurd heq hclosure⟩
  have hstore : StoreRel P W m.store
      ((f m'.store).2.declare m'.globals binding (f m'.store).1 false) :=
    (hrel.store.grow_right hgrows).write_right hhidden hfurnishing
  exact ⟨_, hrel.withStores (W.le_addBound _) (hstore.addBound hbound),
    (lookup?_declare_of_ne hgrows hne.symm _).trans hrequire,
    run_import happlies (fun _ _ _ => by rw [hrel.gate']; rfl) hrequire himport⟩

/-- An instrumented program begins with its modules. -/
def modules : List Stmt :=
  [requireModule standard.options.expBinding standard.options.expModule,
    requireModule standard.options.callbacksBinding standard.options.callbacksModule]

/-- When its modules are bound, an instrumented program can record. -/
theorem bindsModules (happlies : Applies call') (hrel : MachineRel P W m m')
    (hrequire : m'.store.lookup? m'.globals "require" = some (.native .require))
    (rest : List Stmt) :
    ∃ W₁ s, W ≤ W₁ ∧ W₁.Ready ∧ MachineRel P W₁ m { m' with store := s } ∧
      m'.run (Stmt.execList call' m'.globals (modules ++ rest)) =
        Machine.run { m' with store := s } (Stmt.execList call' m'.globals rest) := by
  obtain ⟨hgrows, hbuilder⟩ := hrel.store.newBuilderModule_right
  obtain ⟨s, hrel₁, hrequire₁, hrun⟩ := bindsModule happlies hrel hrequire (by decide) (by decide)
    hidden_expBinding (run_importModule (hrel.config ▸ hrel.options)).1 hgrows
    ⟨fun _ => hbuilder, fun heq => absurd heq (by decide), fun heq => absurd heq (by decide)⟩
  obtain ⟨hgrows₁, hcallbacks⟩ := hrel₁.store.newCallbacksModule_right
  obtain ⟨t, hrel₂, -, hrun₁⟩ := bindsModule happlies hrel₁ hrequire₁ (by decide) (by decide)
    hidden_callbacksBinding (run_importModule (hrel₁.config ▸ hrel₁.options)).2 hgrows₁
    ⟨fun heq => absurd heq (by decide), fun _ => hcallbacks, fun heq => absurd heq (by decide)⟩
  refine ⟨_, t, World.le_trans (W.le_addBound _) (World.le_addBound _ _), ?_, hrel₂, ?_⟩
  · exact ⟨List.mem_append_right _ List.mem_cons_self, List.mem_cons_self⟩
  · rw [modules, List.cons_append, List.cons_append, List.nil_append, execList_cons,
      Machine.run_bind, hrun]
    dsimp only
    rw [execList_cons, Machine.run_bind, hrun₁]

/-! ## The statements of a program -/

theorem run_hoist (env : Environment) (ss : List Stmt) :
    ∃ s, m.run (hoist env ss) = (.ok ⟨⟩, { m with store := s }) := by
  induction ss generalizing m with
  | nil => exact ⟨m.store, rfl⟩
  | cons s ss ih =>
      cases s with
      | function => exact ih
      | _ => exact ih

/-- A program uses its own variables only, and those of the host. -/
theorem seen_top {p : Program} {bound : Names} (hbinds : Names.none.Binds (declaredIn p) bound)
    {out : List Stmt} (hweaves : Weaves (stmts standard .top p) bound out ν')
    (hcaptures : ν'.captures = []) : Seen W env' bound (Stmt.freeNamesList Option.toList p) := by
  refine .inr fun x hx hmay => ?_
  rw [hbinds.lookup, if_pos]
  exact mem_declaredIn_of_captures rfl rfl hbinds hweaves hcaptures hx hmay

theorem openAt_top (hopen : P.strict → m'.frames ≠ []) : OpenAt P .top m'.frames where
  ne_nil := hopen
  labels _ _ hlabel := absurd hlabel List.not_mem_nil
  body _ hplace := by cases hplace

/-- A program and what is woven of it do the same, once the modules are bound. -/
theorem sim_top {p : Program} {bound : Names} {out : List Stmt} (hrel : MachineRel P W m m')
    (hW : W.Ready) (henv : EnvRel W env env') (hfits : P.Fits p)
    (hbinds : Names.none.Binds (declaredIn p) bound)
    (hweaves : Weaves (stmts standard .top p) bound out ν') (hcaptures : ν'.captures = []) :
    Sim P W m m' (Stmt.execList (fun callee => callFrom (some callee)) env p)
      (Stmt.execList (fun callee => callFrom (some callee)) env'
        (traceCall standard "newTrace" [] :: (out ++ [exitBlock standard])))
      fun _ flow flow' _ => flow = .next ∧ flow' = .next := by
  have hcalls := callsAlike_callFrom (P := P)
  have hequipped : Equipped P W m env' (fun callee => callFrom (some callee)) m' :=
    ⟨hrel, hW, henv.home, hcalls.applies⟩
  refine sim_inserted_cons (sim_newTrace hequipped) fun {n'} hrel₁ _ hframes => ?_
  have hopen (hstrict : P.strict) : n'.frames ≠ [] := by
    obtain ⟨f, hf⟩ := hframes hstrict
    rw [hf]
    exact List.cons_ne_nil _ _
  have hpoised : Poised P W m n' env env' (fun callee => callFrom (some callee))
      (fun callee => callFrom (some callee)) .top :=
    ⟨hrel₁, hW, henv, hcalls, openAt_top hopen⟩
  rw [execList_append]
  refine (sim_stmts p hpoised (Names.Sees.none.binds hbinds) (fun _ => id) hweaves hfits
    (seen_top hbinds hweaves hcaptures)).after fun {W₂ l l' flow flow'} hle hrel₂ _ hflows => ?_
  cases hflows with
  | next hF =>
      have hequipped₂ : Equipped P W₂ l env' (fun callee => callFrom (some callee)) l' :=
        ⟨hrel₂, hW.mono hle, (henv.mono hle).home, hcalls.applies⟩
      exact sim_inserted_cons (sim_exitBlock hequipped₂ fun hstrict =>
        Operation.leads_exit_last (hF hstrict).ne_nil) fun hrel₃ _ _ => .pure hrel₃ ⟨rfl, rfl⟩
  | breakTo hlabel hF => exact absurd hlabel List.not_mem_nil
  | returnWith hplace hv hF => cases hplace

theorem hoist_program (env : Environment) (out : List Stmt) :
    hoist env (modules ++ (traceCall standard "newTrace" [] :: (out ++ [exitBlock standard]))) =
      hoist env out := by
  have hmodules : ∀ s ∈ modules ++ [traceCall standard "newTrace" []], s.isFunction = false := by
    simp [modules, requireModule, traceCall, Stmt.letNamed, Stmt.ofExpr, Stmt.isFunction]
  rw [← List.singleton_append, ← List.append_assoc, hoist_append_of_no_function hmodules,
    hoist_append_exitBlock]

/-- The statements of a program, and those of the instrumented program with its modules. -/
theorem sim_program {p q : Program} (hrel : MachineRel P W m m')
    (hrequire : m'.store.lookup? m'.globals "require" = some (.native .require))
    (hfits : P.Fits p) (hdeclared : "require" ∉ declaredIn p)
    (hinstrument : instrument .default .default p = .ok q) :
    ∃ W₁, W ≤ W₁ ∧ W₁.Ready ∧
      Sim P W₁ m m' (Stmt.execBlock (fun callee => callFrom (some callee)) m.globals p)
        (Stmt.execBlock (fun callee => callFrom (some callee)) m'.globals q)
        fun _ flow flow' _ => flow = .next ∧ flow' = .next := by
  obtain ⟨out, ν', ⟨hbinds, -, hweaves⟩, hcaptures, rfl⟩ := instrument_eq_ok hinstrument
  have hprogram : [requireModule standard.options.expBinding standard.options.expModule,
      requireModule standard.options.callbacksBinding standard.options.callbacksModule,
      traceCall standard "newTrace" []] ++ out ++ [exitBlock standard] =
      modules ++ (traceCall standard "newTrace" [] :: (out ++ [exitBlock standard])) := rfl
  obtain ⟨s, hs⟩ := run_hoist (m := m) m.globals p
  obtain ⟨t, ht⟩ := run_hoist (m := m') m'.globals out
  -- hoisting fails on neither side, so that both go on to their first statement
  obtain ⟨W₁, hle₁, hrel₁, hhoisted⟩ : ∃ W₁, W ≤ W₁ ∧
      MachineRel P W₁ { m with store := s } { m' with store := t } ∧
      Hoisted (declaredIn p) m' { m' with store := t } := by
    cases sim_hoist hweaves hfits hrel hrel.globals with
    | ok hx hy hle hrel₁ hstays h =>
        cases hs.symm.trans hx
        cases ht.symm.trans hy
        exact ⟨_, hle, hrel₁, h.1⟩
    | fail hx => cases hs.symm.trans hx
    | stop hy => cases ht.symm.trans hy
  have hrequire₁ : t.lookup? m'.globals "require" = some (.native .require) := by
    rw [← hrequire, Store.lookup?, Store.lookup?,
      find?_congr fun scope _ => hhoisted.bindings scope "require" hdeclared]
  obtain ⟨W₂, u, hle₂, hready, hrel₂, hmodules⟩ := bindsModules applies_callFrom hrel₁ hrequire₁
    (traceCall standard "newTrace" [] :: (out ++ [exitBlock standard]))
  refine ⟨W₂, World.le_trans hle₁ hle₂, hready, .of_stays ?_ ?_ ?_
    (sim_top hrel₂ hready hrel₂.globals hfits hbinds hweaves hcaptures)⟩
  · exact Machine.run_bind_of_ok hs _
  · rw [hprogram, Stmt.execBlock, hoist_program, Machine.run_bind, ht]
    exact hmodules
  · exact Machine.stays_of_adapter rfl rfl

end TraceLoom
