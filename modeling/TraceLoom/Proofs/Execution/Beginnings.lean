import TraceLoom.Proofs.Execution.Delivery
import TraceLoom.Proofs.Execution.Tracing

/-!
How instrumented programs begin.  With new variables, they hoist their functions and get their
modules, and from then on stay within the realm of the program.
-/

namespace TraceLoom

open Script Instrument Running

/-! ## Hoisting -/

/-- What hoisting leaves under a name: the last function of that name, or else what was there. -/
def Hoists (env : Environment) (body : List Stmt) (fs gs : Fields Variable) (n : String) : Prop :=
  (gs.get? n = fs.get? n ∧ ∀ pos params fbody, Stmt.function pos n params fbody ∉ body) ∨
    ∃ i pos params fbody, Stmt.function pos n params fbody ∈ body ∧
      gs.get? n = some ⟨.function i ⟨some n, params, fbody, env, false⟩, false⟩

/-- Hoisting among the variables of a program. -/
theorem exists_hoist (env : Environment) (henv : env.own = 0) (body : List Stmt) {s : Store}
    {fs : Fields Variable} (hs : s.scopes = #[fs]) (hkeys : fs.keys.Nodup) :
    ∃ t gs, (∀ m : Machine, m.store = s → m.run (hoist env body) = (.ok ⟨⟩, { m with store := t })) ∧
      t.arrays = s.arrays ∧ t.objects = s.objects ∧ t.scopes = #[gs] ∧ gs.keys.Nodup ∧
      ∀ n, Hoists env body fs gs n := by
  induction body generalizing s fs with
  | nil => exact ⟨s, fs, fun m hm => by subst hm; rfl, rfl, rfl, hs, hkeys, fun n =>
      .inl ⟨rfl, fun _ _ _ => List.not_mem_nil⟩⟩
  | cons first body ih =>
      by_cases hfirst : ∃ pos name params fbody, first = .function pos name params fbody
      · obtain ⟨pos, name, params, fbody, rfl⟩ := hfirst
        have hscopes : ((s.newFunction ⟨some name, params, fbody, env, false⟩).2.declare env name
            (s.newFunction ⟨some name, params, fbody, env, false⟩).1 false).scopes =
            #[fs.insert name ⟨(s.newFunction ⟨some name, params, fbody, env, false⟩).1, false⟩] := by
          change s.scopes.modify env.own _ = _
          rw [hs, henv]
          rfl
        obtain ⟨t, gs, hrun, harrays, hobjects, ht, hgs, hhoists⟩ :=
          ih hscopes (Fields.nodup_insert _ _ hkeys)
        refine ⟨t, gs, fun m hm => ?_, harrays, hobjects, ht, hgs, fun n => ?_⟩
        · subst hm
          exact hrun { m with store := _ } rfl
        · rcases hhoists n with ⟨hget, hnone⟩ | ⟨i, pos', params', fbody', hmem, hget⟩
          · by_cases hn : n = name
            · subst hn
              rw [Fields.get?_insert_self] at hget
              exact .inr ⟨_, pos, params, fbody, List.mem_cons_self, hget⟩
            · rw [Fields.get?_insert_of_ne hn] at hget
              refine .inl ⟨hget, fun pos' params' fbody' hmem => ?_⟩
              rcases List.mem_cons.mp hmem with heq | hmem
              · cases heq
                exact hn rfl
              · exact hnone _ _ _ hmem
          · exact .inr ⟨i, pos', params', fbody', List.mem_cons_of_mem _ hmem, hget⟩
      · obtain ⟨t, gs, hrun, harrays, hobjects, ht, hgs, hhoists⟩ := ih hs hkeys
        refine ⟨t, gs, fun m hm => ?_, harrays, hobjects, ht, hgs, fun n => ?_⟩
        · rw [← hrun m hm]
          cases first with
          | function pos name params fbody => exact absurd ⟨_, _, _, _, rfl⟩ hfirst
          | _ => rfl
        · refine (hhoists n).imp (fun ⟨hget, hnone⟩ => ⟨hget, fun pos params fbody hmem => ?_⟩)
            fun ⟨i, pos, params, fbody, hmem, hget⟩ =>
              ⟨i, pos, params, fbody, List.mem_cons_of_mem _ hmem, hget⟩
          rcases List.mem_cons.mp hmem with heq | hmem
          · exact hfirst ⟨_, _, _, _, heq.symm⟩
          · exact hnone _ _ _ hmem

theorem Hoists.binds {R : Realm} {env : Environment} {body : List Stmt} {fs gs : Fields Variable}
    {n : String} (h : Hoists env body fs gs n) (hbody : Stmt.ProperList R.vocabulary body)
    (hfs : ∀ x, fs.get? n = some x → R.Binds n x.value) {x : Variable} (hx : gs.get? n = some x) :
    R.Binds n x.value := by
  rcases h with ⟨hget, -⟩ | ⟨i, pos, params, fbody, hmem, hget⟩
  · exact hfs x (hget ▸ hx)
  · obtain rfl := Option.some.inj (hget.symm.trans hx)
    obtain ⟨hself, hparams, hfbody⟩ :=
      (Stmt.properList_iff.mp hbody _ hmem).resolve_left R.vocabulary.not_function
    exact Realm.binds_self hself ⟨fun h => absurd h Bool.false_ne_true, hparams, hfbody⟩

/-! ## Modules -/

/-- The console, which is the only object at first. -/
def consoleFields : Fields Value :=
  [("log", .native (.console "log")), ("error", .native (.console "error"))]

/-- The names that every program has. -/
def globalFields : Fields Variable :=
  [("undefined", ⟨.undefined, true⟩), ("require", ⟨.native .require, true⟩),
    ("console", ⟨.object 0, true⟩)]

theorem newGlobals_empty :
    Store.empty.newGlobals = (⟨0, []⟩, ⟨#[], #[consoleFields], #[globalFields], 0⟩) :=
  rfl

theorem binds_globals {identity : Nat} : ∀ {field : String × Variable}, field ∈ globalFields →
    (Realm.instrumented identity).Binds field.1 field.2.value := by
  have hown {n : String} {v : Value} (hreserved : standard.options.isReserved n = false)
      (hhead : n.toList.head? ≠ some '$') (hv : v.Reaches (.instrumented identity)) :
      (Realm.instrumented identity).Binds n v :=
    Realm.binds_own (not_hidden hreserved hhead) hv
  intro field hfield
  simp only [globalFields, List.mem_cons, List.not_mem_nil, or_false] at hfield
  rcases hfield with rfl | rfl | rfl
  · exact hown (by decide) (by decide) trivial
  · exact hown (by decide) (by decide) trivial
  · exact hown (by decide) (by decide) rfl

/-- A store in which an instrumented program has its modules. -/
def Store.withModules (env : Environment) (s : Store) : Store :=
  let s := s.newBuilderModule.2.declare env standard.options.expBinding s.newBuilderModule.1 false
  s.newCallbacksModule.2.declare env standard.options.callbacksBinding s.newCallbacksModule.1 false

theorem reaches_withModules {env : Environment} (henv : env.own = 0) {s : Store}
    (harrays : s.arrays = #[]) (hobjects : s.objects = #[consoleFields]) {gs : Fields Variable}
    (hscopes : s.scopes = #[gs])
    (hgs : ∀ field ∈ gs, (Realm.instrumented s.identities).Binds field.1 field.2.value) :
    (s.withModules env).Reaches (.instrumented s.identities) := by
  obtain ⟨own, outer⟩ := env
  obtain ⟨arrays, objects, scopes, identities⟩ := s
  subst henv harrays hobjects hscopes
  have hobjects (place : Nat) (hplace : modulesKept identities place = none) :
      ∀ field ∈ (Store.withModules ⟨0, outer⟩ ⟨#[], #[consoleFields], #[gs], identities⟩).properties
        place, field.2.Reaches (.instrumented identities) := by
    match place with
    | 0 =>
      change ∀ field ∈ consoleFields, _
      exact List.forall_mem_cons.mpr ⟨trivial, List.forall_mem_singleton.mpr trivial⟩
    | 1 | 2 | 3 => cases hplace
    | place + 4 => exact List.forall_mem_nil _
  have hkept (place : Nat) (fields : Fields Value)
      (hplace : modulesKept identities place = some fields) :
      (Store.withModules ⟨0, outer⟩ ⟨#[], #[consoleFields], #[gs], identities⟩).objects[place]? =
        some fields := by
    match place with
    | 0 => cases hplace
    | 1 | 2 | 3 =>
      cases hplace
      rfl
    | place + 4 => cases hplace
  have hscope : ∀ field ∈ (gs.insert standard.options.expBinding ⟨.object builderPlace, false⟩).insert
      standard.options.callbacksBinding ⟨.object callbacksPlace, false⟩,
      (Realm.instrumented identities).Binds field.1 field.2.value := by
    have hexp : Holds standard.options.expBinding (.object builderPlace) :=
      ⟨fun _ => rfl, fun heq => absurd heq (by decide), fun h => absurd rfl (h.ne (by decide))⟩
    have hcallbacks : Holds standard.options.callbacksBinding (.object callbacksPlace) :=
      ⟨fun heq => absurd heq (by decide), fun _ => rfl, fun h => absurd rfl (h.ne (by decide))⟩
    exact Fields.forall_insert_named
      (p := fun n (x : Variable) => (Realm.instrumented identities).Binds n x.value)
      (Realm.binds_hidden (not_own_of_isReserved (by decide)) hcallbacks)
      (Fields.forall_insert_named
        (p := fun n (x : Variable) => (Realm.instrumented identities).Binds n x.value)
        (Realm.binds_hidden (not_own_of_isReserved (by decide)) hexp) hgs)
  exact ⟨fun items hitems => absurd hitems (Array.not_mem_empty items), hobjects, hkept,
    fun fields hfields => by obtain rfl := Array.mem_singleton.mp hfields; exact hscope⟩

theorem lookup?_withModules {env : Environment} (henv : env.own = 0) {s : Store}
    (hobjects : s.objects = #[consoleFields]) {gs : Fields Variable} (hscopes : s.scopes = #[gs]) :
    (s.withModules env).lookup? env standard.options.callbacksBinding =
      some (.object callbacksPlace) := by
  obtain ⟨own, outer⟩ := env
  obtain ⟨arrays, objects, scopes, identities⟩ := s
  subst henv hobjects hscopes
  have hget : ((Store.withModules ⟨0, outer⟩ ⟨arrays, #[consoleFields], #[gs], identities⟩).bindings 0).get?
      standard.options.callbacksBinding = some ⟨.object callbacksPlace, false⟩ :=
    Fields.get?_insert_self ..
  rw [Store.lookup?, Store.find?, hget]
  rfl

end TraceLoom
