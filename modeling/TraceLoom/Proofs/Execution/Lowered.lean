import TraceLoom.Proofs.Execution.Simulation

/-!
What lowered expressions build.  Lowering turns an expression into calls of constructors, and
wherever the constructors are at hand these give the tree of the expression.  Nothing but values
is made on the way.
-/

namespace TraceLoom

open Script Running

/-! ## Trees of expressions -/

/-- Whether a name is bound in the function. -/
def Names.owns (ν : Names) (n : String) : Bool :=
  decide (ν.lookup n = some .own)

theorem Names.Uses.owns_eq {ν ν' : Names} {used : List String} (h : ν.Uses used ν') :
    ν'.owns = ν.owns :=
  funext fun _ => decide_eq_decide.mpr h.own_iff

namespace Lower

variable (l : Lower) (owns : String → Bool) (record : Trace)

/-- The tree of a name.  What a function captures stands in its closure record. -/
def nameTree (n : String) : Trace :=
  if n = "undefined" then .undefined
  else if l.primitives.isGlobal n || owns n then .name n
  else .captured record n

mutual

/-- The tree of an expression without calls, assignments and functions. -/
def tree? : Expr → Option Trace
  | .number _ x => some (.number x)
  | .string _ u => some (.string u)
  | .boolean _ b => some (.boolean b)
  | .name _ n => some (l.nameTree owns record n)
  | .array _ items => do return .array (← trees? items)
  | .object _ entries => do return .object (Fields.condensed (← fieldTrees? entries))
  | .member _ base property => do return .property (← tree? base) property
  | .index _ base key => do return .index (← tree? base) (← tree? key)
  | .unary _ op operand => do return .unary op (← tree? operand)
  | .binary _ op left right => do return .binary op (← tree? left) (← tree? right)
  | .null _ | .function .. | .call .. | .assign .. | .update .. => none
termination_by structural e => e

def trees? : List Expr → Option (List Trace)
  | [] => some []
  | e :: es => do return (← tree? e) :: (← trees? es)
termination_by structural es => es

def fieldTrees? : List (String × Expr) → Option (List (String × Trace))
  | [] => some []
  | (key, e) :: es => do return (key, ← tree? e) :: (← fieldTrees? es)
termination_by structural es => es

end

end Lower

/-! ## Calls of natives -/

variable {call : Expr → Value → List Value → Running Value} {env : Environment} {m n k : Machine}

theorem run_readName {x : String} {v : Value} (h : m.store.lookup? env x = some v) :
    m.run (readName env x) = (.ok v, m) := by
  rw [readName, Machine.run_read, h]

/-- A way of calling that applies what it is given. -/
def Applies (call : Expr → Value → List Value → Running Value) : Prop :=
  ∀ m callee function args, ∃ enter,
    Machine.run m (call callee function args) = m.run (apply enter (some callee) function args)

theorem applies_apply (enter : Value → Closure → List Value → Running Value) :
    Applies fun callee => apply enter (some callee) :=
  fun _ _ _ _ => ⟨enter, rfl⟩

theorem applies_callFrom : Applies fun callee => callFrom (some callee) :=
  fun m _ _ _ => ⟨enterClosure m.config.maxCallDepth m.config.maxCallDepth, m.run_bind get _⟩

theorem run_apply_native {enter : Value → Closure → List Value → Running Value}
    {callee : Option Expr} {native : Native} {args : List Value}
    (hgate : m.gate callee (.native native) args m.store = .ok ()) :
    m.run (apply enter callee (.native native) args) = m.run (do
      match ← native.perform args with
      | .value v => return v
      | .answered registration callback answer => do
        fire registration none (applyWith enter (fun _ _ _ => return ()) none callback [answer])
        return .undefined) := by
  have hpermit : m.run (permit callee (.native native) args) = (.ok (), m) := by
    rw [Machine.run_permit, hgate]
  exact Machine.run_bind_of_ok hpermit _

theorem run_call_builder (happlies : Applies call) {callee : Expr} {name : String}
    {args : List Value} (hgate : m.gate (some callee) (.native (.builder name)) args m.store = .ok ()) :
    m.run (call callee (.native (.builder name)) args) = m.run (Native.build name args) := by
  obtain ⟨enter, hcall⟩ := happlies m callee (.native (.builder name)) args
  rw [hcall, run_apply_native hgate, Native.perform, bind_assoc]
  simp only [pure_bind, bind_pure]

theorem run_build {name : String} {args : List Value} (hname : name ≠ "froms") {t : Trace}
    (h : Builder.build ⟨name, args, m.store⟩ = .ok t) :
    m.run (Native.build name args) = m.run (make (Store.newTrace t)) := by
  rw [Native.build, Native.arguments]
  simp only [bind_assoc, pure_bind, if_neg hname]
  rw [Machine.run_bind, Machine.run_get]
  dsimp only
  rw [Machine.run_bind, Machine.run_ofExcept, h]

/-! ## Arguments -/

/-- Expressions give values, and only values are made. -/
def Gives (call : Expr → Value → List Value → Running Value) (env : Environment) (m : Machine)
    (es : List Expr) (vs : List Value) (n : Machine) : Prop :=
  m.run (Expr.evalList call env es) = (.ok vs, n) ∧ m.Quiet n

theorem gives_nil : Gives call env m [] [] m :=
  ⟨rfl, .refl m⟩

theorem gives_cons {e : Expr} {es : List Expr} {v : Value} {vs : List Value}
    (he : m.run (e.eval call env) = (.ok v, n)) (hquiet : m.Quiet n)
    (hes : Gives call env n es vs k) : Gives call env m (e :: es) (v :: vs) k := by
  refine ⟨?_, hquiet.trans hes.2⟩
  change m.run (Expr.eval call env e >>= _) = _
  rw [Machine.run_bind, he]
  dsimp only
  rw [Machine.run_bind, hes.1]
  rfl

theorem gives_text {text : String} {es : List Expr} {vs : List Value}
    (hes : Gives call env m es vs k) :
    Gives call env m (.text text :: es) (.string text :: vs) k :=
  gives_cons rfl (.refl m) hes

theorem run_list {items : List Expr} {values : List Value} (hitems : Gives call env m items values n) :
    m.run (Expr.eval call env (.list items)) =
      (.ok (.array n.store.arrays.size),
        { n with store := (n.store.newArray values.toArray).2 }) := by
  change m.run (Expr.evalList call env items >>= _) = _
  rw [Machine.run_bind, hitems.1]
  rfl

theorem gives_list {items : List Expr} {values : List Value}
    (hitems : Gives call env m items values n) :
    ∃ place k, Gives call env m [.list items] [.array place] k ∧
      (k.store.items place).toList = values := by
  refine ⟨_, _, gives_cons (run_list hitems)
    (hitems.2.trans (Machine.quiet_of_grows (.newArray values.toArray _))) gives_nil, ?_⟩
  rw [Store.items_newArray]

/-- Entries of a record give fields, and only values are made. -/
def GivesFields (call : Expr → Value → List Value → Running Value) (env : Environment) (m : Machine)
    (es : List (String × Expr)) (fs : List (String × Value)) (n : Machine) : Prop :=
  m.run (Expr.evalEntries call env es) = (.ok fs, n) ∧ m.Quiet n

theorem givesFields_cons {key : String} {e : Expr} {es : List (String × Expr)} {v : Value}
    {fs : List (String × Value)} (he : m.run (e.eval call env) = (.ok v, n)) (hquiet : m.Quiet n)
    (hes : GivesFields call env n es fs k) :
    GivesFields call env m ((key, e) :: es) ((key, v) :: fs) k := by
  refine ⟨?_, hquiet.trans hes.2⟩
  change m.run (Expr.eval call env e >>= _) = _
  rw [Machine.run_bind, he]
  dsimp only
  rw [Machine.run_bind, hes.1]
  rfl

theorem gives_record {entries : List (String × Expr)} {fs : List (String × Value)}
    (hentries : GivesFields call env m entries fs n) :
    ∃ place k, Gives call env m [.record entries] [.object place] k ∧
      k.store.properties place = .ofPairs fs := by
  have hrecord : m.run (Expr.eval call env (.record entries)) =
      (.ok (.object n.store.objects.size),
        { n with store := (n.store.newObject (.ofPairs fs)).2 }) := by
    change m.run (Expr.evalEntries call env entries >>= _) = _
    rw [Machine.run_bind, hentries.1]
    rfl
  refine ⟨_, _, gives_cons hrecord
    (hentries.2.trans (Machine.quiet_of_grows (.newObject _ _))) gives_nil, ?_⟩
  rw [Store.properties_newObject]

/-- A value is a trace. -/
def IsTrace (v : Value) (t : Trace) : Prop :=
  ∃ identity, v = .trace identity t

theorem mapM_asTrace_of_isTrace (a : Arguments) {vs : List Value} {ts : List Trace}
    (h : List.Forall₂ IsTrace vs ts) : vs.mapM a.asTrace = .ok ts := by
  induction h with
  | nil => rfl
  | cons hv _ ih =>
      obtain ⟨identity, rfl⟩ := hv
      rw [List.mapM_cons, ih]
      rfl

theorem mapM_fields_of_isTrace (a : Arguments) {fs : Fields Value} {gs : Fields Trace}
    (h : List.Forall₂ (fun f g => g.1 = f.1 ∧ IsTrace f.2 g.2) fs gs) :
    fs.mapM (fun field => return (field.1, ← a.asTrace field.2)) = .ok gs := by
  induction h with
  | nil => rfl
  | @cons f g _ _ hfield _ ih =>
      obtain ⟨key, v⟩ := f
      obtain ⟨key', t⟩ := g
      obtain ⟨rfl, identity, rfl⟩ := hfield
      rw [List.mapM_cons, ih]
      rfl

/-! ## Constructors -/

/-- An object is the module of constructors. -/
structure HasBuilders (s : Store) (place : Nat) : Prop where
  lt : place < s.objects.size
  builder : ∀ name ∈ Builder.names, (s.properties place).get? name = some (.native (.builder name))
  missing : ∃ identity, (s.properties place).get? "undefined_" = some (.trace identity .undefined)

theorem HasBuilders.of_properties {s : Store} {place identity : Nat} (hlt : place < s.objects.size)
    (h : s.properties place = (Builder.names.map fun name => (name, Value.native (.builder name))) ++
      [("undefined_", .trace identity .undefined)]) : HasBuilders s place where
  lt := hlt
  builder name hname := by
    rw [h, Fields.get?_append, Fields.get?_map_name _ hname, Option.some_or]
  missing := ⟨identity, by rw [h]; simp [Fields.get?, Builder.names]⟩

/-- The module that a program gets has the constructors. -/
theorem hasBuilders_newBuilderModule (s : Store) :
    ∃ place, s.newBuilderModule.1 = .object place ∧ HasBuilders s.newBuilderModule.2 place := by
  have hlt : s.objects.size < s.newBuilderModule.2.objects.size := by
    simp [Store.newBuilderModule, Store.newObject, Store.newTrace]
  have hproperties := Store.properties_newObject
    ((Builder.names.map fun name => (name, Value.native (.builder name))) ++
      [("undefined_", .trace s.identities .undefined)]) (s.newTrace .undefined).2
  exact ⟨s.objects.size, rfl, .of_properties hlt hproperties⟩

/-- The constructors are at hand, and they may be called. -/
structure CanBuild (l : Lower) (call : Expr → Value → List Value → Running Value)
    (env : Environment) (m : Machine) : Prop where
  bound : ∃ place, m.store.lookup? env l.options.expBinding = some (.object place) ∧
    HasBuilders m.store place
  permitted : ∀ callee name args s, m.gate callee (.native (.builder name)) args s = .ok ()
  applies : Applies call

/-- The closure record of a function is at hand. -/
def HasRecord (env : Environment) (m : Machine) (record : Trace) : Prop :=
  ∃ identity, m.store.lookup? env closureParam = some (.trace identity record)

theorem Store.Grows.lookup?_eq {s s' : Store} (h : s.Grows s') (env : Environment) (x : String) :
    s'.lookup? env x = s.lookup? env x := by
  have hfind (scopes : List ScopeId) : s'.find? x scopes = s.find? x scopes := by
    induction scopes with
    | nil => rfl
    | cons scope rest ih => rw [Store.find?, Store.find?, h.bindings, ih]
  rw [Store.lookup?, Store.lookup?, hfind]

theorem CanBuild.quiet {l : Lower} (h : CanBuild l call env m) (hquiet : m.Quiet n) :
    CanBuild l call env n := by
  obtain ⟨place, hlookup, hbuilders⟩ := h.bound
  have hsame := hquiet.grows.properties place hbuilders.lt
  refine ⟨⟨place, by rw [hquiet.grows.lookup?_eq, hlookup], ?_⟩, ?_, h.applies⟩
  · exact ⟨Nat.lt_of_lt_of_le hbuilders.lt hquiet.grows.objects,
      by rw [hsame]; exact hbuilders.builder, by rw [hsame]; exact hbuilders.missing⟩
  · rw [hquiet.eq]
    exact h.permitted

theorem HasRecord.quiet {record : Trace} (h : HasRecord env m record) (hquiet : m.Quiet n) :
    HasRecord env n record := by
  obtain ⟨identity, hlookup⟩ := h
  exact ⟨identity, by rw [hquiet.grows.lookup?_eq, hlookup]⟩

/-- An expression gives a certain trace, and only values are made. -/
def Constructs (call : Expr → Value → List Value → Running Value) (env : Environment) (m : Machine)
    (e : Expr) (t : Trace) : Prop :=
  ∃ identity n, m.run (e.eval call env) = (.ok (.trace identity t), n) ∧ m.Quiet n

variable {l : Lower} {ν ν' : Names} {record : Trace}

theorem constructs_undefined (h : CanBuild l call env m) :
    Constructs call env m l.undefined .undefined := by
  obtain ⟨place, hlookup, hbuilders⟩ := h.bound
  obtain ⟨identity, hget⟩ := hbuilders.missing
  refine ⟨identity, m, ?_, .refl m⟩
  change m.run (readName env l.options.expBinding >>= _) = _
  rw [Machine.run_bind, run_readName hlookup]
  dsimp only
  rw [Machine.run_read, Store.property, hget]
  rfl

theorem constructs_builder (h : CanBuild l call env m) {name : String}
    (hname : name ∈ Builder.names) (hne : name ≠ "froms") {args : List Expr} {vs : List Value}
    (hargs : Gives call env m args vs n) {t : Trace}
    (hbuild : Builder.build ⟨name, vs, n.store⟩ = .ok t) :
    Constructs call env m (l.builder name args) t := by
  obtain ⟨place, hlookup, hbuilders⟩ := h.bound
  refine ⟨n.store.identities, { n with store := (n.store.newTrace t).2 }, ?_,
    hargs.2.trans (Machine.quiet_of_grows (.newTrace t _))⟩
  change m.run (readName env l.options.expBinding >>= _) = _
  rw [Machine.run_bind, run_readName hlookup]
  dsimp only
  rw [Machine.run_bind, Machine.run_read, Store.property, hbuilders.builder name hname]
  dsimp only [Option.getD_some]
  rw [Machine.run_bind, hargs.1]
  dsimp only
  rw [callMethod, if_pos (show Value.isCallable (.native (.builder name)) = true from rfl),
    run_call_builder h.applies ((h.quiet hargs.2).permitted _ _ _ _), run_build hne hbuild]
  rfl

theorem constructs_identifier (h : CanBuild l call env m) (x : String) :
    Constructs call env m (l.builder "identifier" [.text x]) (.name x) :=
  constructs_builder h (by decide) (by decide) (gives_text gives_nil) rfl

theorem constructs_captured (h : CanBuild l call env m) (hrecord : HasRecord env m record)
    (x : String) : Constructs call env m (l.source x .captured) (.captured record x) := by
  obtain ⟨identity, hlookup⟩ := hrecord
  have hread : m.run (Expr.eval call env (.ident closureParam)) = (.ok (.trace identity record), m) :=
    run_readName hlookup
  exact constructs_builder h (by decide) (by decide)
    (gives_cons hread (.refl m) (gives_text gives_nil)) rfl

/-! ## Lowered expressions -/

/-- Whatever an argument mentions, the call of the constructor mentions. -/
theorem mem_freeNames_builder {own : Option String → List String} {name x : String}
    {args : List Expr} {e : Expr} (he : e ∈ args) (hx : x ∈ e.freeNames own) :
    x ∈ (l.builder name args).freeNames own := by
  refine List.mem_append_right _ ?_
  induction args with
  | nil => cases he
  | cons first rest ih =>
      rcases List.mem_cons.mp he with rfl | hrest
      · exact List.mem_append_left _ hx
      · exact List.mem_append_right _ (ih hrest)

theorem mem_freeNames_captured (own : Option String → List String) (x : String) :
    closureParam ∈ (l.source x .captured).freeNames own :=
  mem_freeNames_builder List.mem_cons_self (List.mem_singleton_self closureParam)

theorem constructs_reference {x : String} {pos : Position} {e' : Expr}
    (hx : (l.reference x pos).run ν = .ok (e', ν')) (h : CanBuild l call env m)
    (hrecord : closureParam ∈ e'.freeNames Option.toList → HasRecord env m record) :
    Constructs call env m e' (l.nameTree ν.owns record x) := by
  rw [Lower.run_reference] at hx
  by_cases hundefined : x = "undefined"
  · rw [if_pos hundefined] at hx
    rw [hx.1, Lower.nameTree, if_pos hundefined]
    exact constructs_undefined h
  rw [if_neg hundefined] at hx
  rw [Lower.nameTree, if_neg hundefined]
  by_cases hglobal : l.primitives.isGlobal x
  · rw [if_pos hglobal] at hx
    rw [hx.1, if_pos (by rw [hglobal, Bool.true_or])]
    exact constructs_identifier h x
  rw [if_neg hglobal, Names.fst_resolve] at hx
  obtain ⟨rfl, -⟩ := hx
  cases hbinding : (ν.lookup x).getD .captured with
  | own =>
      have hown : ν.owns x = true := by
        cases hlookup : ν.lookup x <;> simp_all [Names.owns]
      rw [if_pos (by rw [hown, Bool.or_true])]
      exact constructs_identifier h x
  | captured =>
      have hown : ν.owns x = false := by
        cases hlookup : ν.lookup x <;> simp_all [Names.owns]
      rw [if_neg (by simp [hglobal, hown])]
      rw [hbinding] at hrecord
      exact constructs_captured h (hrecord (mem_freeNames_captured _ x)) x

mutual

theorem constructs_expr {m : Machine} {ν ν' : Names} {e' : Expr} :
    ∀ e : Expr, (l.expr e).run ν = .ok (e', ν') → CanBuild l call env m →
      (closureParam ∈ e'.freeNames Option.toList → HasRecord env m record) →
      ∃ t, l.tree? ν.owns record e = some t ∧ Constructs call env m e' t := by
  intro e h hbuild hrecord
  cases e with
  | number pos x =>
      obtain ⟨rfl, -⟩ := Prod.mk.inj (run_pure_eq_ok_iff.mp h)
      exact ⟨_, rfl, constructs_builder hbuild (by decide) (by decide)
        (gives_cons rfl (.refl m) gives_nil) rfl⟩
  | string pos u =>
      obtain ⟨rfl, -⟩ := Prod.mk.inj (run_pure_eq_ok_iff.mp h)
      exact ⟨_, rfl, constructs_builder hbuild (by decide) (by decide) (gives_text gives_nil) rfl⟩
  | boolean pos b =>
      obtain ⟨rfl, -⟩ := Prod.mk.inj (run_pure_eq_ok_iff.mp h)
      exact ⟨_, rfl, constructs_builder hbuild (by decide) (by decide)
        (gives_cons rfl (.refl m) gives_nil) rfl⟩
  | name pos x => exact ⟨_, rfl, constructs_reference h hbuild hrecord⟩
  | null | function | call | assign | update => exact absurd h run_throw_ne_ok
  | array pos items =>
      simp only [Lower.expr, run_bind_eq_ok_iff, run_pure_eq_ok_iff, Prod.mk.injEq] at h
      obtain ⟨items', _, hitems, rfl, -⟩ := h
      obtain ⟨ts, hts, vs, n, hgives, htraces⟩ := constructs_exprs items hitems hbuild
        fun hmem => hrecord (mem_freeNames_builder (e := .list items') List.mem_cons_self hmem)
      obtain ⟨place, k, hlist, rfl⟩ := gives_list hgives
      refine ⟨.array ts, by rw [Lower.tree?, hts]; rfl,
        constructs_builder hbuild (by decide) (by decide) hlist ?_⟩
      exact congrArg (Trace.array <$> ·) (mapM_asTrace_of_isTrace _ htraces)
  | object pos entries =>
      simp only [Lower.expr, run_bind_eq_ok_iff, run_pure_eq_ok_iff, Prod.mk.injEq] at h
      obtain ⟨entries', _, hentries, rfl, -⟩ := h
      obtain ⟨ts, hts, fs, n, hgives, htraces⟩ := constructs_fields entries hentries hbuild
        fun hmem => hrecord (mem_freeNames_builder (e := .record entries') List.mem_cons_self hmem)
      obtain ⟨place, k, hobject, hproperties⟩ := gives_record hgives
      refine ⟨.object (Fields.condensed ts), by rw [Lower.tree?, hts]; rfl,
        constructs_builder hbuild (by decide) (by decide) hobject ?_⟩
      have hfields := mapM_fields_of_isTrace ⟨"obj", [.object place], k.store⟩
        (Fields.forall₂_ofPairs htraces)
      rw [Fields.ofPairs_eq_condensed ts, ← hproperties] at hfields
      exact congrArg (Trace.object <$> ·) hfields
  | member pos object property =>
      simp only [Lower.expr, run_bind_eq_ok_iff, run_pure_eq_ok_iff, Prod.mk.injEq] at h
      obtain ⟨object', _, hobject, rfl, -⟩ := h
      obtain ⟨t, ht, identity, n, hrun, hquiet⟩ := constructs_expr object hobject hbuild
        fun hmem => hrecord (mem_freeNames_builder (by simp) hmem)
      refine ⟨.property t property, by rw [Lower.tree?, ht]; rfl, ?_⟩
      exact constructs_builder hbuild (by decide) (by decide)
        (gives_cons hrun hquiet (gives_text gives_nil)) rfl
  | unary pos op operand =>
      simp only [Lower.expr, run_bind_eq_ok_iff, run_pure_eq_ok_iff, Prod.mk.injEq] at h
      obtain ⟨operand', _, hoperand, rfl, -⟩ := h
      obtain ⟨t, ht, identity, n, hrun, hquiet⟩ := constructs_expr operand hoperand hbuild
        fun hmem => hrecord (mem_freeNames_builder (by simp) hmem)
      refine ⟨.unary op t, by rw [Lower.tree?, ht]; rfl, ?_⟩
      exact constructs_builder hbuild (by decide) (by decide)
        (gives_text (gives_cons hrun hquiet gives_nil)) (by cases op <;> rfl)
  | index pos object index =>
      simp only [Lower.expr, run_bind_eq_ok_iff, run_pure_eq_ok_iff, Prod.mk.injEq] at h
      obtain ⟨object', ν₁, hobject, index', _, hindex, rfl, -⟩ := h
      obtain ⟨t, ht, _, n, hrun, hquiet⟩ := constructs_expr object hobject hbuild
        fun hmem => hrecord (mem_freeNames_builder (by simp) hmem)
      obtain ⟨u, hu, _, k, hrun', hquiet'⟩ := constructs_expr index hindex (hbuild.quiet hquiet)
        fun hmem => (hrecord (mem_freeNames_builder (by simp) hmem)).quiet hquiet
      rw [(Lower.uses_expr Option.toList object hobject).owns_eq] at hu
      refine ⟨.index t u, by rw [Lower.tree?, ht, hu]; rfl, ?_⟩
      exact constructs_builder hbuild (by decide) (by decide)
        (gives_cons hrun hquiet (gives_cons hrun' hquiet' gives_nil)) rfl
  | binary pos op left right =>
      simp only [Lower.expr, run_bind_eq_ok_iff, run_pure_eq_ok_iff, Prod.mk.injEq] at h
      obtain ⟨left', ν₁, hleft, right', _, hright, rfl, -⟩ := h
      obtain ⟨t, ht, _, n, hrun, hquiet⟩ := constructs_expr left hleft hbuild
        fun hmem => hrecord (mem_freeNames_builder (by simp) hmem)
      obtain ⟨u, hu, _, k, hrun', hquiet'⟩ := constructs_expr right hright (hbuild.quiet hquiet)
        fun hmem => (hrecord (mem_freeNames_builder (by simp) hmem)).quiet hquiet
      rw [(Lower.uses_expr Option.toList left hleft).owns_eq] at hu
      refine ⟨.binary op t u, by rw [Lower.tree?, ht, hu]; rfl, ?_⟩
      exact constructs_builder hbuild (by decide) (by decide)
        (gives_text (gives_cons hrun hquiet (gives_cons hrun' hquiet' gives_nil)))
        (by cases op <;> rfl)
termination_by structural e => e

theorem constructs_exprs {m : Machine} {ν ν' : Names} {es' : List Expr} :
    ∀ es : List Expr, (l.exprs es).run ν = .ok (es', ν') → CanBuild l call env m →
      (closureParam ∈ Expr.freeNamesList Option.toList es' → HasRecord env m record) →
      ∃ ts, l.trees? ν.owns record es = some ts ∧
        ∃ vs n, Gives call env m es' vs n ∧ List.Forall₂ IsTrace vs ts := by
  intro es h hbuild hrecord
  cases es with
  | nil =>
      obtain ⟨rfl, -⟩ := Prod.mk.inj (run_pure_eq_ok_iff.mp h)
      exact ⟨[], rfl, [], m, gives_nil, .nil⟩
  | cons e es =>
      simp only [Lower.exprs, run_bind_eq_ok_iff, run_pure_eq_ok_iff, Prod.mk.injEq] at h
      obtain ⟨e', ν₁, he, es', _, hes, rfl, -⟩ := h
      obtain ⟨t, ht, identity, n, hrun, hquiet⟩ := constructs_expr e he hbuild
        fun hmem => hrecord (List.mem_append_left _ hmem)
      obtain ⟨ts, hts, vs, k, hgives, htraces⟩ := constructs_exprs es hes (hbuild.quiet hquiet)
        fun hmem => (hrecord (List.mem_append_right _ hmem)).quiet hquiet
      rw [(Lower.uses_expr Option.toList e he).owns_eq] at hts
      exact ⟨t :: ts, by rw [Lower.trees?, ht, hts]; rfl, _, k, gives_cons hrun hquiet hgives,
        .cons ⟨identity, rfl⟩ htraces⟩
termination_by structural es => es

theorem constructs_fields {m : Machine} {ν ν' : Names} {es' : List (String × Expr)} :
    ∀ es : List (String × Expr), (l.fields es).run ν = .ok (es', ν') → CanBuild l call env m →
      (closureParam ∈ Expr.freeNamesEntries Option.toList es' → HasRecord env m record) →
      ∃ ts, l.fieldTrees? ν.owns record es = some ts ∧ ∃ fs n, GivesFields call env m es' fs n ∧
        List.Forall₂ (fun f g => g.1 = f.1 ∧ IsTrace f.2 g.2) fs ts := by
  intro es h hbuild hrecord
  cases es with
  | nil =>
      obtain ⟨rfl, -⟩ := Prod.mk.inj (run_pure_eq_ok_iff.mp h)
      exact ⟨[], rfl, [], m, ⟨rfl, .refl m⟩, .nil⟩
  | cons entry es =>
      obtain ⟨key, e⟩ := entry
      simp only [Lower.fields, run_bind_eq_ok_iff, run_pure_eq_ok_iff, Prod.mk.injEq] at h
      obtain ⟨e', ν₁, he, es', _, hes, rfl, -⟩ := h
      obtain ⟨t, ht, identity, n, hrun, hquiet⟩ := constructs_expr e he hbuild
        fun hmem => hrecord (List.mem_append_left _ hmem)
      obtain ⟨ts, hts, fs, k, hgives, htraces⟩ := constructs_fields es hes (hbuild.quiet hquiet)
        fun hmem => (hrecord (List.mem_append_right _ hmem)).quiet hquiet
      rw [(Lower.uses_expr Option.toList e he).owns_eq] at hts
      exact ⟨(key, t) :: ts, by rw [Lower.fieldTrees?, ht, hts]; rfl, _, k,
        givesFields_cons hrun hquiet hgives, .cons ⟨rfl, identity, rfl⟩ htraces⟩
termination_by structural es => es

end

/-- Wherever the constructors are at hand, and the closure record if it is mentioned, a lowered
expression gives the tree of the expression, and nothing but values is made. -/
theorem lowered_gives_tree {e e' : Expr} (h : (l.expr e).run ν = .ok (e', ν'))
    (hbuild : CanBuild l call env m)
    (hrecord : closureParam ∈ e'.freeNames Option.toList → HasRecord env m record) :
    ∃ t identity n, l.tree? ν.owns record e = some t ∧
      m.run (e'.eval call env) = (.ok (.trace identity t), n) ∧ m.Quiet n := by
  obtain ⟨t, ht, identity, n, hrun, hquiet⟩ := constructs_expr e h hbuild hrecord
  exact ⟨t, identity, n, ht, hrun, hquiet⟩

/-- The store of a program that has the constructors and a closure record. -/
def Store.furnished (record : Trace) : Environment × Store :=
  let (env, s) := Store.empty.newGlobals
  let (builders, s) := s.newBuilderModule
  let s := s.declare env "exp" builders false
  let (clos, s) := s.newTrace record
  (env, s.declare env closureParam clos false)

/-- `{ a: x, b: y[1], a: !x && undefined }` -/
def repeatedField : Expr :=
  .record [("a", .ident "x"), ("b", .index .none (.ident "y") (.num 1.0)),
    ("a", .binary .none .and (.unary .none .not (.ident "x")) (.ident "undefined"))]

theorem lowered_gives_tree_repeatedField :
    let record := Trace.closure [("y", .name "y")]
    let place := (Store.furnished record).1
    let machine := { Machine.new .default (.new none (.ofRoutes [])) with
      store := (Store.furnished record).2 }
    ∃ e' ν' identity n,
      (Lower.expr ⟨.default, .default⟩ repeatedField).run [("x", ⟨.own, .none⟩)] = .ok (e', ν') ∧
      machine.run (e'.eval (fun callee => callFrom (some callee)) place) =
        (.ok (.trace identity (.object
          [("a", .binary .and (.unary .not (.name "x")) .undefined),
            ("b", .index (.captured record "y") (.number 1.0))])), n) ∧
      machine.Quiet n := by
  intro record place machine
  have hlookup : (Store.furnished record).2.lookup? (Store.furnished record).1 "exp" =
      some (.object 1) := by with_unfolding_all rfl
  have hbuilders : HasBuilders (Store.furnished record).2 1 := by
    obtain ⟨place, hplace, h⟩ := hasBuilders_newBuilderModule Store.empty.newGlobals.2
    cases hplace
    exact ⟨h.lt, h.builder, h.missing⟩
  have hclosure : (Store.furnished record).2.lookup? (Store.furnished record).1 closureParam =
      some (.trace 1 record) := by with_unfolding_all rfl
  have hbuild : CanBuild ⟨.default, .default⟩ (fun callee => callFrom (some callee)) place machine :=
    ⟨⟨1, hlookup, hbuilders⟩, fun _ _ _ _ => rfl, applies_callFrom⟩
  have hlowered : ∃ e' ν', (Lower.expr ⟨.default, .default⟩ repeatedField).run
      [("x", ⟨.own, .none⟩)] = .ok (e', ν') := ⟨_, _, by with_unfolding_all rfl⟩
  have htree : Lower.tree? ⟨.default, .default⟩ (Names.owns [("x", ⟨.own, .none⟩)]) record
      repeatedField = some (.object [("a", .binary .and (.unary .not (.name "x")) .undefined),
        ("b", .index (.captured record "y") (.number 1.0))]) := by with_unfolding_all rfl
  obtain ⟨e', ν', he⟩ := hlowered
  obtain ⟨t, identity, n, ht, hrun, hquiet⟩ :=
    lowered_gives_tree he hbuild fun _ => ⟨1, hclosure⟩
  rw [htree] at ht
  obtain rfl := Option.some.inj ht
  exact ⟨e', ν', identity, n, he, hrun, hquiet⟩

end TraceLoom
