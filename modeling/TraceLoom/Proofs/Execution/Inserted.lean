import TraceLoom.Proofs.Execution.Expressions
import TraceLoom.Proofs.Execution.Lowered

/-!
Expressions that were inserted to build traces.  In an instrumented program they always succeed,
and what they give is the tree of an expression.
-/

namespace TraceLoom

open Script Instrument Running

/-! ## Plain traces -/

namespace Trace

theorem plain_of_children {t : Trace} (ht : t.isExpression = true) (hkeys : t.hasDistinctKeys = true)
    (h : ∀ s ∈ t.children, Plain s) : Plain t :=
  every_eq_true_iff.mpr ⟨by simp [ht, hkeys], h⟩

theorem plain_leaf {t : Trace} (ht : t.isExpression = true) (hchildren : t.children = [])
    (hkeys : t.hasDistinctKeys = true) : Plain t :=
  plain_of_children ht hkeys (hchildren ▸ nofun)

theorem forall_fieldTraces {t : Trace} {fs : Fields Trace} (ht : t.children = fs.map Prod.snd)
    (h : ∀ field ∈ fs, Plain field.2) : ∀ s ∈ t.children, Plain s := by
  rw [ht]
  exact List.forall_mem_map.mpr h

theorem Plain.child {t s : Trace} (h : Plain t) (hs : s ∈ t.children) : Plain s :=
  (every_eq_true_iff.mp h).2 s hs

/-- What is written where a plain trace was read. -/
theorem Plain.target {t : Trace} (h : Plain t) {x : Target} (hx : t.toTarget? = some x) :
    ∀ s ∈ x.exps, Plain s := by
  cases t <;> cases hx
  case name => exact nofun
  case captured | index =>
    exact fun s hs => h.child (by simpa [children, parts, Target.exps] using hs)
  case property t field =>
    have ht := h.child (s := t) (by simp [Trace.children, parts])
    have hfield : Plain (.string field) := plain_leaf rfl rfl rfl
    simp [Target.exps, ht, hfield]

variable {l : Lower} {owns : String → Bool} {record : Trace}

theorem plain_nameTree (hrecord : Plain record) (x : String) :
    Plain (l.nameTree owns record x) := by
  unfold Lower.nameTree
  split
  · exact plain_leaf rfl rfl rfl
  · split
    · exact plain_leaf rfl rfl rfl
    · exact plain_of_children rfl rfl (by simpa [children, parts] using hrecord)

mutual

/-- Trees of expressions are plain. -/
theorem plain_of_tree? (hrecord : Plain record) : ∀ (e : Expr) {t : Trace},
    l.tree? owns record e = some t → Plain t := by
  intro e t h
  cases e with
  | number | string | boolean =>
      cases h
      exact plain_leaf rfl rfl rfl
  | name pos x =>
      cases h
      exact plain_nameTree hrecord x
  | null | function | call | assign | update => cases h
  | array pos items =>
      simp only [Lower.tree?, Option.bind_eq_bind, Option.bind_eq_some_iff] at h
      obtain ⟨ts, hts, ⟨⟩⟩ := h
      exact plain_of_children rfl rfl
        (by simpa [children, parts] using plain_of_trees? hrecord items hts)
  | object pos entries =>
      simp only [Lower.tree?, Option.bind_eq_bind, Option.bind_eq_some_iff] at h
      obtain ⟨ts, hts, ⟨⟩⟩ := h
      rw [← Fields.ofPairs_eq_condensed]
      exact plain_of_children rfl (decide_eq_true (Fields.nodup_ofPairs ts))
        (forall_fieldTraces rfl (Fields.forall_ofPairs (plain_of_fieldTrees? hrecord entries hts)))
  | member pos base property =>
      simp only [Lower.tree?, Option.bind_eq_bind, Option.bind_eq_some_iff] at h
      obtain ⟨t, ht, ⟨⟩⟩ := h
      exact plain_of_children rfl rfl
        (by simpa [children, parts] using plain_of_tree? hrecord base ht)
  | unary pos op operand =>
      simp only [Lower.tree?, Option.bind_eq_bind, Option.bind_eq_some_iff] at h
      obtain ⟨t, ht, ⟨⟩⟩ := h
      exact plain_of_children rfl rfl
        (by simpa [children, parts] using plain_of_tree? hrecord operand ht)
  | index pos base key =>
      simp only [Lower.tree?, Option.bind_eq_bind, Option.bind_eq_some_iff] at h
      obtain ⟨t, ht, u, hu, ⟨⟩⟩ := h
      exact plain_of_children rfl rfl (by simpa [children, parts] using
        ⟨plain_of_tree? hrecord base ht, plain_of_tree? hrecord key hu⟩)
  | binary pos op left right =>
      simp only [Lower.tree?, Option.bind_eq_bind, Option.bind_eq_some_iff] at h
      obtain ⟨t, ht, u, hu, ⟨⟩⟩ := h
      exact plain_of_children rfl rfl (by simpa [children, parts] using
        ⟨plain_of_tree? hrecord left ht, plain_of_tree? hrecord right hu⟩)
termination_by structural e => e

theorem plain_of_trees? (hrecord : Plain record) : ∀ (es : List Expr) {ts : List Trace},
    l.trees? owns record es = some ts → ∀ t ∈ ts, Plain t := by
  intro es ts h
  cases es with
  | nil =>
      cases h
      exact nofun
  | cons e es =>
      simp only [Lower.trees?, Option.bind_eq_bind, Option.bind_eq_some_iff] at h
      obtain ⟨t, ht, ts, hts, ⟨⟩⟩ := h
      exact List.forall_mem_cons.mpr ⟨plain_of_tree? hrecord e ht, plain_of_trees? hrecord es hts⟩
termination_by structural es => es

theorem plain_of_fieldTrees? (hrecord : Plain record) : ∀ (es : List (String × Expr))
    {ts : List (String × Trace)}, l.fieldTrees? owns record es = some ts →
      ∀ field ∈ ts, Plain field.2 := by
  intro es ts h
  cases es with
  | nil =>
      cases h
      exact nofun
  | cons entry es =>
      obtain ⟨key, e⟩ := entry
      simp only [Lower.fieldTrees?, Option.bind_eq_bind, Option.bind_eq_some_iff] at h
      obtain ⟨t, ht, ts, hts, ⟨⟩⟩ := h
      exact List.forall_mem_cons.mpr
        ⟨plain_of_tree? hrecord e ht, plain_of_fieldTrees? hrecord es hts⟩
termination_by structural es => es

end

end Trace

/-- A trace of an expression as a value. -/
def IsPlain (v : Value) : Prop :=
  ∃ identity t, v = .trace identity t ∧ Trace.Plain t

/-! ## Variables of the instrumentation -/

variable {P : Expectation} {W W' : World} {m m' n n' : Machine} {env' : Environment}
  {call' : Expr → Value → List Value → Running Value} {ν ν' : Names}

theorem find?_of_bound {s : Store} {x : String} {scopes : List ScopeId} {scope : ScopeId}
    (hscope : scope ∈ scopes) (hx : x ∈ Fields.keys (s.bindings scope)) :
    ∃ found y, s.find? x scopes = some (found, y) ∧ (s.bindings found).get? x = some y := by
  induction scopes with
  | nil => simp at hscope
  | cons first rest ih =>
      rw [Store.find?]
      cases hget : (s.bindings first).get? x with
      | some y => exact ⟨first, y, rfl, hget⟩
      | none =>
          rcases List.mem_cons.mp hscope with rfl | hrest
          · exact absurd hx (Fields.get?_eq_none_iff.mp hget)
          · exact ih hrest

theorem lookup?_builder (hrel : MachineRel P W m m') (hW : W.Ready)
    (hhome : W.home ∈ env'.own :: env'.outer) :
    ∃ v, m'.store.lookup? env' standard.options.expBinding = some v ∧
      IsBuilderModule W m'.store v := by
  obtain ⟨found, y, hfind, hget⟩ := find?_of_bound hhome (hrel.store.furnished.bound hW.1)
  exact ⟨y.value, by rw [Store.lookup?, hfind]; rfl, hrel.store.furnished.builder hget⟩

theorem lookup?_callbacks (hrel : MachineRel P W m m') (hW : W.Ready)
    (hhome : W.home ∈ env'.own :: env'.outer) :
    ∃ v, m'.store.lookup? env' standard.options.callbacksBinding = some v ∧
      IsCallbacksModule W m'.store v := by
  obtain ⟨found, y, hfind, hget⟩ := find?_of_bound hhome (hrel.store.furnished.bound hW.2)
  exact ⟨y.value, by rw [Store.lookup?, hfind]; rfl, hrel.store.furnished.callbacks hget⟩

/-- Out of blocks a closure record is reached. -/
def HasClosure (W : World) (env' : Environment) : Prop :=
  ∃ inner scope outer, env'.own :: env'.outer = inner ++ scope :: outer ∧
    (∀ block ∈ inner, block ∈ W.blocks) ∧ (scope, closureParam) ∈ W.bound

theorem HasClosure.mono (h : HasClosure W env') (hle : W ≤ W') : HasClosure W' env' := by
  obtain ⟨inner, scope, outer, hscopes, hinner, hscope⟩ := h
  exact ⟨inner, scope, outer, hscopes, fun block hblock => hle.blocks (hinner block hblock),
    hle.bound hscope⟩

theorem lookup?_closure (hrel : MachineRel P W m m') (h : HasClosure W env') :
    ∃ v, m'.store.lookup? env' closureParam = some v ∧ IsPlain v := by
  obtain ⟨inner, scope, outer, hscopes, hinner, hscope⟩ := h
  have hfurnished := hrel.store.furnished
  have hfind : ∃ y, m'.store.find? closureParam (inner ++ scope :: outer) = some (scope, y) ∧
      (m'.store.bindings scope).get? closureParam = some y := by
    clear hscopes
    induction inner with
    | nil =>
        obtain ⟨y, hy⟩ := Fields.exists_get?_iff_mem_keys.mpr (hfurnished.bound hscope)
        exact ⟨y, by rw [List.nil_append, Store.find?, hy], hy⟩
    | cons block inner ih =>
        have hblock := (hfurnished.blocks (hinner block List.mem_cons_self)).2
        rw [List.cons_append, Store.find?, Fields.get?_eq_none_iff.mpr hblock]
        exact ih fun other hother => hinner other (List.mem_cons_of_mem _ hother)
  obtain ⟨y, hfind, hy⟩ := hfind
  obtain ⟨identity, t, hvalue, ht⟩ := hfurnished.closure hscope hy
  exact ⟨y.value, by rw [Store.lookup?, hscopes, hfind]; rfl, identity, t, hvalue, ht⟩

/-! ## Calls of natives -/

/-- What is called to perform an operation of the recorder. -/
def operationCallee (operation : String) : Expr :=
  .dot (.dot (.ident standard.options.callbacksBinding) "trace") operation

theorem run_call_operation (happlies : Applies call') (hrel : MachineRel P W m m')
    (operation : String) (args : List Value) :
    m'.run (call' (operationCallee operation) (.native (.trace operation)) args) =
      m'.run (Native.record operation args) := by
  obtain ⟨enter, hcall⟩ := happlies m' (operationCallee operation) (.native (.trace operation)) args
  have hgate : recorderGate P.refusal (some (operationCallee operation))
      (.native (.trace operation)) args m'.store = .ok () := by
    have hinserted : isInserted (some (operationCallee operation)) = true := by
      simp [isInserted, operationCallee, Expr.dot, Expr.ident]
    rw [recorderGate, if_pos hinserted]
  rw [hcall, run_apply_native (by rw [hrel.gate', hgate]), Native.perform, bind_assoc]
  simp only [pure_bind, bind_pure]

/-! ## Building -/

/-- An expression gives a plain trace, and only values are made. -/
def Builds (call' : Expr → Value → List Value → Running Value) (env' : Environment) (m' : Machine)
    (e : Expr) : Prop :=
  ∃ v n', m'.run (e.eval call' env') = (.ok v, n') ∧ m'.Quiet n' ∧ IsPlain v

theorem Constructs.builds {e : Expr} {t : Trace} (h : Constructs call' env' m' e t)
    (ht : Trace.Plain t) : Builds call' env' m' e := by
  obtain ⟨identity, n', hrun, hquiet⟩ := h
  exact ⟨_, n', hrun, hquiet, identity, t, rfl, ht⟩

theorem exists_traces {vs : List Value} (h : ∀ v ∈ vs, IsPlain v) :
    ∃ ts, List.Forall₂ IsTrace vs ts ∧ ∀ t ∈ ts, Trace.Plain t := by
  induction vs with
  | nil => exact ⟨[], .nil, nofun⟩
  | cons v vs ih =>
      obtain ⟨⟨identity, t, rfl, ht⟩, hvs⟩ := List.forall_mem_cons.mp h
      obtain ⟨ts, hts, hplain⟩ := ih hvs
      exact ⟨t :: ts, .cons ⟨identity, rfl⟩ hts, List.forall_mem_cons.mpr ⟨ht, hplain⟩⟩

theorem mapM_asTrace (a : Arguments) {vs : List Value} (h : ∀ v ∈ vs, IsPlain v) :
    ∃ ts, vs.mapM a.asTrace = .ok ts ∧ ∀ t ∈ ts, Trace.Plain t := by
  obtain ⟨ts, hts, hplain⟩ := exists_traces h
  exact ⟨ts, mapM_asTrace_of_isTrace a hts, hplain⟩

theorem forall_isPlain {vs : List Value} {ts : List Trace} (h : List.Forall₂ IsTrace vs ts)
    (hplain : ∀ t ∈ ts, Trace.Plain t) : ∀ v ∈ vs, IsPlain v := by
  induction h with
  | nil => exact nofun
  | cons hv _ ih =>
      obtain ⟨identity, rfl⟩ := hv
      obtain ⟨ht, hts⟩ := List.forall_mem_cons.mp hplain
      exact List.forall_mem_cons.mpr ⟨⟨identity, _, rfl, ht⟩, ih hts⟩

/-- All that inserted code relies on. -/
structure Equipped (P : Expectation) (W : World) (m : Machine) (env' : Environment)
    (call' : Expr → Value → List Value → Running Value) (m' : Machine) : Prop where
  rel : MachineRel P W m m'
  ready : W.Ready
  home : W.home ∈ env'.own :: env'.outer
  applies : Applies call'

theorem Equipped.quiet (h : Equipped P W m env' call' m') (hquiet : m'.Quiet n') :
    Equipped P W m env' call' n' :=
  ⟨h.rel.quiet_right hquiet, h.ready, h.home, h.applies⟩

theorem Equipped.canBuild (h : Equipped P W m env' call' m') :
    CanBuild standard call' env' m' := by
  obtain ⟨_, hlookup, place, identity, rfl, -, hlt, hproperties⟩ := lookup?_builder h.rel h.ready h.home
  refine ⟨⟨place, hlookup, .of_properties hlt hproperties⟩, fun _ _ _ _ => ?_, h.applies⟩
  rw [h.rel.gate']
  rfl

theorem builds_undefined (h : Equipped P W m env' call' m') :
    Builds call' env' m' standard.undefined :=
  (constructs_undefined h.canBuild).builds (Trace.plain_leaf rfl rfl rfl)

theorem builds_builder (h : Equipped P W m env' call' m') {name : String}
    (hname : name ∈ Builder.names) (hne : name ≠ "froms") {args : List Expr} {vs : List Value}
    (hargs : Gives call' env' m' args vs n') {t : Trace}
    (hbuild : Builder.build ⟨name, vs, n'.store⟩ = .ok t) (ht : Trace.Plain t) :
    Builds call' env' m' (standard.builder name args) :=
  (constructs_builder h.canBuild hname hne hargs hbuild).builds ht

/-! ## Lowered expressions -/

/-- What is used is bound in the function, or else there is a closure record. -/
def Seen (W : World) (env' : Environment) (ν : Names) (used : List String) : Prop :=
  HasClosure W env' ∨
    ∀ x ∈ used, standard.primitives.mayCapture x → ν.lookup x = some .own

namespace Seen

variable {used more : List String}

theorem left (h : Seen W env' ν (used ++ more)) : Seen W env' ν used :=
  h.imp_right fun hown x hx => hown x (List.mem_append_left _ hx)

theorem right (h : Seen W env' ν (used ++ more)) : Seen W env' ν more :=
  h.imp_right fun hown x hx => hown x (List.mem_append_right _ hx)

theorem uses (h : Seen W env' ν used) {others : List String} (huses : ν.Uses others ν') :
    Seen W env' ν' used :=
  h.imp_right fun hown x hx hmay => huses.own_iff.mpr (hown x hx hmay)

theorem mono (h : Seen W env' ν used) (hle : W ≤ W') : Seen W' env' ν used :=
  h.imp_left fun hclosure => hclosure.mono hle

/-- Where a name is captured, the closure record is at hand. -/
theorem hasRecord (h : Seen W env' ν used) (hrel : MachineRel P W m m') :
    ∃ record, Trace.Plain record ∧ (standard.Captures ν used → HasRecord env' m' record) := by
  rcases h with hclosure | hown
  · obtain ⟨_, hlookup, identity, t, rfl, ht⟩ := lookup?_closure hrel hclosure
    exact ⟨t, ht, fun _ => ⟨identity, hlookup⟩⟩
  · refine ⟨.undefined, Trace.plain_leaf rfl rfl rfl, ?_⟩
    rintro ⟨x, hx, hmay, hcaptured⟩
    exact absurd (hown x hx hmay) hcaptured

end Seen

theorem closureParam_ne_expBinding : closureParam ≠ standard.options.expBinding := by
  decide

theorem builds_source (h : Equipped P W m env' call' m') {x : String} {b : Binding}
    (hclosure : b = .captured → HasClosure W env') : Builds call' env' m' (standard.source x b) := by
  cases b with
  | own => exact (constructs_identifier h.canBuild x).builds (Trace.plain_leaf rfl rfl rfl)
  | captured =>
      obtain ⟨_, hlookup, identity, t, rfl, ht⟩ := lookup?_closure h.rel (hclosure rfl)
      refine (constructs_captured h.canBuild ⟨identity, hlookup⟩ x).builds
        (Trace.plain_of_children rfl rfl ?_)
      simpa [Trace.children, Trace.parts] using ht

theorem builds_reference (h : Equipped P W m env' call' m') {x : String} {pos : Position}
    {e' : Expr} (hx : (standard.reference x pos).run ν = .ok (e', ν'))
    (hseen : Seen W env' ν [x]) : Builds call' env' m' e' := by
  obtain ⟨record, hplain, hrecord⟩ := hseen.hasRecord h.rel
  refine (constructs_reference hx h.canBuild fun hmem => hrecord ?_).builds
    (Trace.plain_nameTree hplain x)
  exact Lower.captures_of_reference _ closureParam_ne_expBinding hx hmem

theorem builds_expr (e : Expr) {e' : Expr} (he : (standard.expr e).run ν = .ok (e', ν'))
    (h : Equipped P W m env' call' m') (hseen : Seen W env' ν (e.freeNames Option.toList)) :
    Builds call' env' m' e' := by
  obtain ⟨record, hplain, hrecord⟩ := hseen.hasRecord h.rel
  obtain ⟨t, ht, hconstructs⟩ := constructs_expr e he h.canBuild fun hmem =>
    hrecord (Lower.captures_of_expr _ closureParam_ne_expBinding e he hmem)
  exact hconstructs.builds (Trace.plain_of_tree? hplain e ht)

theorem builds_exprs (es : List Expr) {es' : List Expr}
    (hes : (standard.exprs es).run ν = .ok (es', ν')) (h : Equipped P W m env' call' m')
    (hseen : Seen W env' ν (Expr.freeNamesList Option.toList es)) :
    ∃ vs n', Gives call' env' m' es' vs n' ∧ ∀ v ∈ vs, IsPlain v := by
  obtain ⟨record, hplain, hrecord⟩ := hseen.hasRecord h.rel
  obtain ⟨ts, hts, vs, n', hgives, htraces⟩ := constructs_exprs es hes h.canBuild fun hmem =>
    hrecord (Lower.captures_of_exprs _ closureParam_ne_expBinding es hes hmem)
  exact ⟨vs, n', hgives, forall_isPlain htraces (Trace.plain_of_trees? hplain es hts)⟩

/-! ## Closure records -/

theorem builds_entries {entries : List (String × Expr)}
    (h : ∀ entry ∈ entries, ∀ n', m'.Quiet n' → Builds call' env' n' entry.2) :
    ∃ fs n', ∃ ts : List (String × Trace), GivesFields call' env' m' entries fs n' ∧
      List.Forall₂ (fun f g => g.1 = f.1 ∧ IsTrace f.2 g.2) fs ts ∧
      ∀ field ∈ ts, Trace.Plain field.2 := by
  induction entries generalizing m' with
  | nil => exact ⟨[], m', [], ⟨rfl, .refl m'⟩, .nil, List.forall_mem_nil _⟩
  | cons entry entries ih =>
      obtain ⟨key, e⟩ := entry
      obtain ⟨he, hes⟩ := List.forall_mem_cons.mp h
      obtain ⟨_, n', hrun, hquiet, identity, t, rfl, ht⟩ := he m' (.refl m')
      obtain ⟨fs, k, ts, hgives, htraces, hplain⟩ :=
        ih fun entry hentry k hk => hes entry hentry k (hquiet.trans hk)
      exact ⟨_, k, (key, t) :: ts, givesFields_cons hrun hquiet hgives,
        .cons ⟨rfl, identity, rfl⟩ htraces, List.forall_mem_cons.mpr ⟨ht, hplain⟩⟩

theorem builds_closureRecord (h : Equipped P W m env' call' m') (self : Option (String × String))
    {sources : List (String × Binding)}
    (hsources : ∀ source ∈ sources, source.2 = .captured → HasClosure W env') :
    Builds call' env' m' (standard.closureRecord self sources) := by
  have hbuilds : ∀ entry ∈ self.toList.map (fun own => (own.1, standard.source own.2 .own)) ++
        sources.map (fun source => (source.1, standard.source source.1 source.2)),
      ∀ n', m'.Quiet n' → Builds call' env' n' entry.2 := by
    intro entry hentry n' hquiet
    rcases List.mem_append.mp hentry with hself | hsource
    · obtain ⟨⟨name, holder⟩, -, rfl⟩ := List.mem_map.mp hself
      exact builds_source (b := .own) (h.quiet hquiet) fun hown => by cases hown
    · obtain ⟨⟨name, binding⟩, hmem, rfl⟩ := List.mem_map.mp hsource
      exact builds_source (h.quiet hquiet) (hsources (name, binding) hmem)
  obtain ⟨fs, n', ts, hgives, htraces, hplain⟩ := builds_entries hbuilds
  obtain ⟨place, k, hrecord, hproperties⟩ := gives_record hgives
  have hfields := mapM_fields_of_isTrace ⟨"clos", [.object place], k.store⟩
    (Fields.forall₂_ofPairs htraces)
  rw [← hproperties] at hfields
  refine builds_builder h (by decide) (by decide) hrecord (t := .closure (Fields.ofPairs ts))
    (congrArg (Trace.closure <$> ·) hfields) ?_
  exact Trace.plain_of_children rfl (decide_eq_true (Fields.nodup_ofPairs ts))
    (Trace.forall_fieldTraces rfl (Fields.forall_ofPairs hplain))

theorem builds_callee (h : Equipped P W m env' call' m') {callee callee' : Expr}
    (hcallee : (standard.callee callee).run ν = .ok (callee', ν'))
    (hseen : Seen W env' ν (callee.freeNames Option.toList)) : Builds call' env' m' callee' := by
  unfold Lower.callee at hcallee
  split at hcallee
  · exact builds_reference h hcallee hseen
  · exact absurd hcallee run_throw_ne_ok
  · exact absurd hcallee run_throw_ne_ok
  · rename_i pos object property _ _
    simp only [run_bind_eq_ok_iff, run_pure_eq_ok_iff, Prod.mk.injEq] at hcallee
    obtain ⟨object', _, hobject, rfl, -⟩ := hcallee
    obtain ⟨_, n', hrun, hquiet, identity, t, rfl, ht⟩ := builds_expr object hobject h hseen
    exact builds_builder h (by decide) (by decide)
      (gives_cons hrun hquiet (gives_text gives_nil)) (t := .property t property) rfl
      (Trace.plain_of_children rfl rfl (by simpa [Trace.children, Trace.parts] using ht))
  · exact absurd hcallee run_throw_ne_ok

/-! ## Targets -/

/-- A trace to which something can be assigned. -/
def IsTarget (v : Value) : Prop :=
  ∃ identity t x, v = .trace identity t ∧ t.toTarget? = some x ∧ ∀ s ∈ x.exps, Trace.Plain s

/-- An expression gives a trace to which something can be assigned. -/
def BuildsTarget (call' : Expr → Value → List Value → Running Value) (env' : Environment)
    (m' : Machine) (e : Expr) : Prop :=
  ∃ v n', m'.run (e.eval call' env') = (.ok v, n') ∧ m'.Quiet n' ∧ IsTarget v

theorem builds_target_builder (h : Equipped P W m env' call' m') {name : String}
    (hname : name ∈ Builder.names) (hne : name ≠ "froms") {args : List Expr} {vs : List Value}
    (hargs : Gives call' env' m' args vs n') {t : Trace}
    (hbuild : Builder.build ⟨name, vs, n'.store⟩ = .ok t) {x : Target} (ht : t.toTarget? = some x)
    (hx : ∀ s ∈ x.exps, Trace.Plain s) : BuildsTarget call' env' m' (standard.builder name args) := by
  obtain ⟨identity, k, hrun, hquiet⟩ := constructs_builder h.canBuild hname hne hargs hbuild
  exact ⟨_, k, hrun, hquiet, identity, t, x, rfl, ht, hx⟩

theorem builds_target_source (h : Equipped P W m env' call' m') {x : String} {b : Binding}
    (hclosure : b = .captured → HasClosure W env') :
    BuildsTarget call' env' m' (standard.source x b) := by
  cases b with
  | own =>
      exact builds_target_builder h (by decide) (by decide) (gives_text gives_nil) (t := .name x) rfl
        (x := .name x) rfl nofun
  | captured =>
      obtain ⟨v, hlookup, identity, t, rfl, ht⟩ := lookup?_closure h.rel (hclosure rfl)
      refine builds_target_builder h (by decide) (by decide)
        (gives_cons (run_readName hlookup) (.refl m') (gives_text gives_nil))
        (t := .captured t x) rfl (x := .captured t x) rfl ?_
      simpa [Target.exps] using ht

theorem builds_target_reference (h : Equipped P W m env' call' m') {x : String}
    {pos : Position} {e' : Expr} (hx : (standard.reference x pos).run ν = .ok (e', ν'))
    (hseen : Seen W env' ν [x]) (hne : x ≠ "undefined") : BuildsTarget call' env' m' e' := by
  rw [Lower.run_reference] at hx
  simp only [hne, if_false] at hx
  split at hx
  · rw [hx.1]
    exact builds_target_source (b := .own) h nofun
  · rename_i hglobal
    rw [hx.1]
    refine builds_target_source h fun hbinding => ?_
    have hmay : standard.primitives.mayCapture x = true := by
      simp [Primitives.mayCapture, hne, hglobal]
    rcases hseen with hclosure | hown
    · exact hclosure
    · rw [Names.fst_resolve, hown x (List.mem_singleton_self x) hmay] at hbinding
      cases hbinding

theorem builds_target_index (h : Equipped P W m env' call' m') {e f : Expr}
    (he : Builds call' env' m' e) (hf : ∀ n', m'.Quiet n' → Builds call' env' n' f) :
    BuildsTarget call' env' m' (standard.builder "index" [e, f]) := by
  obtain ⟨_, n', hrun, hquiet, _, t, rfl, ht⟩ := he
  obtain ⟨_, k, hrun', hquiet', _, u, rfl, hu⟩ := hf n' hquiet
  refine builds_target_builder h (by decide) (by decide)
    (gives_cons hrun hquiet (gives_cons hrun' hquiet' gives_nil)) (t := .index t u) rfl
    (x := .index t u) rfl ?_
  simpa [Target.exps] using ⟨ht, hu⟩

theorem builds_target (h : Equipped P W m env' call' m') {target target' : Expr}
    (htarget : (standard.target target).run ν = .ok (target', ν'))
    (hseen : Seen W env' ν (target.freeNames Option.toList)) :
    BuildsTarget call' env' m' target' := by
  unfold Lower.target at htarget
  split at htarget
  · rename_i pos x
    split at htarget
    · exact absurd htarget run_throw_ne_ok
    · rename_i hx
      refine builds_target_reference h htarget hseen fun heq => hx ?_
      simp [heq]
  · rename_i pos object property
    split at htarget
    · exact absurd htarget run_throw_ne_ok
    · simp only [run_bind_eq_ok_iff, run_pure_eq_ok_iff, Prod.mk.injEq] at htarget
      obtain ⟨object', _, hobject, rfl, -⟩ := htarget
      refine builds_target_index h (builds_expr object hobject h hseen) fun n' hquiet => ?_
      exact builds_builder (h.quiet hquiet) (by decide) (by decide) (gives_text gives_nil)
        (t := .string property) rfl (Trace.plain_leaf rfl rfl rfl)
  · rename_i pos object index
    split at htarget
    · exact absurd htarget run_throw_ne_ok
    · obtain ⟨_, _, hget, htarget⟩ := run_bind_eq_ok_iff.mp htarget
      cases hget
      split at htarget
      · obtain ⟨_, _, hrefuse, -⟩ := run_bind_eq_ok_iff.mp htarget
        exact absurd hrefuse run_throw_ne_ok
      · simp only [run_bind_eq_ok_iff, run_pure_eq_ok_iff, Prod.mk.injEq] at htarget
        obtain ⟨object', ν₁, hobject, index', _, hindex, rfl, -⟩ := htarget
        refine builds_target_index h (builds_expr object hobject h hseen.left) fun n' hquiet => ?_
        exact builds_expr index hindex (h.quiet hquiet)
          (hseen.right.uses (Lower.uses_expr Option.toList object hobject))
  · exact absurd htarget run_throw_ne_ok

end TraceLoom
