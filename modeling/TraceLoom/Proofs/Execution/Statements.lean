import TraceLoom.Proofs.Execution.Blocks

/-!
Statements.  What was woven of a statement does on its side what the statement does, and records
it; the statement lists that are open afterwards are those that the end of the statement leaves.
-/

namespace TraceLoom

open Script Instrument Running

variable {P : Expectation} {W W' : World} {m m' n n' : Machine} {env env' : Environment}
  {call call' : Expr → Value → List Value → Running Value} {ν ν' : Names} {place : Place}
  {F F' : List Frame}

/-- Everything is in place to run statements on both sides. -/
structure Poised (P : Expectation) (W : World) (m m' : Machine) (env env' : Environment)
    (call call' : Expr → Value → List Value → Running Value) (place : Place) : Prop where
  rel : MachineRel P W m m'
  ready : W.Ready
  env : EnvRel W env env'
  calls : CallsAlike P call call'
  lists : OpenAt P place m'.frames

namespace Poised

variable (h : Poised P W m m' env env' call call' place)

include h

theorem equipped : Equipped P W m env' call' m' :=
  ⟨h.rel, h.ready, h.env.home, h.calls.applies⟩

theorem next (hle : W ≤ W') (hrel : MachineRel P W' n n')
    (hframes : P.strict → Advances m'.frames n'.frames) :
    Poised P W' n n' env env' call call' place :=
  ⟨hrel, h.ready.mono hle, h.env.mono hle, h.calls, h.lists.advances hframes⟩

theorem opened {scope : Scope} (hrel : MachineRel P W m n')
    (hframes : P.strict → Opens scope m'.frames n'.frames) :
    Poised P W m n' env env' call call' place :=
  ⟨hrel, h.ready, h.env, h.calls, h.lists.opens hframes⟩

end Poised

/-! ## Declarations -/

theorem sim_bindName (hrel : MachineRel P W m m') (henv : EnvRel W env env') {name : String}
    (hname : ¬ Hidden name) (kind : DeclKind) {v v' : Value} (hv : ValueRel P W v v') :
    Sim P W m m' (bindPattern env kind (.name name) v) (bindPattern env' kind (.name name) v')
      fun _ _ _ n' => n'.adapter = m'.adapter :=
  (sim_declare hrel henv hname hv _).imp fun _ hn => by rw [hn.2]

theorem sim_declareValue {pos : Position} {kind : DeclKind} {name : String} {e e' : Expr}
    (henv : EnvRel W env env') (hname : ¬ Hidden name)
    (he : Sim P W m m' (e.eval call env) (e'.eval call' env') (Returned P m')) :
    Sim P W m m' ((Stmt.declare pos kind [(.name name, some e)]).exec call env)
      ((Stmt.declare pos kind [(.name name, some e')]).exec call' env')
      (Flows P place m'.frames) := by
  have hbound : Sim P W m m' (Stmt.execDeclarators call env kind [(.name name, some e)])
      (Stmt.execDeclarators call' env' kind [(.name name, some e')])
      fun _ _ _ n' => P.strict → Advances m'.frames n'.frames := by
    refine he.bind fun hle hrel₁ _ ⟨hv, hframes⟩ => ?_
    refine (sim_bindName hrel₁ (henv.mono hle) hname kind hv).bind fun _ hrel₂ _ hadapter => ?_
    exact .pure hrel₂ fun hstrict => Machine.frames_of_adapter hadapter ▸ hframes hstrict
  exact hbound.bind fun _ hrel₁ _ hframes => .pure hrel₁ (.next hframes)

theorem sim_declareNone {pos : Position} {kind : DeclKind} {name : String}
    (hrel : MachineRel P W m m') (henv : EnvRel W env env') (hname : ¬ Hidden name)
    (hopen : P.strict → m'.frames ≠ []) :
    Sim P W m m' ((Stmt.declare pos kind [(.name name, none)]).exec call env)
      ((Stmt.declare pos kind [(.name name, none)]).exec call' env') (Flows P place m'.frames) := by
  have hbound : Sim P W m m' (Stmt.execDeclarators call env kind [(.name name, none)])
      (Stmt.execDeclarators call' env' kind [(.name name, none)])
      fun _ _ _ n' => n'.adapter = m'.adapter := by
    refine (sim_bindName hrel henv hname kind .undefined).bind fun _ hrel₁ _ hadapter => ?_
    exact .pure hrel₁ hadapter
  refine hbound.bind fun _ hrel₁ _ hadapter => .pure hrel₁ (.next fun hstrict => ?_)
  rw [Machine.frames_of_adapter hadapter]
  exact .refl (hopen hstrict)

/-- After an inserted statement has recorded something, another one runs on both sides. -/
theorem sim_recorded_kept {s t kept : Stmt}
    (hs : Sim P W m m' (pure ()) (s.exec call' env') (Passed P W m' (Advances m'.frames)))
    (hkept : ∀ {n'}, MachineRel P W m n' → (P.strict → Advances m'.frames n'.frames) →
      Sim P W m n' (t.exec call env) (kept.exec call' env') (Flows P place n'.frames)) :
    Sim P W m m' (t.exec call env) (Stmt.execList call' env' [s, kept])
      (Flows P place m'.frames) := by
  refine sim_inserted_cons hs fun hrel _ hframes => ?_
  rw [execList_singleton]
  exact (hkept hrel hframes).imp fun _ => .after hframes

/-! ## Functions -/

/-- Where the closure record of a function stands, what it captures is at hand. -/
theorem builds_closure (h : Equipped P W m env' call' m') {params : List String}
    {body body' : List Stmt} {self : Option (String × String)} {closure : Expr}
    (hwoven : WovenFunction standard params body ν self body' closure ν')
    (hseen : Seen W env' ν ((Stmt.freeNamesList Option.toList body).filter
      (· ∉ params ++ declaredIn body ++ (self.map Prod.fst).toList))) :
    Builds call' env' m' closure := by
  have hsources {kept : Names} (hnodup : (Fields.keys kept).Nodup)
      (hkept : ∀ n, kept.lookup n = some .captured →
        n ∈ (Stmt.freeNamesList Option.toList body).filter
          (· ∉ params ++ declaredIn body ++ (self.map Prod.fst).toList) ∧
        standard.primitives.mayCapture n = true) :
      ∀ source ∈ (ν.closeOver kept).2, source.2 = .captured → HasClosure W env' := by
    intro source hsource hcaptured
    rw [(Names.closeOver_eq ν kept).2] at hsource
    obtain ⟨entry, hentry, rfl⟩ := List.mem_map.mp hsource
    have hlookup := (Names.mem_captures_iff hnodup).mp (List.mem_map_of_mem hentry)
    obtain ⟨hfree, hmay⟩ := hkept _ hlookup
    refine hseen.resolve_right fun hown => ?_
    rw [hown _ hfree hmay] at hcaptured
    cases hcaptured
  cases hwoven with
  | anonymous _ woven =>
      obtain ⟨hnodup, hcaptured, -⟩ := exact_wovenBody (exact_stmts body rfl rfl) woven
      refine builds_closureRecord h none (hsources hnodup fun n hn => ?_)
      have hmem := (hcaptured n).mp hn
      simp only [List.mem_filter] at hmem ⊢
      exact ⟨⟨hmem.1.1, by simpa using hmem.2⟩, hmem.1.2⟩
  | named hfree hfreeSelf woven =>
      rename_i pos out inner name holder
      obtain ⟨hnodup, hcaptured, -⟩ := exact_wovenBody (exact_stmts body rfl rfl) woven
      refine builds_closureRecord h _ (hsources (Names.nodup_forget name hnodup) fun n hn => ?_)
      obtain ⟨hn, hne⟩ := Names.captured_forget_iff.mp hn
      have hmem := (hcaptured n).mp hn
      simp only [List.mem_filter] at hmem ⊢
      refine ⟨⟨hmem.1.1, ?_⟩, hmem.1.2⟩
      simpa [hne] using hmem.2

theorem sim_functionValue (hrel : MachineRel P W m m') (henv : EnvRel W env env')
    (hopen : P.strict → m'.frames ≠ []) {pos : Position} {self : Option String} {holder : String}
    {params : List String} {body body' : List Stmt} {closure : Expr}
    (hwoven : WovenFunction standard params body ν (self.map (·, holder)) body' closure ν')
    (hfits : P.FitsFunction params body) :
    Sim P W m m' ((Expr.function pos self params body).eval call env)
      ((Expr.function pos self params body').eval call' env') (Returned P m') := by
  have hself : self.isSome = true → ∀ name, self = some name →
      standard.options.isReserved name = false := by
    rintro - name rfl
    cases hwoven with
    | named hfree hfreeSelf woven => exact hfreeSelf
  have hclosure : ClosureRel P W ⟨self, params, body, env, self.isSome⟩
      ⟨self, params, body', env', self.isSome⟩ :=
    ⟨rfl, rfl, rfl, henv, wovenClosure_of_wovenFunction hwoven, hfits, hself⟩
  exact (sim_makeFunction hrel hclosure).imp fun _ hvalued => hvalued.1.returned hopen

/-! ## Calls -/

theorem plainCallee_of_callee {callee callee' : Expr}
    (h : (standard.callee callee).run ν = .ok (callee', ν')) : PlainCallee callee := by
  unfold Lower.callee at h
  split at h
  · exact .name _ _
  · exact absurd h run_throw_ne_ok
  · exact absurd h run_throw_ne_ok
  · obtain ⟨object', _, hobject, -⟩ := run_bind_eq_ok_iff.mp h
    exact .member _ _ hobject
  · exact absurd h run_throw_ne_ok

theorem plainCallee_console (pos npos : Position) (property : String) :
    PlainCallee (.member pos (.name npos "console") property) := by
  have hobject : (standard.expr (.name npos "console")).run Names.none =
      .ok (standard.builder "identifier" [.text "console"], Names.none) := by
    refine Lower.run_reference.mpr ?_
    rw [if_neg (by decide), if_pos (by decide)]
    exact ⟨rfl, rfl⟩
  exact .member pos property hobject

/-- What is called and the arguments are traced in order. -/
theorem gives_traced (h : Equipped P W m env' call' m') {e : Expr} (he : Builds call' env' m' e)
    {args traced : List Expr} (hargs : (standard.exprs args).run ν = .ok (traced, ν'))
    (hseen : Seen W env' ν (Expr.freeNamesList Option.toList args)) :
    ∃ vs k, Gives call' env' m' (e :: traced) vs k ∧ ∀ v ∈ vs, IsPlain v := by
  obtain ⟨v, n', hrun, hquiet, hv⟩ := he
  obtain ⟨vs, k, hgives, hvs⟩ := builds_exprs args hargs (h.quiet hquiet) hseen
  exact ⟨v :: vs, k, gives_cons hrun hquiet hgives, List.forall_mem_cons.mpr ⟨hv, hvs⟩⟩

theorem builds_methodCall (h : Equipped P W m env' call' m') {e : Expr}
    (he : Builds call' env' m' e) (method : String) {args traced : List Expr}
    (hargs : (standard.exprs args).run ν = .ok (traced, ν'))
    (hseen : Seen W env' ν (Expr.freeNamesList Option.toList args)) :
    Builds call' env' m' (standard.builder "methodCall" [e, .text method, .list traced]) := by
  obtain ⟨_, n', hrun, hquiet, identity, t, rfl, ht⟩ := he
  obtain ⟨vs, k, hgives, hvs⟩ := builds_exprs args hargs (h.quiet hquiet) hseen
  obtain ⟨place, l, hlist, rfl⟩ := gives_list hgives
  obtain ⟨ts, hts, hplain⟩ := mapM_asTrace
    ⟨"methodCall", [.trace identity t, .string method, .array place], l.store⟩ hvs
  refine builds_builder h (by decide) (by decide) (gives_cons hrun hquiet (gives_text hlist))
    (t := .methodCall t method ts) ?_ (Trace.plain_of_children rfl rfl ?_)
  · exact congrArg (Trace.methodCall t method <$> ·) hts
  · simpa [Trace.children, Trace.parts] using ⟨ht, hplain⟩

theorem builds_require (h : Equipped P W m env' call' m') (path : String) :
    Builds call' env' m' (standard.builder "primApp"
      [.text "require", .list [standard.builder "string" [.text path]]]) := by
  have hpath : Builds call' env' m' (standard.builder "string" [.text path]) :=
    builds_builder h (by decide) (by decide) (gives_text gives_nil) (t := .string path) rfl
      (Trace.plain_leaf rfl rfl rfl)
  obtain ⟨v, n', hrun, hquiet, hv⟩ := hpath
  obtain ⟨place, k, hlist, hitems⟩ := gives_list (gives_cons hrun hquiet gives_nil)
  obtain ⟨ts, hts, hplain⟩ := mapM_asTrace ⟨"primApp", [.string "require", .array place], k.store⟩
    (List.forall_mem_singleton.mpr hv)
  refine builds_builder h (by decide) (by decide) (gives_text hlist) (t := .primitive "require" ts)
    ?_ (Trace.plain_of_children rfl rfl (by simpa [Trace.children, Trace.parts] using hplain))
  rw [← hitems] at hts
  exact congrArg (Trace.primitive "require" <$> ·) hts

/-- The list that was opened for statements is left when the next ones follow. -/
theorem sim_exit (h : Poised P W m m' env env' call call' place) {x y : Running Flow}
    (hends : Sim P W m m' x y fun W' flow flow' n' =>
      ∃ scope, EndsIn P place scope F W' flow flow' n') :
    Sim P W m m' x (do
      match ← y with
      | .next => Stmt.execList call' env' [exitBlock standard]
      | flow => return flow) (Flows P place F) := by
  refine hends.after ?_
  rintro W' n n' flow flow' hle hrel - ⟨scope, ⟨rfl, rfl, hopens⟩ | ⟨-, hne, hflows⟩⟩
  · have hequipped : Equipped P W' n env' call' n' :=
      ⟨hrel, h.ready.mono hle, hle.home ▸ h.env.home, h.calls.applies⟩
    exact sim_inserted_cons
      (sim_exitBlock hequipped fun hstrict => Operation.leads_exit (hopens hstrict))
      fun hrel' _ hframes => .pure hrel' (.next hframes)
  · cases flow' with
    | next => exact absurd rfl hne
    | breakTo | returnWith => exact .pure hrel hflows

theorem sim_wovenCall (h : Poised P W m m' env env' call call' place) {name : String}
    {callee : Expr} {args : List Expr} {pos cpos : Position} {kind : DeclKind} {out : List Stmt}
    (hwoven : WovenCall standard name callee args
      (.declare pos kind [(.name name, some (.call cpos callee args))]) ν out ν')
    (hname : ¬ Hidden name)
    (hnames : ∀ n ∈ (Expr.call cpos callee args).freeNames Option.toList, ¬ Hidden n)
    (hseen : Seen W env' ν ((Expr.call cpos callee args).freeNames Option.toList)) :
    Sim P W m m'
      ((Stmt.declare pos kind [(.name name, some (.call cpos callee args))]).exec call env)
      (Stmt.execList call' env' out) (Flows P place m'.frames) := by
  have hkept {n' : Machine} {ν ν' : Names} {traced : List Expr} (hcallee : PlainCallee callee)
      (hargs : (standard.exprs args).run ν = .ok (traced, ν')) (hrel : MachineRel P W m n')
      (hopen : P.strict → n'.frames ≠ []) :
      Sim P W m n'
        ((Stmt.declare pos kind [(.name name, some (.call cpos callee args))]).exec call env)
        ((Stmt.declare pos kind [(.name name, some (.call cpos callee args))]).exec call' env')
        (Flows P place n'.frames) :=
    sim_declareValue h.env hname
      (sim_call h.calls hrel h.ready h.env hopen hcallee hargs hnames)
  have hopen := h.lists.ne_nil
  have hstill {n' : Machine} (hframes : P.strict → Advances m'.frames n'.frames) :
      P.strict → n'.frames ≠ [] := fun hstrict => (hframes hstrict).ne_nil
  cases hwoven with
  | require hkind =>
      rename_i path
      obtain ⟨⟨npos, rfl⟩, spos, rfl⟩ := classify_require hkind
      refine sim_recorded_kept (sim_traceLet h.equipped hopen name (builds_require h.equipped _))
        fun hrel hframes => ?_
      have hargs : (standard.exprs [.string spos path]).run ν =
          .ok ([standard.builder "string" [.text path]], ν) := rfl
      exact hkept (.name npos "require") hargs hrel (hstill hframes)
  | console hkind hargs =>
      rename_i method traced
      obtain ⟨mpos, npos, rfl⟩ := classify_console hkind
      obtain ⟨vs, k, hgives, hvs⟩ := builds_exprs args hargs h.equipped hseen.right
      have hevent := sim_tracePrimApp h.equipped hopen (Primitives.consoleEvent method) hgives hvs
      have hcallee := plainCallee_console mpos npos method
      split
      · exact sim_recorded_kept hevent fun hrel hframes =>
          hkept hcallee hargs hrel (hstill hframes)
      · refine sim_inserted_cons hevent fun {n'} hrel _ hframes => ?_
        have hequipped : Equipped P W m env' call' n' :=
          ⟨hrel, h.ready, h.env.home, h.calls.applies⟩
        refine (sim_recorded_kept (sim_traceLet hequipped (hstill hframes) name
          (builds_undefined hequipped)) fun hrel' hframes' => ?_).imp fun _ => .after hframes
        exact hkept hcallee hargs hrel' fun hstrict => (hframes' hstrict).ne_nil
  | method hkind hobject hargs =>
      rename_i method traced _
      obtain ⟨mpos, rfl⟩ := classify_method hkind
      have hbuilds := builds_methodCall h.equipped (builds_expr _ hobject h.equipped hseen.left)
        method hargs (hseen.right.uses (Lower.uses_expr Option.toList _ hobject))
      refine sim_recorded_kept (sim_traceLet h.equipped hopen name hbuilds)
        fun hrel hframes => ?_
      exact hkept (.member mpos method hobject) hargs hrel (hstill hframes)
  | function hkind hcallee hargs =>
      obtain ⟨vs, k, hgives, hvs⟩ := gives_traced h.equipped
        (builds_callee h.equipped hcallee hseen.left) hargs
        (hseen.right.uses (Lower.uses_callee Option.toList hcallee))
      refine sim_inserted_cons (sim_traceFunctionCall h.equipped hopen name hgives hvs)
        fun {n'} hrel _ hframes => ?_
      refine sim_exit (h.opened hrel hframes) ?_
      refine (hkept (plainCallee_of_callee hcallee) hargs hrel
        fun hstrict => (hframes hstrict).ne_nil).imp fun _ hflows => ?_
      exact ⟨.call, hflows.endsIn (fun _ hscope => by cases hscope) hframes⟩

/-! ## Expressions as statements -/

theorem sim_keptExpr (hopen : P.strict → m'.frames ≠ []) {pos : Position} {e : Expr}
    (he : Sim P W m m' (e.eval call env) (e.eval call' env') fun _ _ _ n' =>
      n'.adapter = m'.adapter) :
    Sim P W m m' ((Stmt.expr pos e).exec call env) ((Stmt.expr pos e).exec call' env')
      (Flows P place m'.frames) := by
  refine he.bind fun _ hrel _ hadapter => .pure hrel (.next fun hstrict => ?_)
  rw [Machine.frames_of_adapter hadapter]
  exact .refl (hopen hstrict)

theorem builds_updated (h : Equipped P W m env' call' m') (op : UpdateOp) {current : Expr}
    (hcurrent : Builds call' env' m' current) :
    Builds call' env' m' (standard.builder "binop"
      [.text op.binary.symbol, current, standard.builder "number" [.num 1.0]]) := by
  obtain ⟨_, n', hrun, hquiet, _, t, rfl, ht⟩ := hcurrent
  have hone : Builds call' env' n' (standard.builder "number" [.num 1.0]) :=
    builds_builder (h.quiet hquiet) (by decide) (by decide) (gives_cons rfl (.refl n') gives_nil)
      (t := .number 1.0) rfl (Trace.plain_leaf rfl rfl rfl)
  obtain ⟨_, k, hrun', hquiet', _, u, rfl, hu⟩ := hone
  refine builds_builder h (by decide) (by decide)
    (gives_text (gives_cons hrun hquiet (gives_cons hrun' hquiet' gives_nil)))
    (t := .binary op.binary t u) (by cases op <;> rfl)
    (Trace.plain_of_children rfl rfl (by simpa [Trace.children, Trace.parts] using ⟨ht, hu⟩))

theorem sim_wovenExpr (h : Poised P W m m' env env' call call' place) {pos : Position} {e : Expr}
    {out : List Stmt} (hwoven : WovenExpr standard (.expr pos e) ν e out ν')
    (hfits : P.FitsHere (.expr pos e)) (hseen : Seen W env' ν (e.freeNames Option.toList)) :
    Sim P W m m' ((Stmt.expr pos e).exec call env) (Stmt.execList call' env' out)
      (Flows P place m'.frames) := by
  have hopen := h.lists.ne_nil
  have hnames : ∀ n ∈ e.freeNames Option.toList, ¬ Hidden n := hfits.names
  cases hwoven with
  | assign hvalue htarget =>
      refine sim_recorded_kept (sim_traceSet h.equipped hopen (builds_target h.equipped htarget
        (hseen.left.uses (Lower.uses_expr Option.toList _ hvalue))) fun n' hquiet => ?_)
        fun hrel hframes => ?_
      · exact builds_expr _ hvalue (h.equipped.quiet hquiet) hseen.right
      · exact sim_keptExpr (fun hstrict => (hframes hstrict).ne_nil)
          (sim_assign hvalue htarget hrel h.env hnames)
  | update hname =>
      rename_i upos npos op isPrefix n current
      have hne : n ≠ "undefined" := fun heq => hfits.updates pos upos npos op isPrefix (heq ▸ rfl)
      refine sim_recorded_kept (sim_traceSet h.equipped hopen
        (builds_target_reference h.equipped hname hseen hne) fun n' hquiet => ?_)
        fun hrel hframes => ?_
      · exact builds_updated (h.equipped.quiet hquiet) op
          (builds_reference (h.equipped.quiet hquiet) hname hseen)
      · exact sim_keptExpr (fun hstrict => (hframes hstrict).ne_nil)
          (sim_update hrel h.env (hnames n (List.mem_singleton_self n)))
  | pure hexpr =>
      rw [execList_singleton]
      exact sim_keptExpr hopen
        ((sim_expr e hexpr h.rel h.env hnames).imp fun _ hvalued => hvalued.2.adapter)

end TraceLoom
