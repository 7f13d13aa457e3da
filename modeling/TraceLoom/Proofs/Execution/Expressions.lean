import TraceLoom.Proofs.Execution.Simulation

/-!
Expressions that lowering accepts mean the same on both sides.  They call nothing, so only values
are made.
-/

namespace TraceLoom

open Script Instrument Running

variable {P : Expectation} {W W' : World} {m m' n n' : Machine} {env env' : Environment}
  {call call' : Expr → Value → List Value → Running Value} {ν ν' : Names}

/-- Corresponding values, with nothing but values made on the second side. -/
def Valued (P : Expectation) (m : Machine) (W : World) (v v' : Value) (n : Machine) : Prop :=
  ValueRel P W v v' ∧ m.Quiet n

theorem Valued.after_quiet {k : Machine} {v v' : Value} (hquiet : m.Quiet n)
    (h : Valued P n W v v' k) : Valued P m W v v' k :=
  ⟨h.1, hquiet.trans h.2⟩

namespace Sim

theorem readName (hrel : MachineRel P W m m') (henv : EnvRel W env env') {x : String}
    (hx : ¬ Hidden x) :
    Sim P W m m' (Running.readName env x) (Running.readName env' x) (Valued P m') := by
  unfold Running.readName
  have hlookup := hrel.store.lookup? henv hx
  refine (Sim.read (r := ValueRel P W) hrel ?_).imp fun _ ⟨hW, hv, hn⟩ => ?_
  · generalize m.store.lookup? env x = v, m'.store.lookup? env' x = v' at hlookup ⊢
    cases hlookup with
    | some hv => exact .ok hv
    | none => exact .error nofun
  · exact ⟨hW ▸ hv, hn ▸ .refl m'⟩

theorem applyOperator (hrel : MachineRel P W m m') (op : BinaryOp) {v v' w w' : Value}
    (hv : ValueRel P W v v') (hw : ValueRel P W w w') :
    Sim P W m m' (Running.applyOperator op v w) (Running.applyOperator op v' w') (Valued P m') :=
  .get_bind (.pure hrel ⟨hrel.store.binary op hv hw, .refl _⟩)

theorem makeArray (hrel : MachineRel P W m m') {vs ws : List Value}
    (hvs : List.Forall₂ (ValueRel P W) vs ws) :
    Sim P W m m' (Running.make (Store.newArray vs.toArray))
      (Running.make (Store.newArray ws.toArray)) (Valued P m') := by
  obtain ⟨hstore, hv⟩ := hrel.store.newArray vs.toArray ws.toArray hvs
  refine (Sim.make (r := ValueRel P) hrel ⟨_, W.le_addArray _, hstore, hv⟩).imp
    fun _ ⟨hv, hn⟩ => ⟨hv, hn ▸ Machine.quiet_of_grows (.newArray _ _)⟩

theorem makeObject (hrel : MachineRel P W m m') {fs gs : Fields Value} (hfs : FieldsRel P W fs gs) :
    Sim P W m m' (Running.make (Store.newObject fs)) (Running.make (Store.newObject gs))
      (Valued P m') := by
  obtain ⟨hstore, hv⟩ := hrel.store.newObject hfs
  refine (Sim.make (r := ValueRel P) hrel ⟨_, W.le_addObject _, hstore, hv⟩).imp
    fun _ ⟨hv, hn⟩ => ⟨hv, hn ▸ Machine.quiet_of_grows (.newObject _ _)⟩

theorem readValue {f g : Store → Except EvalError Value} (hrel : MachineRel P W m m')
    (h : ResultRel (ValueRel P W) (f m.store) (g m'.store)) :
    Sim P W m m' (Running.read f) (Running.read g) (Valued P m') :=
  (Sim.read hrel h).imp fun _ ⟨hW, hv, hn⟩ => ⟨hW ▸ hv, hn ▸ .refl m'⟩

end Sim

/-! ## Expressions -/

theorem forall_append {p : String → Prop} {xs ys : List String} (h : ∀ n ∈ xs ++ ys, p n) :
    (∀ n ∈ xs, p n) ∧ ∀ n ∈ ys, p n :=
  List.forall_mem_append.mp h

mutual

theorem sim_expr {W : World} {m m' : Machine} {ν ν' : Names} {e' : Expr} :
    ∀ e : Expr, (standard.expr e).run ν = .ok (e', ν') → MachineRel P W m m' →
      EnvRel W env env' → (∀ n ∈ e.freeNames Option.toList, ¬ Hidden n) →
      Sim P W m m' (e.eval call env) (e.eval call' env') (Valued P m') := by
  intro e h hrel henv hnames
  cases e with
  | number pos x => exact .pure hrel ⟨.number x, .refl _⟩
  | string pos u => exact .pure hrel ⟨.string u, .refl _⟩
  | boolean pos b => exact .pure hrel ⟨.boolean b, .refl _⟩
  | name pos x => exact .readName hrel henv (hnames x (List.mem_singleton_self x))
  | null | function | call | assign | update => exact absurd h run_throw_ne_ok
  | array pos items =>
      simp only [Lower.expr, run_bind_eq_ok_iff, run_pure_eq_ok_iff, Prod.mk.injEq] at h
      obtain ⟨items', _, hitems, -, -⟩ := h
      refine (sim_exprs items hitems hrel henv hnames).bind fun _ hrel' _ ⟨hvs, hquiet⟩ => ?_
      exact (Sim.makeArray hrel' hvs).imp fun _ => .after_quiet hquiet
  | object pos entries =>
      simp only [Lower.expr, run_bind_eq_ok_iff, run_pure_eq_ok_iff, Prod.mk.injEq] at h
      obtain ⟨entries', _, hentries, -, -⟩ := h
      refine (sim_fields entries hentries hrel henv hnames).bind fun _ hrel' _ ⟨hfs, hquiet⟩ => ?_
      exact (Sim.makeObject hrel' hfs.ofPairs).imp fun _ => .after_quiet hquiet
  | member pos object property =>
      simp only [Lower.expr, run_bind_eq_ok_iff, run_pure_eq_ok_iff, Prod.mk.injEq] at h
      obtain ⟨object', _, hobject, -, -⟩ := h
      refine (sim_expr object hobject hrel henv hnames).bind fun _ hrel' _ ⟨hv, hquiet⟩ => ?_
      exact (Sim.readValue hrel' (hrel'.store.property hv property)).imp
        fun _ => .after_quiet hquiet
  | unary pos op operand =>
      simp only [Lower.expr, run_bind_eq_ok_iff, run_pure_eq_ok_iff, Prod.mk.injEq] at h
      obtain ⟨operand', _, hoperand, -, -⟩ := h
      refine (sim_expr operand hoperand hrel henv hnames).bind fun _ hrel' _ ⟨hv, hquiet⟩ => ?_
      exact .pure hrel' ⟨hv.unary op, hquiet⟩
  | index pos object index =>
      simp only [Lower.expr, run_bind_eq_ok_iff, run_pure_eq_ok_iff, Prod.mk.injEq] at h
      obtain ⟨object', ν₁, hobject, index', _, hindex, -, -⟩ := h
      obtain ⟨hnames, hnames'⟩ := forall_append hnames
      refine (sim_expr object hobject hrel henv hnames).bind fun hle hrel' _ ⟨hv, hquiet⟩ => ?_
      refine (sim_expr index hindex hrel' (henv.mono hle) hnames').bind
        fun hle' hrel'' _ ⟨hw, hquiet'⟩ => ?_
      exact (Sim.readValue hrel'' (hrel''.store.element (hv.mono hle') hw)).imp
        fun _ => .after_quiet (hquiet.trans hquiet')
  | binary pos op left right =>
      simp only [Lower.expr, run_bind_eq_ok_iff, run_pure_eq_ok_iff, Prod.mk.injEq] at h
      obtain ⟨left', ν₁, hleft, right', _, hright, -, -⟩ := h
      obtain ⟨hnames, hnames'⟩ := forall_append hnames
      refine (sim_expr left hleft hrel henv hnames).bind fun hle hrel' _ ⟨hv, hquiet⟩ => ?_
      have hright := (sim_expr right hright hrel' (henv.mono hle) hnames').imp
        fun _ => Valued.after_quiet hquiet
      have hleft := Sim.pure (Q := Valued P m') hrel' ⟨hv, hquiet⟩
      cases op with
      | and =>
          simp only [hv.isTruthy_eq]
          split
          · exact hright
          · exact hleft
      | or =>
          simp only [hv.isTruthy_eq]
          split
          · exact hleft
          · exact hright
      | _ =>
          refine hright.bind fun hle' hrel'' _ ⟨hw, hquiet'⟩ => ?_
          exact (Sim.applyOperator hrel'' _ (hv.mono hle') hw).imp
            fun _ => .after_quiet hquiet'
termination_by structural e => e

theorem sim_exprs {W : World} {m m' : Machine} {ν ν' : Names} {es' : List Expr} :
    ∀ es : List Expr, (standard.exprs es).run ν = .ok (es', ν') → MachineRel P W m m' →
      EnvRel W env env' → (∀ n ∈ Expr.freeNamesList Option.toList es, ¬ Hidden n) →
      Sim P W m m' (Expr.evalList call env es) (Expr.evalList call' env' es)
        fun W' vs ws n' => List.Forall₂ (ValueRel P W') vs ws ∧ m'.Quiet n' := by
  intro es h hrel henv hnames
  cases es with
  | nil => exact .pure hrel ⟨.nil, .refl _⟩
  | cons e es =>
      simp only [Lower.exprs, run_bind_eq_ok_iff, run_pure_eq_ok_iff, Prod.mk.injEq] at h
      obtain ⟨e', ν₁, he, es', _, hes, -, -⟩ := h
      obtain ⟨hnames, hnames'⟩ := forall_append hnames
      refine (sim_expr e he hrel henv hnames).bind fun hle hrel' _ ⟨hv, hquiet⟩ => ?_
      refine (sim_exprs es hes hrel' (henv.mono hle) hnames').bind
        fun hle' hrel'' _ ⟨hvs, hquiet'⟩ => ?_
      exact .pure hrel'' ⟨.cons (hv.mono hle') hvs, hquiet.trans hquiet'⟩
termination_by structural es => es

theorem sim_fields {W : World} {m m' : Machine} {ν ν' : Names} {es' : List (String × Expr)} :
    ∀ es : List (String × Expr), (standard.fields es).run ν = .ok (es', ν') → MachineRel P W m m' →
      EnvRel W env env' → (∀ n ∈ Expr.freeNamesEntries Option.toList es, ¬ Hidden n) →
      Sim P W m m' (Expr.evalEntries call env es) (Expr.evalEntries call' env' es)
        fun W' fs gs n' => FieldsRel P W' fs gs ∧ m'.Quiet n' := by
  intro es h hrel henv hnames
  cases es with
  | nil => exact .pure hrel ⟨.nil, .refl _⟩
  | cons entry es =>
      obtain ⟨key, e⟩ := entry
      simp only [Lower.fields, run_bind_eq_ok_iff, run_pure_eq_ok_iff, Prod.mk.injEq] at h
      obtain ⟨e', ν₁, he, es', _, hes, -, -⟩ := h
      obtain ⟨hnames, hnames'⟩ := forall_append hnames
      refine (sim_expr e he hrel henv hnames).bind fun hle hrel' _ ⟨hv, hquiet⟩ => ?_
      refine (sim_fields es hes hrel' (henv.mono hle) hnames').bind
        fun hle' hrel'' _ ⟨hfs, hquiet'⟩ => ?_
      exact .pure hrel'' ⟨.cons ⟨rfl, hv.mono hle'⟩ hfs, hquiet.trans hquiet'⟩
termination_by structural es => es

end

/-! ## Assignments -/

theorem sim_setName (hrel : MachineRel P W m m') (henv : EnvRel W env env') {x : String}
    (hx : ¬ Hidden x) {v v' : Value} (hv : ValueRel P W v v') :
    Sim P W m m' (setName env x v) (setName env' x v') fun _ _ _ n' =>
      n'.adapter = m'.adapter := by
  refine (Sim.read hrel (hrel.store.variableLocation henv hx)).bind fun _ hrel' _ h => ?_
  obtain ⟨rfl, hlocation, rfl⟩ := h
  exact (Sim.change hrel' (hrel'.store.put hlocation hv)).imp fun _ hn => by rw [hn.2]

theorem sim_setPart (hrel : MachineRel P W m m') {v v' key key' w w' : Value}
    (hv : ValueRel P W v v') (hkey : ValueRel P W key key') (hw : ValueRel P W w w') :
    Sim P W m m' (setPart v key w) (setPart v' key' w') fun _ _ _ n' =>
      n'.adapter = m'.adapter := by
  refine .get_bind ?_
  dsimp only
  rw [hrel.config]
  refine (Sim.read hrel (hrel.store.partLocation _ hv hkey)).bind fun _ hrel' _ h => ?_
  obtain ⟨rfl, hlocation, rfl⟩ := h
  exact (Sim.change hrel' (hrel'.store.put hlocation hw)).imp fun _ hn => by rw [hn.2]

theorem sim_assignTo {target target' : Expr} (h : (standard.target target).run ν = .ok (target', ν'))
    (hrel : MachineRel P W m m') (henv : EnvRel W env env')
    (hnames : ∀ n ∈ target.freeNames Option.toList, ¬ Hidden n) {v v' : Value}
    (hv : ValueRel P W v v') :
    Sim P W m m' (target.assignTo call env v) (target.assignTo call' env' v') fun _ _ _ n' =>
      n'.adapter = m'.adapter := by
  unfold Lower.target at h
  split at h
  · rename_i pos x
    exact sim_setName hrel henv (hnames x (List.mem_singleton_self x)) hv
  · rename_i pos object property
    split at h
    · exact absurd h run_throw_ne_ok
    · simp only [run_bind_eq_ok_iff, run_pure_eq_ok_iff, Prod.mk.injEq] at h
      obtain ⟨object', _, hobject, -, -⟩ := h
      refine (sim_expr object hobject hrel henv hnames).bind fun hle hrel' _ ⟨hbase, hquiet⟩ => ?_
      exact (sim_setPart hrel' hbase (.string property) (hv.mono hle)).imp
        fun _ hn => hn.trans hquiet.adapter
  · rename_i pos object index
    obtain ⟨hnames, hnames'⟩ := forall_append hnames
    split at h
    · exact absurd h run_throw_ne_ok
    · obtain ⟨_, _, -, h⟩ := run_bind_eq_ok_iff.mp h
      split at h
      · obtain ⟨_, _, hrefuse, -⟩ := run_bind_eq_ok_iff.mp h
        exact absurd hrefuse run_throw_ne_ok
      · simp only [run_bind_eq_ok_iff, run_pure_eq_ok_iff, Prod.mk.injEq] at h
        obtain ⟨object', ν₁, hobject, index', _, hindex, -, -⟩ := h
        refine (sim_expr object hobject hrel henv hnames).bind
          fun hle hrel' _ ⟨hbase, hquiet⟩ => ?_
        refine (sim_expr index hindex hrel' (henv.mono hle) hnames').bind
          fun hle' hrel'' _ ⟨hkey, hquiet'⟩ => ?_
        exact (sim_setPart hrel'' (hbase.mono hle') hkey (hv.mono (World.le_trans hle hle'))).imp
          fun _ hn => hn.trans (hquiet.trans hquiet').adapter
  · exact absurd h run_throw_ne_ok

theorem sim_assign {pos : Position} {target target' value value' : Expr} {ν₁ : Names}
    (hvalue : (standard.expr value).run ν = .ok (value', ν₁))
    (htarget : (standard.target target).run ν₁ = .ok (target', ν'))
    (hrel : MachineRel P W m m') (henv : EnvRel W env env')
    (hnames : ∀ n ∈ (Expr.assign pos .assign target value).freeNames Option.toList, ¬ Hidden n) :
    Sim P W m m' ((Expr.assign pos .assign target value).eval call env)
      ((Expr.assign pos .assign target value).eval call' env') fun _ _ _ n' =>
        n'.adapter = m'.adapter := by
  obtain ⟨hnames, hnames'⟩ := forall_append hnames
  refine (sim_expr value hvalue hrel henv hnames').bind fun hle hrel' _ ⟨hv, hquiet⟩ => ?_
  refine (sim_assignTo htarget hrel' (henv.mono hle) hnames hv).bind fun _ hrel'' _ hn => ?_
  exact .pure hrel'' (hn.trans hquiet.adapter)

theorem sim_update {pos npos : Position} {op : UpdateOp} {isPrefix : Bool} {x : String}
    (hrel : MachineRel P W m m') (henv : EnvRel W env env') (hx : ¬ Hidden x) :
    Sim P W m m' ((Expr.update pos op isPrefix (.name npos x)).eval call env)
      ((Expr.update pos op isPrefix (.name npos x)).eval call' env') fun _ _ _ n' =>
        n'.adapter = m'.adapter := by
  refine (Sim.readName hrel henv hx).bind fun hle hrel' _ ⟨hv, hquiet⟩ => ?_
  rw [hv.toNumber_eq]
  refine (Sim.applyOperator hrel' op.binary (.number _) (.number 1.0)).bind
    fun hle' hrel'' _ ⟨hw, hquiet'⟩ => ?_
  refine (sim_setName hrel'' (henv.mono (World.le_trans hle hle')) hx hw).bind
    fun _ hrel''' _ hn => ?_
  exact .pure hrel''' (hn.trans (hquiet.trans hquiet').adapter)

/-! ## Declarations -/

theorem sim_declare (hrel : MachineRel P W m m') (henv : EnvRel W env env') {x : String}
    (hx : ¬ Hidden x) {v v' : Value} (hv : ValueRel P W v v') (constant : Bool) :
    Sim P W m m' (change (Store.declare env x v constant)) (change (Store.declare env' x v' constant))
      fun W' _ _ n' => W' = W ∧ n' = { m' with store := m'.store.declare env' x v' constant } :=
  .change hrel (hrel.store.write (List.forall₂_cons.mp henv.scopes).1 hx ⟨hv, rfl⟩)

theorem sim_makeFunction (hrel : MachineRel P W m m') {c c' : Closure} (hc : ClosureRel P W c c') :
    Sim P W m m' (make (Store.newFunction c)) (make (Store.newFunction c'))
      fun W' v v' n' => Valued P m' W' v v' n' ∧ W'.blocks = W.blocks := by
  obtain ⟨hstore, hv⟩ := hrel.store.newFunction hc
  refine (Sim.make (r := fun W' v v' => ValueRel P W' v v' ∧ W'.blocks = W.blocks) hrel
    ⟨_, W.le_addIdentity _, hstore, hv, rfl⟩).imp fun _ ⟨⟨hv, hblocks⟩, hn⟩ => ?_
  exact ⟨⟨hv, hn ▸ Machine.quiet_of_grows (.newFunction _ _)⟩, hblocks⟩

/-- A new scope, which knows no variables yet. -/
structure Opened (W : World) (m : Machine) (env : Environment) (inner : Environment)
    (n : Machine) : Prop where
  bindings : n.store.bindings inner.own = []
  outer : inner.outer = env.own :: env.outer
  quiet : m.Quiet n
  fresh : inner.own ∉ W.blocks

theorem sim_openScope (hrel : MachineRel P W m m') (henv : EnvRel W env env') :
    Sim P W m m' (openScope env) (openScope env') fun W' inner inner' n' =>
      EnvRel W' inner inner' ∧ Opened W' m' env' inner' n' := by
  refine (Sim.make (r := fun W' inner inner' => EnvRel W' inner inner' ∧
    inner' = (m'.store.child env').1 ∧ W'.blocks = W.blocks) hrel
    ⟨_, W.le_addScope _, hrel.store.child env env', hrel.store.env_child henv, rfl, rfl⟩).imp ?_
  rintro W' inner inner' n' _ ⟨⟨hinner, rfl, hblocks⟩, rfl⟩
  refine ⟨hinner, ?_, rfl, Machine.quiet_of_grows (.child _ _), fun hmem => ?_⟩
  · exact ((Store.Grows.child env' m'.store).bindings _).trans
      (StoreRel.bindings_of_le (Nat.le_refl _))
  · exact Nat.lt_irrefl _ (hrel.store.furnished.blocks (hblocks ▸ hmem)).1

end TraceLoom
