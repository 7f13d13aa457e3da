import TraceLoom.Instrument.Source
import TraceLoom.Proofs.Execution.Preservation
import TraceLoom.Proofs.Instrument.Tracers
import TraceLoom.Proofs.Script.Spelled

/-!
An instrumented program in words.  What the instrumentation inserts only builds and records traces,
and in all the rest there is no name of its own.
-/

namespace TraceLoom.Instrument

open Script

variable {ν ν' : Names}

/-! ## Lowered expressions -/

section

variable {strict : Bool}

theorem tracer_num (x : Float) : Tracer IsNumber strict (standard.builder "number" [.num x]) :=
  .number ⟨_, x, rfl⟩

theorem tracer_source (n : String) (binding : Binding) :
    Tracer IsNumber strict (standard.source n binding) := by
  cases binding with
  | own => exact .build (by decide) (List.forall_mem_singleton.mpr .string)
  | captured =>
      exact .build (by decide)
        (List.forall_mem_cons.mpr ⟨.bound (.inl rfl), List.forall_mem_singleton.mpr .string⟩)

theorem tracer_reference {n : String} {pos : Position} {e' : Expr}
    (h : (standard.reference n pos).run ν = .ok (e', ν')) : Tracer IsNumber strict e' := by
  rw [Lower.run_reference] at h
  split at h
  · obtain ⟨rfl, -⟩ := h
    exact .undefined
  · split at h
    · obtain ⟨rfl, -⟩ := h
      exact .build (by decide) (List.forall_mem_singleton.mpr .string)
    · obtain ⟨rfl, -⟩ := h
      exact tracer_source n _

theorem tracer_closureRecord (self : Option (String × String)) (sources : List (String × Binding)) :
    Tracer IsNumber strict (standard.closureRecord self sources) := by
  refine .build (by decide) (List.forall_mem_singleton.mpr (.record ?_))
  refine List.forall_mem_append.mpr ⟨?_, ?_⟩
  · exact List.forall_mem_map.mpr fun (_, holder) _ => tracer_source holder .own
  · exact List.forall_mem_map.mpr fun (name, binding) _ => tracer_source name binding

end

mutual

/-- A lowered expression builds a trace. -/
theorem tracer_expr {ν ν' : Names} {e' : Expr} : ∀ {strict : Bool} (e : Expr),
    (standard.expr e).run ν = .ok (e', ν') → Tracer IsNumber strict e' := by
  intro strict e h
  cases e with
  | number pos x =>
      obtain ⟨rfl, -⟩ := Prod.mk.inj (run_pure_eq_ok_iff.mp h)
      exact tracer_num x
  | string pos s =>
      obtain ⟨rfl, -⟩ := Prod.mk.inj (run_pure_eq_ok_iff.mp h)
      exact .build (by decide) (List.forall_mem_singleton.mpr .string)
  | boolean pos b =>
      obtain ⟨rfl, -⟩ := Prod.mk.inj (run_pure_eq_ok_iff.mp h)
      exact .build (by decide) (List.forall_mem_singleton.mpr .boolean)
  | name pos n => exact tracer_reference h
  | null | function | call | assign | update => exact absurd h run_throw_ne_ok
  | array pos items =>
      simp only [Lower.expr, run_bind_eq_ok_iff, run_pure_eq_ok_iff, Prod.mk.injEq] at h
      obtain ⟨items', _, hitems, rfl, -⟩ := h
      exact .build (by decide) (List.forall_mem_singleton.mpr (.list (tracer_exprs items hitems)))
  | object pos entries =>
      simp only [Lower.expr, run_bind_eq_ok_iff, run_pure_eq_ok_iff, Prod.mk.injEq] at h
      obtain ⟨entries', _, hentries, rfl, -⟩ := h
      exact .build (by decide)
        (List.forall_mem_singleton.mpr (.record (tracer_fields entries hentries)))
  | member pos object property =>
      simp only [Lower.expr, run_bind_eq_ok_iff, run_pure_eq_ok_iff, Prod.mk.injEq] at h
      obtain ⟨object', _, hobject, rfl, -⟩ := h
      exact .build (by decide) (List.forall_mem_cons.mpr
        ⟨tracer_expr object hobject, List.forall_mem_singleton.mpr .string⟩)
  | unary pos op operand =>
      simp only [Lower.expr, run_bind_eq_ok_iff, run_pure_eq_ok_iff, Prod.mk.injEq] at h
      obtain ⟨operand', _, hoperand, rfl, -⟩ := h
      exact .build (by decide) (List.forall_mem_cons.mpr
        ⟨.string, List.forall_mem_singleton.mpr (tracer_expr operand hoperand)⟩)
  | index pos object index =>
      simp only [Lower.expr, run_bind_eq_ok_iff, run_pure_eq_ok_iff, Prod.mk.injEq] at h
      obtain ⟨object', ν₁, hobject, index', _, hindex, rfl, -⟩ := h
      exact .build (by decide) (List.forall_mem_cons.mpr
        ⟨tracer_expr object hobject, List.forall_mem_singleton.mpr (tracer_expr index hindex)⟩)
  | binary pos op left right =>
      simp only [Lower.expr, run_bind_eq_ok_iff, run_pure_eq_ok_iff, Prod.mk.injEq] at h
      obtain ⟨left', ν₁, hleft, right', _, hright, rfl, -⟩ := h
      exact .build (by decide) (List.forall_mem_cons.mpr ⟨.string, List.forall_mem_cons.mpr
        ⟨tracer_expr left hleft, List.forall_mem_singleton.mpr (tracer_expr right hright)⟩⟩)
termination_by structural _ e => e

theorem tracer_exprs {ν ν' : Names} {es' : List Expr} : ∀ {strict : Bool} (es : List Expr),
    (standard.exprs es).run ν = .ok (es', ν') → ∀ e ∈ es', Tracer IsNumber strict e := by
  intro strict es h
  cases es with
  | nil =>
      obtain ⟨rfl, -⟩ := Prod.mk.inj (run_pure_eq_ok_iff.mp h)
      exact List.forall_mem_nil _
  | cons e es =>
      simp only [Lower.exprs, run_bind_eq_ok_iff, run_pure_eq_ok_iff, Prod.mk.injEq] at h
      obtain ⟨e', ν₁, he, es', _, hes, rfl, -⟩ := h
      exact List.forall_mem_cons.mpr ⟨tracer_expr e he, tracer_exprs es hes⟩
termination_by structural _ es => es

theorem tracer_fields {ν ν' : Names} {es' : List (String × Expr)} :
    ∀ {strict : Bool} (es : List (String × Expr)),
      (standard.fields es).run ν = .ok (es', ν') → ∀ entry ∈ es', Tracer IsNumber strict entry.2 := by
  intro strict es h
  cases es with
  | nil =>
      obtain ⟨rfl, -⟩ := Prod.mk.inj (run_pure_eq_ok_iff.mp h)
      exact List.forall_mem_nil _
  | cons entry es =>
      obtain ⟨key, e⟩ := entry
      simp only [Lower.fields, run_bind_eq_ok_iff, run_pure_eq_ok_iff, Prod.mk.injEq] at h
      obtain ⟨e', ν₁, he, es', _, hes, rfl, -⟩ := h
      exact List.forall_mem_cons.mpr ⟨tracer_expr e he, tracer_fields es hes⟩
termination_by structural _ es => es

end

theorem tracer_callee {strict : Bool} {e e' : Expr} (h : (standard.callee e).run ν = .ok (e', ν')) :
    Tracer IsNumber strict e' := by
  unfold Lower.callee at h
  split at h
  · exact tracer_reference h
  · exact absurd h run_throw_ne_ok
  · exact absurd h run_throw_ne_ok
  · rename_i object property _ _
    simp only [run_bind_eq_ok_iff, run_pure_eq_ok_iff, Prod.mk.injEq] at h
    obtain ⟨object', _, hobject, rfl, -⟩ := h
    exact .build (by decide) (List.forall_mem_cons.mpr
      ⟨tracer_expr object hobject, List.forall_mem_singleton.mpr .string⟩)
  · exact absurd h run_throw_ne_ok

theorem tracer_target {strict : Bool} {e e' : Expr} (h : (standard.target e).run ν = .ok (e', ν')) :
    Tracer IsNumber strict e' := by
  unfold Lower.target at h
  split at h
  · split at h
    · exact absurd h run_throw_ne_ok
    · exact tracer_reference h
  · rename_i object property
    split at h
    · exact absurd h run_throw_ne_ok
    · simp only [run_bind_eq_ok_iff, run_pure_eq_ok_iff, Prod.mk.injEq] at h
      obtain ⟨object', _, hobject, rfl, -⟩ := h
      exact .build (by decide) (List.forall_mem_cons.mpr ⟨tracer_expr object hobject,
        List.forall_mem_singleton.mpr (.build (by decide) (List.forall_mem_singleton.mpr .string))⟩)
  · rename_i object index
    split at h
    · exact absurd h run_throw_ne_ok
    · obtain ⟨_, _, -, h⟩ := run_bind_eq_ok_iff.mp h
      split at h
      · obtain ⟨_, _, hrefuse, -⟩ := run_bind_eq_ok_iff.mp h
        exact absurd hrefuse run_throw_ne_ok
      · simp only [run_bind_eq_ok_iff, run_pure_eq_ok_iff, Prod.mk.injEq] at h
        obtain ⟨object', _, hobject, index', _, hindex, rfl, -⟩ := h
        exact .build (by decide) (List.forall_mem_cons.mpr
          ⟨tracer_expr object hobject, List.forall_mem_singleton.mpr (tracer_expr index hindex)⟩)
  · exact absurd h run_throw_ne_ok

/-! ## Inserted statements -/

/-- The vocabulary of instrumented programs. -/
def written : Vocabulary where
  own n := IsName n ∧ ¬ Hidden n
  self n := IsName n ∧ standard.options.isReserved n = false
  label := IsName
  property w := isNameText w = true
  inserted := Inserted IsNumber
  self_of_own h := ⟨h.1, isReserved_of_not_hidden h.2⟩
  label_of_own h := h.1
  not_block := nofun
  not_function := nofun

theorem inserted_traceCall {operation : String} {args : List Expr} (hmem : operation ∈ recordings)
    (hargs : ∀ e ∈ args, Tracer IsNumber false e) :
    Inserted IsNumber (traceCall standard operation args) :=
  .record hmem hargs .intro

theorem inserted_traceLet (name : String) {value : Expr} (h : Tracer IsNumber false value) :
    Inserted IsNumber (traceLet standard name value) :=
  inserted_traceCall (by decide)
    (List.forall_mem_cons.mpr ⟨.string, List.forall_mem_singleton.mpr h⟩)

theorem inserted_exitBlock : Inserted IsNumber (exitBlock standard) :=
  inserted_traceCall (by decide) (List.forall_mem_nil _)

theorem inserted_branch {operation name : String} (hmem : operation ∈ recordings) (hname : IsTest name) :
    Inserted IsNumber (traceCall standard operation [.ident name]) :=
  inserted_traceCall hmem (List.forall_mem_singleton.mpr (.bound (.inr (.inl hname))))

theorem inserted_break {label value : Expr} (hlabel : Tracer IsNumber false label)
    (hvalue : Tracer IsNumber false value) :
    Inserted IsNumber (traceCall standard "traceBreak" [label, value]) :=
  inserted_traceCall (by decide)
    (List.forall_mem_cons.mpr ⟨hlabel, List.forall_mem_singleton.mpr hvalue⟩)

theorem generated_argument (i : Nat) : Generated ("$p" ++ toString i) :=
  .inr (.inr ⟨i, rfl⟩)

theorem inserted_of_mem_prologue {params : List String} {s : Stmt}
    (h : s ∈ prologue standard params) : Inserted IsNumber s := by
  rcases List.mem_cons.mp h with rfl | h
  · refine .prologue (List.forall_mem_cons.mpr ⟨.inl rfl, ?_⟩) ⟨_, _, rfl⟩ .intro
    exact List.forall_mem_map.mpr fun i _ => generated_argument i
  · obtain ⟨⟨param, argument⟩, hmem, rfl⟩ := List.mem_map.mp h
    obtain ⟨i, -, rfl⟩ := List.mem_map.mp (List.of_mem_zip hmem).2
    exact inserted_traceLet param (.bound (generated_argument i))

theorem properList_inserted {ss : List Stmt} (h : ∀ s ∈ ss, Inserted IsNumber s) :
    Stmt.ProperList written ss :=
  Stmt.properList_iff.mpr fun s hs => .inl (h s hs)

/-! ## Expressions of the program -/

mutual

/-- An expression that can be lowered has no function in it, so its names are its free names. -/
theorem proper_of_expr {ν ν' : Names} {e' : Expr} : ∀ e : Expr,
    (standard.expr e).run ν = .ok (e', ν') → e.Proper spelled →
      (∀ n ∈ e.freeNames Option.toList, ¬ Hidden n) → e.Proper written := by
  intro e h hspelled hnames
  cases e with
  | name pos n => exact ⟨hspelled, hnames n (List.mem_singleton_self n)⟩
  | number | string | boolean => trivial
  | null | function | call | assign | update => exact absurd h run_throw_ne_ok
  | array pos items =>
      obtain ⟨_, _, hitems, -⟩ := run_bind_eq_ok_iff.mp h
      exact proper_of_exprs items hitems hspelled hnames
  | object pos entries =>
      obtain ⟨_, _, hentries, -⟩ := run_bind_eq_ok_iff.mp h
      exact proper_of_fields entries hentries hspelled hnames
  | member pos object property =>
      obtain ⟨_, _, hobject, -⟩ := run_bind_eq_ok_iff.mp h
      exact ⟨proper_of_expr object hobject hspelled.1 hnames, hspelled.2⟩
  | unary pos op operand =>
      obtain ⟨_, _, hoperand, -⟩ := run_bind_eq_ok_iff.mp h
      exact proper_of_expr operand hoperand hspelled hnames
  | index pos object index =>
      obtain ⟨_, _, hobject, h⟩ := run_bind_eq_ok_iff.mp h
      obtain ⟨_, _, hindex, -⟩ := run_bind_eq_ok_iff.mp h
      obtain ⟨hleft, hright⟩ := List.forall_mem_append.mp hnames
      exact ⟨proper_of_expr object hobject hspelled.1 hleft,
        proper_of_expr index hindex hspelled.2 hright⟩
  | binary pos op left right =>
      obtain ⟨_, _, hleft, h⟩ := run_bind_eq_ok_iff.mp h
      obtain ⟨_, _, hright, -⟩ := run_bind_eq_ok_iff.mp h
      obtain ⟨hl, hr⟩ := List.forall_mem_append.mp hnames
      exact ⟨proper_of_expr left hleft hspelled.1 hl, proper_of_expr right hright hspelled.2 hr⟩
termination_by structural e => e

theorem proper_of_exprs {ν ν' : Names} {es' : List Expr} : ∀ es : List Expr,
    (standard.exprs es).run ν = .ok (es', ν') → Expr.ProperList spelled es →
      (∀ n ∈ Expr.freeNamesList Option.toList es, ¬ Hidden n) → Expr.ProperList written es := by
  intro es h hspelled hnames
  cases es with
  | nil => trivial
  | cons e es =>
      obtain ⟨_, _, he, h⟩ := run_bind_eq_ok_iff.mp h
      obtain ⟨_, _, hes, -⟩ := run_bind_eq_ok_iff.mp h
      obtain ⟨hfirst, hrest⟩ := List.forall_mem_append.mp hnames
      exact ⟨proper_of_expr e he hspelled.1 hfirst, proper_of_exprs es hes hspelled.2 hrest⟩
termination_by structural es => es

theorem proper_of_fields {ν ν' : Names} {es' : List (String × Expr)} : ∀ es : List (String × Expr),
    (standard.fields es).run ν = .ok (es', ν') → Expr.ProperEntries spelled es →
      (∀ n ∈ Expr.freeNamesEntries Option.toList es, ¬ Hidden n) →
        Expr.ProperEntries written es := by
  intro es h hspelled hnames
  cases es with
  | nil => trivial
  | cons entry es =>
      obtain ⟨key, e⟩ := entry
      obtain ⟨_, _, he, h⟩ := run_bind_eq_ok_iff.mp h
      obtain ⟨_, _, hes, -⟩ := run_bind_eq_ok_iff.mp h
      obtain ⟨hfirst, hrest⟩ := List.forall_mem_append.mp hnames
      exact ⟨proper_of_expr e he hspelled.1 hfirst, proper_of_fields es hes hspelled.2 hrest⟩
termination_by structural es => es

end

theorem proper_of_callee {e e' : Expr} (h : (standard.callee e).run ν = .ok (e', ν'))
    (hspelled : e.Proper spelled) (hnames : ∀ n ∈ e.freeNames Option.toList, ¬ Hidden n) :
    e.Proper written := by
  unfold Lower.callee at h
  split at h
  · exact ⟨hspelled, hnames _ (List.mem_singleton_self _)⟩
  · exact absurd h run_throw_ne_ok
  · exact absurd h run_throw_ne_ok
  · rename_i object property _ _
    obtain ⟨_, _, hobject, -⟩ := run_bind_eq_ok_iff.mp h
    exact ⟨proper_of_expr object hobject hspelled.1 hnames, hspelled.2⟩
  · exact absurd h run_throw_ne_ok

theorem proper_of_target {e e' : Expr} (h : (standard.target e).run ν = .ok (e', ν'))
    (hspelled : e.Proper spelled) (hnames : ∀ n ∈ e.freeNames Option.toList, ¬ Hidden n) :
    e.Proper written := by
  unfold Lower.target at h
  split at h
  · exact ⟨hspelled, hnames _ (List.mem_singleton_self _)⟩
  · rename_i object property
    split at h
    · exact absurd h run_throw_ne_ok
    · obtain ⟨_, _, hobject, -⟩ := run_bind_eq_ok_iff.mp h
      exact ⟨proper_of_expr object hobject hspelled.1 hnames, hspelled.2⟩
  · rename_i object index
    split at h
    · exact absurd h run_throw_ne_ok
    · obtain ⟨_, _, -, h⟩ := run_bind_eq_ok_iff.mp h
      split at h
      · obtain ⟨_, _, hrefuse, -⟩ := run_bind_eq_ok_iff.mp h
        exact absurd hrefuse run_throw_ne_ok
      · obtain ⟨_, _, hobject, h⟩ := run_bind_eq_ok_iff.mp h
        obtain ⟨_, _, hindex, -⟩ := run_bind_eq_ok_iff.mp h
        obtain ⟨hleft, hright⟩ := List.forall_mem_append.mp hnames
        exact ⟨proper_of_expr object hobject hspelled.1 hleft,
          proper_of_expr index hindex hspelled.2 hright⟩
  · exact absurd h run_throw_ne_ok

/-! ## Woven statements -/

variable {place : Place}

/-- Around a declaration whose value is a call stands what is inserted. -/
theorem proper_of_wovenCall {name : String} {callee : Expr} {args : List Expr} {out : List Stmt}
    {pos cpos : Position} {kind : DeclKind}
    (hspelled : (Expr.call cpos callee args).Proper spelled)
    (hnames : ∀ n ∈ (Expr.call cpos callee args).freeNames Option.toList, ¬ Hidden n)
    (hname : IsName name ∧ ¬ Hidden name)
    (h : WovenCall standard name callee args
      (.declare pos kind [(.name name, some (.call cpos callee args))]) ν out ν') :
    Stmt.ProperList written out := by
  obtain ⟨hcallee, hargs⟩ := List.forall_mem_append.mp hnames
  have hkept (hproper : callee.Proper written ∧ Expr.ProperList written args) :
      Stmt.ProperList written [.declare pos kind [(.name name, some (.call cpos callee args))]] :=
    properList_singleton ⟨List.forall_mem_singleton.mpr hname, hproper, trivial⟩
  cases h with
  | require hkind =>
      obtain ⟨⟨_, rfl⟩, _, rfl⟩ := classify_require hkind
      refine ⟨.inl (inserted_traceLet name (.build (by decide) ?_)), hkept ⟨?_, trivial, trivial⟩⟩
      · refine List.forall_mem_cons.mpr ⟨.string, List.forall_mem_singleton.mpr (.list ?_)⟩
        exact List.forall_mem_singleton.mpr
          (.build (by decide) (List.forall_mem_singleton.mpr .string))
      · exact ⟨hspelled.1, hcallee _ (List.mem_singleton_self _)⟩
  | console hkind htraced =>
      obtain ⟨_, _, rfl⟩ := classify_console hkind
      rw [List.cons_append]
      refine ⟨.inl (inserted_traceCall (by decide) (List.forall_mem_cons.mpr
        ⟨.string, List.forall_mem_singleton.mpr (.list (tracer_exprs args htraced))⟩)), ?_⟩
      refine properList_append.mpr ⟨?_, hkept ⟨⟨?_, hspelled.1.2⟩,
        proper_of_exprs args htraced hspelled.2 hargs⟩⟩
      · split
        · trivial
        · exact properList_inserted (List.forall_mem_singleton.mpr (inserted_traceLet name .undefined))
      · exact ⟨hspelled.1.1, hcallee _ (List.mem_singleton_self _)⟩
  | method hkind hobject htraced =>
      rename_i object object' method traced _
      obtain ⟨_, rfl⟩ := classify_method hkind
      refine ⟨.inl (inserted_traceLet name (.build (by decide) ?_)), hkept
        ⟨⟨proper_of_expr object hobject hspelled.1.1 hcallee, hspelled.1.2⟩,
          proper_of_exprs args htraced hspelled.2 hargs⟩⟩
      exact List.forall_mem_cons.mpr ⟨tracer_expr object hobject, List.forall_mem_cons.mpr
        ⟨.string, List.forall_mem_singleton.mpr (.list (tracer_exprs args htraced))⟩⟩
  | function hkind hlowered htraced =>
      refine ⟨.inl (inserted_traceCall (by decide) (List.forall_mem_cons.mpr
        ⟨.string, List.forall_mem_singleton.mpr (.list (List.forall_mem_cons.mpr
          ⟨tracer_callee hlowered, tracer_exprs args htraced⟩))⟩)), ?_⟩
      exact properList_append.mpr ⟨hkept ⟨proper_of_callee hlowered hspelled.1 hcallee,
        proper_of_exprs args htraced hspelled.2 hargs⟩,
        properList_inserted (List.forall_mem_singleton.mpr inserted_exitBlock)⟩

/-- Before an expression that is a statement stands what is inserted. -/
theorem proper_of_wovenExpr {pos : Position} {e : Expr} {out : List Stmt}
    (hspelled : e.Proper spelled) (hnames : ∀ n ∈ e.freeNames Option.toList, ¬ Hidden n)
    (h : WovenExpr standard (.expr pos e) ν e out ν') : Stmt.ProperList written out := by
  have hkept (he : e.Proper written) : Stmt.ProperList written [.expr pos e] :=
    properList_singleton he
  cases h with
  | assign hvalue htarget =>
      rename_i apos target target' value value' _
      obtain ⟨hleft, hright⟩ := List.forall_mem_append.mp hnames
      refine ⟨.inl (inserted_traceCall (by decide) (List.forall_mem_cons.mpr ⟨tracer_target htarget,
        List.forall_mem_singleton.mpr (tracer_expr value hvalue)⟩)), hkept ⟨?_, ?_⟩⟩
      · exact proper_of_target htarget hspelled.1 hleft
      · exact proper_of_expr value hvalue hspelled.2 hright
  | update hname =>
      refine ⟨.inl (inserted_traceCall (by decide) (List.forall_mem_cons.mpr
        ⟨tracer_reference hname, List.forall_mem_singleton.mpr (.build (by decide) ?_)⟩)),
        hkept ⟨hspelled, hnames _ (List.mem_singleton_self _)⟩⟩
      exact List.forall_mem_cons.mpr ⟨.string, List.forall_mem_cons.mpr
        ⟨tracer_reference hname, List.forall_mem_singleton.mpr (tracer_num 1.0)⟩⟩
  | pure hexpr => exact hkept (proper_of_expr e hexpr hspelled hnames)

/-- A list of statements keeps to the vocabulary when it is woven. -/
def KeepsWords (body : List Stmt) : Prop :=
  ∀ {place : Place} {ν ν' : Names} {out : List Stmt}, Stmt.ProperList spelled body →
    Stmt.EverywhereIn (NamesFit fun n => ¬ Hidden n) body →
    Weaves (stmts standard place body) ν out ν' → Stmt.ProperList written out

theorem proper_of_wovenBlock {body out : List Stmt} (hbody : KeepsWords body)
    (hspelled : Stmt.ProperList spelled body)
    (hnames : Stmt.EverywhereIn (NamesFit fun n => ¬ Hidden n) body)
    (h : WovenBlock standard place body ν out ν') : Stmt.ProperList written out := by
  obtain ⟨-, -, hwoven⟩ := h
  exact hbody hspelled hnames hwoven

theorem proper_of_wovenFunction {params : List String} {body out : List Stmt}
    {self : Option (String × String)} {closure : Expr} (hbody : KeepsWords body)
    (hspelled : Stmt.ProperList spelled body)
    (hnames : Stmt.EverywhereIn (NamesFit fun n => ¬ Hidden n) body)
    (h : WovenFunction standard params body ν self out closure ν') :
    Stmt.ProperList written out ∧ Tracer IsNumber false closure ∧
      ∀ entry ∈ self, standard.options.isReserved entry.1 = false := by
  have hwritten {inner inner' : Names} {woven : List Stmt}
      (hwoven : Weaves (stmts standard .functionBody body) inner woven inner') :
      Stmt.ProperList written (prologue standard params ++ woven ++ [exitBlock standard]) :=
    properList_append.mpr ⟨properList_append.mpr
      ⟨properList_inserted fun _ => inserted_of_mem_prologue, hbody hspelled hnames hwoven⟩,
      properList_inserted (List.forall_mem_singleton.mpr inserted_exitBlock)⟩
  cases h with
  | anonymous _ hwoven =>
      obtain ⟨-, -, hwoven⟩ := hwoven
      exact ⟨hwritten hwoven, tracer_closureRecord _ _, nofun⟩
  | named _ hself hwoven =>
      obtain ⟨-, -, hwoven⟩ := hwoven
      refine ⟨hwritten hwoven, tracer_closureRecord _ _, fun entry hentry => ?_⟩
      cases hentry
      exact hself

/-- A statement behind an inserted one. -/
theorem properList_behind {s t : Stmt} (ht : Inserted IsNumber t) (hs : s.Ordinary written) :
    Stmt.ProperList written [t, s] :=
  ⟨.inl ht, properList_singleton hs⟩

/-- A statement between inserted ones. -/
theorem properList_between {s t u : Stmt} (ht : Inserted IsNumber t) (hu : Inserted IsNumber u)
    (hs : s.Ordinary written) : Stmt.ProperList written [t, s, u] :=
  ⟨.inl ht, .inr hs, properList_inserted (List.forall_mem_singleton.mpr hu)⟩

mutual

/-- What a statement of a program is woven into keeps to the vocabulary. -/
theorem proper_of_woven (s : Stmt) {place : Place} {ν ν' : Names} {out : List Stmt}
    (hspelled : s.Ordinary spelled) (hnames : s.Everywhere (NamesFit fun n => ¬ Hidden n))
    (h : Woven standard place ν s out ν') : Stmt.ProperList written out := by
  have hhere := hnames.here
  cases h with
  | letFunction hwoven =>
      rename_i pos fpos kind name self params body body' closure _
      obtain ⟨hname, hvalue, -⟩ := hspelled
      obtain ⟨hself, hparams, hbody⟩ := hvalue
      obtain ⟨hbody', hclosure, hreserved⟩ :=
        proper_of_wovenFunction (keepsWords body) hbody hnames.2 hwoven
      refine properList_behind (inserted_traceLet name hclosure) ?_
      refine ⟨List.forall_mem_singleton.mpr ⟨hname name (List.mem_singleton_self _), ?_⟩,
        ⟨fun n hn => ⟨hself n hn, ?_⟩, fun n hn => ⟨hparams n hn, ?_⟩, hbody'⟩, trivial⟩
      · exact hhere name (by simp [declared, Pattern.names])
      · exact hreserved (n, name) (by simpa using hn)
      · exact hhere n (by simp [Stmt.params, hn])
  | letCall hwoven =>
      rename_i pos cpos kind name callee args _
      obtain ⟨hname, hvalue, -⟩ := hspelled
      refine proper_of_wovenCall hvalue (fun n hn => hhere n ?_)
        ⟨hname name (List.mem_singleton_self _), hhere name (by simp [declared, Pattern.names])⟩ hwoven
      simpa [Stmt.freeNames, Stmt.freeNamesDeclarators] using .inr (.inr hn)
  | letValue hvalue =>
      rename_i pos kind name value traced _
      obtain ⟨hname, hproper, -⟩ := hspelled
      refine properList_behind (inserted_traceLet name (tracer_expr value hvalue)) ?_
      refine ⟨List.forall_mem_singleton.mpr ⟨hname name (List.mem_singleton_self _), ?_⟩, ?_, trivial⟩
      · exact hhere name (by simp [declared, Pattern.names])
      · exact proper_of_expr value hvalue hproper fun n hn => hhere n
          (by simp [Stmt.freeNames, Stmt.freeNamesDeclarators, hn])
  | letNone =>
      rename_i pos kind name
      obtain ⟨hname, -⟩ := hspelled
      refine properList_behind (inserted_traceLet name .undefined) ?_
      refine ⟨List.forall_mem_singleton.mpr ⟨hname name (List.mem_singleton_self _), ?_⟩, trivial⟩
      exact hhere name (by simp [declared, Pattern.names])
  | function hwoven =>
      rename_i pos name params body body' closure
      obtain ⟨hname, hparams, hbody⟩ := hspelled
      obtain ⟨hbody', hclosure, -⟩ :=
        proper_of_wovenFunction (keepsWords body) hbody hnames.2 hwoven
      refine properList_behind (inserted_traceLet name hclosure) ?_
      refine ⟨⟨hname, isReserved_of_not_hidden (hhere name (by simp [declared]))⟩,
        fun n hn => ⟨hparams n hn, hhere n (by simp [Stmt.params, hn])⟩, hbody'⟩
  | ifThen htest hname hyes hjoin =>
      rename_i pos test traced consequent yes name ν₁ ν₂
      obtain ⟨hproper, hconsequent⟩ := hspelled
      refine properList_between (.test hname (tracer_expr test htest)) inserted_exitBlock ?_
      refine ⟨proper_of_expr test htest hproper fun n hn => hhere n (by simp [Stmt.freeNames, hn]),
        ⟨.inl (inserted_branch (by decide) hname), ?_⟩,
        properList_inserted (List.forall_mem_singleton.mpr (inserted_branch (by decide) hname))⟩
      exact proper_of_wovenBlock (keepsWords consequent) hconsequent hnames.2 hyes
  | ifElse htest hname hyes hno hjoin =>
      rename_i pos test traced consequent alternate yes no name ν₁ ν₂ ν₃
      obtain ⟨hproper, hconsequent, halternate⟩ := hspelled
      refine properList_between (.test hname (tracer_expr test htest)) inserted_exitBlock ?_
      refine ⟨proper_of_expr test htest hproper fun n hn => hhere n (by simp [Stmt.freeNames, hn]),
        ⟨.inl (inserted_branch (by decide) hname), ?_⟩, .inl (inserted_branch (by decide) hname), ?_⟩
      · exact proper_of_wovenBlock (keepsWords consequent) hconsequent hnames.2.1 hyes
      · exact proper_of_wovenBlock (keepsWords alternate) halternate hnames.2.2 hno
  | whileDo htest hbody =>
      rename_i pos test traced body body' ν₁
      obtain ⟨hproper, hspelled⟩ := hspelled
      refine properList_between (inserted_traceCall (by decide)
        (List.forall_mem_singleton.mpr (tracer_expr test htest))) inserted_exitBlock ?_
      refine ⟨proper_of_expr test htest hproper fun n hn => hhere n (by simp [Stmt.freeNames, hn]),
        .inl (inserted_traceCall (by decide) (List.forall_mem_nil _)), ?_⟩
      exact proper_of_wovenBlock (keepsWords body) hspelled hnames.2 hbody
  | labeled hbody =>
      rename_i pos label body body'
      obtain ⟨hlabel, hspelled⟩ := hspelled
      refine properList_behind (inserted_traceCall (by decide)
        (List.forall_mem_singleton.mpr .string)) ⟨hlabel, ?_⟩
      exact properList_append.mpr ⟨proper_of_wovenBlock (keepsWords body) hspelled hnames.2 hbody,
        properList_inserted (List.forall_mem_singleton.mpr inserted_exitBlock)⟩
  | block hbody =>
      rename_i pos body body'
      exact properList_singleton (proper_of_wovenBlock (keepsWords body) hspelled hnames.2 hbody)
  | breakTo _ =>
      exact properList_behind (inserted_break .string .undefined) hspelled
  | returnNone =>
      exact properList_behind (inserted_break .string .undefined) hspelled
  | returnSome _ hvalue =>
      rename_i pos value traced _
      exact properList_behind (inserted_break .string (tracer_expr value hvalue))
        (proper_of_expr value hvalue hspelled fun n hn => hhere n (by simp [Stmt.freeNames, hn]))
  | expr hwoven =>
      exact proper_of_wovenExpr hspelled (fun n hn => hhere n (by simp [Stmt.freeNames, hn])) hwoven
termination_by sizeOf s

theorem keepsWords (ss : List Stmt) : KeepsWords ss := by
  intro place ν ν' out hspelled hnames h
  cases ss with
  | nil =>
      obtain ⟨rfl, -⟩ := weaves_nil h
      trivial
  | cons s ss =>
      obtain ⟨front, rest, ν₁, hs, hss, rfl⟩ := weaves_cons h
      have hordinary : s.Ordinary spelled := hspelled.1.resolve_left id
      exact properList_append.mpr ⟨proper_of_woven s hordinary hnames.1 hs,
        keepsWords ss hspelled.2 hnames.2 hss⟩
termination_by sizeOf ss

end

/-! ## Instrumented programs -/

theorem isName_of_generated {n : String} (h : Generated n) : IsName n := by
  rcases h with rfl | ⟨i, rfl⟩ | ⟨i, rfl⟩
  · exact ⟨by decide, by decide⟩
  · exact isName_numbered (by decide) rfl i
  · exact isName_numbered (by decide) rfl i

/-- The text of a program is instrumented by adding the modules and the start of the trace to
statements in the words of instrumented programs. -/
theorem exists_written {text : String} {q : Program}
    (h : instrumentText .default text = .ok q) :
    ∃ body, q = requireModule standard.options.expBinding standard.options.expModule ::
        requireModule standard.options.callbacksBinding standard.options.callbacksModule ::
        traceCall standard "newTrace" [] :: body ∧ Stmt.ProperList written body := by
  obtain ⟨source, hparse, h⟩ := exists_of_bind h
  obtain ⟨p, hnormal, h⟩ := exists_of_bind h
  have hnormal : normalize source = .ok p := eq_ok_of_mapError hnormal
  have hinstrument : instrument .default .default p = .ok q := eq_ok_of_mapError h
  have hspelled := normal_spelled.normalize (spelled_of_parse (eq_ok_of_mapError hparse)) hnormal
  have hnames := not_hidden_of_accepted hnormal hinstrument
  obtain ⟨out, ν', ⟨-, -, hwoven⟩, -, rfl⟩ := instrument_eq_ok hinstrument
  exact ⟨_, rfl, properList_append.mpr ⟨keepsWords p hspelled hnames hwoven,
    properList_inserted (List.forall_mem_singleton.mpr inserted_exitBlock)⟩⟩

end TraceLoom.Instrument
