import TraceLoom.Proofs.Instrument.Weaving

/-!
Where breaks and returns lead.  A statement is settled if every break in it names a label that is
open around it and every return stands in a function.  Labels end at the borders of functions, so
the functions in it, which may run anywhere, are settled by themselves.  Accepted programs are
settled, and so is what instrumentation makes of them.
-/

namespace TraceLoom

open Script Instrument

namespace Script

mutual

/-- All functions in an expression are settled. -/
def Expr.Settled : Expr → Prop
  | .array _ items => Expr.SettledList items
  | .object _ entries => Expr.SettledEntries entries
  | .function _ _ _ body => Stmt.SettledList .functionBody body
  | .member _ base _ => Expr.Settled base
  | .index _ base key => Expr.Settled base ∧ Expr.Settled key
  | .call _ callee args => Expr.Settled callee ∧ Expr.SettledList args
  | .unary _ _ operand => Expr.Settled operand
  | .binary _ _ left right => Expr.Settled left ∧ Expr.Settled right
  | .assign _ _ target value => Expr.Settled target ∧ Expr.Settled value
  | .update _ _ _ target => Expr.Settled target
  | _ => True
termination_by structural e => e

def Expr.SettledList : List Expr → Prop
  | [] => True
  | e :: es => Expr.Settled e ∧ Expr.SettledList es
termination_by structural es => es

def Expr.SettledEntries : List (String × Expr) → Prop
  | [] => True
  | (_, e) :: es => Expr.Settled e ∧ Expr.SettledEntries es
termination_by structural es => es

/-- A statement is settled where it stands. -/
def Stmt.Settled (place : Place) : Stmt → Prop
  | .declare _ _ ds => Stmt.SettledDeclarators ds
  | .function _ _ _ body => Stmt.SettledList .functionBody body
  | .ifElse _ test consequent none => Expr.Settled test ∧ Stmt.SettledList place consequent
  | .ifElse _ test consequent (some alternate) =>
    Expr.Settled test ∧ Stmt.SettledList place consequent ∧ Stmt.SettledList place alternate
  | .whileDo _ test body => Expr.Settled test ∧ Stmt.SettledList place body
  | .labeled _ label body => Stmt.SettledList (place.withLabel label) body
  | .breakTo _ none => False
  | .breakTo _ (some label) => label ∈ place.labels
  | .returnWith _ none => place.inFunction = true
  | .returnWith _ (some e) => place.inFunction = true ∧ Expr.Settled e
  | .block _ body => Stmt.SettledList place body
  | .expr _ e => Expr.Settled e
termination_by structural s => s

def Stmt.SettledDeclarators : List (Pattern × Option Expr) → Prop
  | [] => True
  | (_, none) :: ds => Stmt.SettledDeclarators ds
  | (_, some e) :: ds => Expr.Settled e ∧ Stmt.SettledDeclarators ds
termination_by structural ds => ds

def Stmt.SettledList (place : Place) : List Stmt → Prop
  | [] => True
  | s :: ss => Stmt.Settled place s ∧ Stmt.SettledList place ss
termination_by structural ss => ss

end

variable {place : Place}

theorem Stmt.settledList_append {ss ts : List Stmt} :
    Stmt.SettledList place (ss ++ ts) ↔
      Stmt.SettledList place ss ∧ Stmt.SettledList place ts := by
  induction ss with
  | nil => simp [Stmt.SettledList]
  | cons s ss ih => rw [List.cons_append, Stmt.SettledList, Stmt.SettledList, ih, and_assoc]

theorem Stmt.SettledList.mem {ss : List Stmt} (h : Stmt.SettledList place ss) {s : Stmt}
    (hs : s ∈ ss) : s.Settled place := by
  induction ss with
  | nil => cases hs
  | cons t ss ih =>
      rcases List.mem_cons.mp hs with rfl | hs
      · exact h.1
      · exact ih h.2 hs

theorem Stmt.settledList_of_forall {ss : List Stmt} (h : ∀ s ∈ ss, s.Settled place) :
    Stmt.SettledList place ss := by
  induction ss with
  | nil => trivial
  | cons s ss ih => exact ⟨h s List.mem_cons_self, ih fun t ht => h t (List.mem_cons_of_mem _ ht)⟩

end Script

/-! ## What is lowered -/

namespace Lower

variable {l : Lower} {ν ν' : Names}

theorem settled_builder (name : String) {args : List Expr} (h : Expr.SettledList args) :
    (l.builder name args).Settled :=
  ⟨trivial, h⟩

theorem settled_source (name : String) (binding : Binding) : (l.source name binding).Settled := by
  cases binding with
  | own => exact settled_builder _ ⟨trivial, trivial⟩
  | captured => exact settled_builder _ ⟨trivial, trivial, trivial⟩

theorem settled_reference {n : String} {pos : Position} {e' : Expr}
    (h : (l.reference n pos).run ν = .ok (e', ν')) : e'.Settled := by
  rw [run_reference] at h
  split at h
  · exact h.1 ▸ trivial
  · split at h
    · exact h.1 ▸ settled_builder _ ⟨trivial, trivial⟩
    · exact h.1 ▸ settled_source _ _

mutual

/-- An expression that can be lowered has no function in it, nor has what is made of it. -/
theorem settled_expr {ν ν' : Names} {e' : Expr} : ∀ e : Expr,
    (l.expr e).run ν = .ok (e', ν') → e.Settled ∧ e'.Settled := by
  intro e h
  cases e with
  | name pos n => exact ⟨trivial, settled_reference h⟩
  | number | string | boolean =>
      obtain ⟨rfl, -⟩ := Prod.mk.inj (run_pure_eq_ok_iff.mp h)
      exact ⟨trivial, settled_builder _ ⟨trivial, trivial⟩⟩
  | null | function | call | assign | update => exact absurd h run_throw_ne_ok
  | array pos items =>
      obtain ⟨_, _, hitems, h⟩ := run_bind_eq_ok_iff.mp h
      obtain ⟨rfl, -⟩ := Prod.mk.inj (run_pure_eq_ok_iff.mp h)
      obtain ⟨hitems, hitems'⟩ := settled_exprs items hitems
      exact ⟨hitems, settled_builder _ ⟨hitems', trivial⟩⟩
  | object pos entries =>
      obtain ⟨_, _, hentries, h⟩ := run_bind_eq_ok_iff.mp h
      obtain ⟨rfl, -⟩ := Prod.mk.inj (run_pure_eq_ok_iff.mp h)
      obtain ⟨hentries, hentries'⟩ := settled_fields entries hentries
      exact ⟨hentries, settled_builder _ ⟨hentries', trivial⟩⟩
  | member pos object property =>
      obtain ⟨_, _, hobject, h⟩ := run_bind_eq_ok_iff.mp h
      obtain ⟨rfl, -⟩ := Prod.mk.inj (run_pure_eq_ok_iff.mp h)
      obtain ⟨hobject, hobject'⟩ := settled_expr object hobject
      exact ⟨hobject, settled_builder _ ⟨hobject', trivial, trivial⟩⟩
  | unary pos op operand =>
      obtain ⟨_, _, hoperand, h⟩ := run_bind_eq_ok_iff.mp h
      obtain ⟨rfl, -⟩ := Prod.mk.inj (run_pure_eq_ok_iff.mp h)
      obtain ⟨hoperand, hoperand'⟩ := settled_expr operand hoperand
      exact ⟨hoperand, settled_builder _ ⟨trivial, hoperand', trivial⟩⟩
  | index pos object index =>
      obtain ⟨_, _, hobject, h⟩ := run_bind_eq_ok_iff.mp h
      obtain ⟨_, _, hindex, h⟩ := run_bind_eq_ok_iff.mp h
      obtain ⟨rfl, -⟩ := Prod.mk.inj (run_pure_eq_ok_iff.mp h)
      obtain ⟨hobject, hobject'⟩ := settled_expr object hobject
      obtain ⟨hindex, hindex'⟩ := settled_expr index hindex
      exact ⟨⟨hobject, hindex⟩, settled_builder _ ⟨hobject', hindex', trivial⟩⟩
  | binary pos op left right =>
      obtain ⟨_, _, hleft, h⟩ := run_bind_eq_ok_iff.mp h
      obtain ⟨_, _, hright, h⟩ := run_bind_eq_ok_iff.mp h
      obtain ⟨rfl, -⟩ := Prod.mk.inj (run_pure_eq_ok_iff.mp h)
      obtain ⟨hleft, hleft'⟩ := settled_expr left hleft
      obtain ⟨hright, hright'⟩ := settled_expr right hright
      exact ⟨⟨hleft, hright⟩, settled_builder _ ⟨trivial, hleft', hright', trivial⟩⟩
termination_by structural e => e

theorem settled_exprs {ν ν' : Names} {es' : List Expr} : ∀ es : List Expr,
    (l.exprs es).run ν = .ok (es', ν') → Expr.SettledList es ∧ Expr.SettledList es' := by
  intro es h
  cases es with
  | nil =>
      obtain ⟨rfl, -⟩ := Prod.mk.inj (run_pure_eq_ok_iff.mp h)
      exact ⟨trivial, trivial⟩
  | cons e es =>
      obtain ⟨_, _, he, h⟩ := run_bind_eq_ok_iff.mp h
      obtain ⟨_, _, hes, h⟩ := run_bind_eq_ok_iff.mp h
      obtain ⟨rfl, -⟩ := Prod.mk.inj (run_pure_eq_ok_iff.mp h)
      obtain ⟨he, he'⟩ := settled_expr e he
      obtain ⟨hes, hes'⟩ := settled_exprs es hes
      exact ⟨⟨he, hes⟩, he', hes'⟩
termination_by structural es => es

theorem settled_fields {ν ν' : Names} {es' : List (String × Expr)} :
    ∀ es : List (String × Expr), (l.fields es).run ν = .ok (es', ν') →
      Expr.SettledEntries es ∧ Expr.SettledEntries es' := by
  intro es h
  cases es with
  | nil =>
      obtain ⟨rfl, -⟩ := Prod.mk.inj (run_pure_eq_ok_iff.mp h)
      exact ⟨trivial, trivial⟩
  | cons entry es =>
      obtain ⟨key, e⟩ := entry
      obtain ⟨_, _, he, h⟩ := run_bind_eq_ok_iff.mp h
      obtain ⟨_, _, hes, h⟩ := run_bind_eq_ok_iff.mp h
      obtain ⟨rfl, -⟩ := Prod.mk.inj (run_pure_eq_ok_iff.mp h)
      obtain ⟨he, he'⟩ := settled_expr e he
      obtain ⟨hes, hes'⟩ := settled_fields es hes
      exact ⟨⟨he, hes⟩, he', hes'⟩
termination_by structural es => es

end

theorem settled_callee {e e' : Expr} (h : (l.callee e).run ν = .ok (e', ν')) :
    e.Settled ∧ e'.Settled := by
  unfold callee at h
  split at h
  · exact ⟨trivial, settled_reference h⟩
  · exact absurd h run_throw_ne_ok
  · exact absurd h run_throw_ne_ok
  · rename_i object property _ _
    obtain ⟨_, _, hobject, h⟩ := run_bind_eq_ok_iff.mp h
    obtain ⟨rfl, -⟩ := Prod.mk.inj (run_pure_eq_ok_iff.mp h)
    obtain ⟨hobject, hobject'⟩ := settled_expr object hobject
    exact ⟨hobject, settled_builder _ ⟨hobject', trivial, trivial⟩⟩
  · exact absurd h run_throw_ne_ok

theorem settled_target {e e' : Expr} (h : (l.target e).run ν = .ok (e', ν')) :
    e.Settled ∧ e'.Settled := by
  unfold target at h
  split at h
  · split at h
    · exact absurd h run_throw_ne_ok
    · exact ⟨trivial, settled_reference h⟩
  · rename_i object property
    split at h
    · exact absurd h run_throw_ne_ok
    · obtain ⟨_, _, hobject, h⟩ := run_bind_eq_ok_iff.mp h
      obtain ⟨rfl, -⟩ := Prod.mk.inj (run_pure_eq_ok_iff.mp h)
      obtain ⟨hobject, hobject'⟩ := settled_expr object hobject
      exact ⟨hobject, settled_builder _ ⟨hobject', settled_builder _ ⟨trivial, trivial⟩, trivial⟩⟩
  · rename_i object index
    split at h
    · exact absurd h run_throw_ne_ok
    · obtain ⟨_, _, hget, h⟩ := run_bind_eq_ok_iff.mp h
      split at h
      · obtain ⟨_, _, hrefuse, -⟩ := run_bind_eq_ok_iff.mp h
        exact absurd hrefuse run_throw_ne_ok
      · obtain ⟨_, _, hobject, h⟩ := run_bind_eq_ok_iff.mp h
        obtain ⟨_, _, hindex, h⟩ := run_bind_eq_ok_iff.mp h
        obtain ⟨rfl, -⟩ := Prod.mk.inj (run_pure_eq_ok_iff.mp h)
        obtain ⟨hobject, hobject'⟩ := settled_expr object hobject
        obtain ⟨hindex, hindex'⟩ := settled_expr index hindex
        exact ⟨⟨hobject, hindex⟩, settled_builder _ ⟨hobject', hindex', trivial⟩⟩
  · exact absurd h run_throw_ne_ok

theorem settled_closureRecord (self : Option (String × String))
    (sources : List (String × Binding)) : (l.closureRecord self sources).Settled := by
  have hentries {β : Type} (xs : List β) (key : β → String) (e : β → Expr)
      (he : ∀ x, (e x).Settled) : ∀ {ys}, Expr.SettledEntries ys →
      Expr.SettledEntries (xs.map (fun x => (key x, e x)) ++ ys) := by
    intro ys hys
    induction xs with
    | nil => exact hys
    | cons x xs ih => exact ⟨he x, ih⟩
  refine settled_builder _ ⟨hentries _ _ _ (fun _ => settled_source _ _) ?_, trivial⟩
  rw [← List.append_nil (sources.map _)]
  exact hentries _ _ _ (fun _ => settled_source _ _) trivial

end Lower

/-! ## What is woven -/

namespace Instrument

variable {l : Lower} {ν ν' : Names} {place : Place}

theorem settled_traceCall (operation : String) {args : List Expr} (h : Expr.SettledList args) :
    (traceCall l operation args).Settled place :=
  ⟨trivial, h⟩

theorem settled_traceLet (name : String) {value : Expr} (h : value.Settled) :
    (traceLet l name value).Settled place :=
  settled_traceCall _ ⟨trivial, h, trivial⟩

theorem settled_exitBlock : (exitBlock l).Settled place :=
  settled_traceCall _ trivial

theorem settled_undefined : l.undefined.Settled :=
  trivial

/-- A woven list of statements is settled, before and after. -/
def Settles (l : Lower) (body : List Stmt) : Prop :=
  ∀ {place : Place} {ν ν' : Names} {out : List Stmt}, Weaves (stmts l place body) ν out ν' →
    Stmt.SettledList place body ∧ Stmt.SettledList place out

theorem settled_wovenBlock {body out : List Stmt} (hbody : Settles l body)
    (h : WovenBlock l place body ν out ν') :
    Stmt.SettledList place body ∧ Stmt.SettledList place out := by
  obtain ⟨-, -, hwoven⟩ := h
  exact hbody hwoven

theorem settled_prologue (params : List String) : Stmt.SettledList place (prologue l params) := by
  refine ⟨⟨⟨trivial, trivial, trivial, trivial⟩, trivial⟩,
    Stmt.settledList_of_forall fun s hs => ?_⟩
  obtain ⟨⟨param, argument⟩, -, rfl⟩ := List.mem_map.mp hs
  exact settled_traceLet _ trivial

theorem settled_wovenFunction {params : List String} {body body' : List Stmt}
    {self : Option (String × String)} {closure : Expr} (hbody : Settles l body)
    (h : WovenFunction l params body ν self body' closure ν') :
    Stmt.SettledList .functionBody body ∧ Stmt.SettledList .functionBody body' ∧
      closure.Settled := by
  have hframe {out : List Stmt} (hout : Stmt.SettledList .functionBody out) :
      Stmt.SettledList .functionBody (prologue l params ++ out ++ [exitBlock l]) :=
    Stmt.settledList_append.mpr ⟨Stmt.settledList_append.mpr ⟨settled_prologue params, hout⟩,
      settled_exitBlock, trivial⟩
  cases h with
  | anonymous _ hwoven =>
      obtain ⟨-, -, hwoven⟩ := hwoven
      exact ⟨(hbody hwoven).1, hframe (hbody hwoven).2, Lower.settled_closureRecord _ _⟩
  | named _ _ hwoven =>
      obtain ⟨-, -, hwoven⟩ := hwoven
      exact ⟨(hbody hwoven).1, hframe (hbody hwoven).2, Lower.settled_closureRecord _ _⟩

theorem settled_wovenCall {name : String} {callee : Expr} {args : List Expr} {kept : Stmt}
    {out : List Stmt} (h : WovenCall l name callee args kept ν out ν') :
    (callee.Settled ∧ Expr.SettledList args) ∧
      (kept.Settled place → Stmt.SettledList place out) := by
  cases h with
  | require hkind =>
      obtain ⟨⟨_, rfl⟩, _, rfl⟩ := classify_require hkind
      exact ⟨⟨trivial, trivial, trivial⟩, fun hkept => ⟨settled_traceLet _ (l.settled_builder _
        ⟨trivial, ⟨l.settled_builder _ ⟨trivial, trivial⟩, trivial⟩, trivial⟩), hkept, trivial⟩⟩
  | console hkind hargs =>
      obtain ⟨_, _, rfl⟩ := classify_console hkind
      obtain ⟨hargs, hargs'⟩ := Lower.settled_exprs args hargs
      refine ⟨⟨trivial, hargs⟩, fun hkept => ⟨settled_traceCall _ ⟨trivial, hargs', trivial⟩, ?_⟩⟩
      split
      · exact ⟨hkept, trivial⟩
      · exact ⟨settled_traceLet _ settled_undefined, hkept, trivial⟩
  | method hkind hobject hargs =>
      rename_i object _ _ _ _
      obtain ⟨_, rfl⟩ := classify_method hkind
      obtain ⟨hobject, hobject'⟩ := Lower.settled_expr object hobject
      obtain ⟨hargs, hargs'⟩ := Lower.settled_exprs args hargs
      exact ⟨⟨hobject, hargs⟩, fun hkept => ⟨settled_traceLet _ (l.settled_builder _
        ⟨hobject', trivial, hargs', trivial⟩), hkept, trivial⟩⟩
  | function hkind hcallee hargs =>
      obtain ⟨hcallee, hcallee'⟩ := Lower.settled_callee hcallee
      obtain ⟨hargs, hargs'⟩ := Lower.settled_exprs args hargs
      exact ⟨⟨hcallee, hargs⟩, fun hkept => ⟨settled_traceCall _
        ⟨trivial, ⟨hcallee', hargs'⟩, trivial⟩, hkept, settled_exitBlock, trivial⟩⟩

theorem settled_wovenExpr {e : Expr} {pos : Position} {out : List Stmt}
    (h : WovenExpr l (.expr pos e) ν e out ν') : e.Settled ∧ Stmt.SettledList place out := by
  cases h with
  | assign hvalue htarget =>
      obtain ⟨hvalue, hvalue'⟩ := Lower.settled_expr _ hvalue
      obtain ⟨htarget, htarget'⟩ := Lower.settled_target htarget
      exact ⟨⟨htarget, hvalue⟩, settled_traceCall _ ⟨htarget', hvalue', trivial⟩,
        ⟨htarget, hvalue⟩, trivial⟩
  | update hname =>
      have hcurrent := Lower.settled_reference hname
      exact ⟨trivial, settled_traceCall _ ⟨hcurrent, l.settled_builder _ ⟨trivial, hcurrent,
        l.settled_builder _ ⟨trivial, trivial⟩, trivial⟩, trivial⟩, trivial, trivial⟩
  | pure hexpr =>
      have he := (Lower.settled_expr e hexpr).1
      exact ⟨he, he, trivial⟩

mutual

theorem settled_woven (s : Stmt) {place : Place} {ν ν' : Names} {out : List Stmt}
    (h : Woven l place ν s out ν') : s.Settled place ∧ Stmt.SettledList place out := by
  cases h with
  | letFunction hwoven =>
      rename_i pos fpos kind name self params body body' closure ν₁
      obtain ⟨hbody, hbody', hclosure⟩ := settled_wovenFunction (settles body) hwoven
      exact ⟨⟨hbody, trivial⟩, settled_traceLet _ hclosure, ⟨hbody', trivial⟩, trivial⟩
  | letCall hwoven =>
      obtain ⟨hcall, hout⟩ := settled_wovenCall hwoven
      exact ⟨⟨hcall, trivial⟩, hout ⟨hcall, trivial⟩⟩
  | letValue hvalue =>
      obtain ⟨hvalue, hvalue'⟩ := Lower.settled_expr _ hvalue
      exact ⟨⟨hvalue, trivial⟩, settled_traceLet _ hvalue', ⟨hvalue, trivial⟩, trivial⟩
  | letNone => exact ⟨trivial, settled_traceLet _ settled_undefined, trivial, trivial⟩
  | function hwoven =>
      rename_i pos name params body body' closure
      obtain ⟨hbody, hbody', hclosure⟩ := settled_wovenFunction (settles body) hwoven
      exact ⟨hbody, settled_traceLet _ hclosure, hbody', trivial⟩
  | ifThen htest hname hyes hjoin =>
      rename_i pos test traced consequent yes name ν₁ ν₂
      obtain ⟨htest, htest'⟩ := Lower.settled_expr test htest
      obtain ⟨hyes, hyes'⟩ := settled_wovenBlock (settles consequent) hyes
      exact ⟨⟨htest, hyes⟩, ⟨htest', trivial⟩,
        ⟨htest, ⟨settled_traceCall _ ⟨trivial, trivial⟩, hyes'⟩,
          settled_traceCall _ ⟨trivial, trivial⟩, trivial⟩, settled_exitBlock, trivial⟩
  | ifElse htest hname hyes hno hjoin =>
      rename_i pos test traced consequent alternate yes no name ν₁ ν₂ ν₃
      obtain ⟨htest, htest'⟩ := Lower.settled_expr test htest
      obtain ⟨hyes, hyes'⟩ := settled_wovenBlock (settles consequent) hyes
      obtain ⟨hno, hno'⟩ := settled_wovenBlock (settles alternate) hno
      exact ⟨⟨htest, hyes, hno⟩, ⟨htest', trivial⟩,
        ⟨htest, ⟨settled_traceCall _ ⟨trivial, trivial⟩, hyes'⟩,
          settled_traceCall _ ⟨trivial, trivial⟩, hno'⟩, settled_exitBlock, trivial⟩
  | whileDo htest hbody =>
      rename_i pos test traced body body' ν₁
      obtain ⟨htest, htest'⟩ := Lower.settled_expr test htest
      obtain ⟨hbody, hbody'⟩ := settled_wovenBlock (settles body) hbody
      exact ⟨⟨htest, hbody⟩, settled_traceCall _ ⟨htest', trivial⟩,
        ⟨htest, settled_traceCall _ trivial, hbody'⟩, settled_exitBlock, trivial⟩
  | labeled hbody =>
      rename_i pos label body body'
      obtain ⟨hbody, hbody'⟩ := settled_wovenBlock (settles body) hbody
      exact ⟨hbody, settled_traceCall _ ⟨trivial, trivial⟩,
        Stmt.settledList_append.mpr ⟨hbody', settled_exitBlock, trivial⟩, trivial⟩
  | breakTo hlabel =>
      exact ⟨hlabel, settled_traceCall _ ⟨trivial, settled_undefined, trivial⟩, hlabel, trivial⟩
  | returnNone hplace =>
      exact ⟨hplace, settled_traceCall _ ⟨trivial, settled_undefined, trivial⟩, hplace, trivial⟩
  | returnSome hplace hvalue =>
      obtain ⟨hvalue, hvalue'⟩ := Lower.settled_expr _ hvalue
      exact ⟨⟨hplace, hvalue⟩, settled_traceCall _ ⟨trivial, hvalue', trivial⟩,
        ⟨hplace, hvalue⟩, trivial⟩
  | block hbody =>
      rename_i pos body body'
      obtain ⟨hbody, hbody'⟩ := settled_wovenBlock (settles body) hbody
      exact ⟨hbody, hbody', trivial⟩
  | expr hwoven => exact settled_wovenExpr hwoven
termination_by sizeOf s

theorem settles (ss : List Stmt) : Settles l ss := by
  intro place ν ν' out h
  cases ss with
  | nil =>
      obtain ⟨rfl, -⟩ := weaves_nil h
      exact ⟨trivial, trivial⟩
  | cons s ss =>
      obtain ⟨front, rest, ν₁, hs, hss, rfl⟩ := weaves_cons h
      obtain ⟨hs, hfront⟩ := settled_woven s hs
      obtain ⟨hss, hrest⟩ := settles ss hss
      exact ⟨⟨hs, hss⟩, Stmt.settledList_append.mpr ⟨hfront, hrest⟩⟩
termination_by sizeOf ss

end

/-- An accepted program is settled, and so is the instrumented program. -/
theorem settled_of_instrument {options : InstrumentOptions} {primitives : Primitives}
    {p q : Program} (h : instrument options primitives p = .ok q) :
    Stmt.SettledList .top p ∧ Stmt.SettledList .top q := by
  obtain ⟨out, ν', ⟨-, -, hwoven⟩, -, rfl⟩ := instrument_eq_ok h
  obtain ⟨hp, hout⟩ := settles p hwoven
  refine ⟨hp, Stmt.settledList_append.mpr ⟨Stmt.settledList_append.mpr ⟨?_, hout⟩,
    settled_exitBlock, trivial⟩⟩
  have hmodule (binding path : String) : (requireModule binding path).Settled .top :=
    ⟨⟨trivial, trivial, trivial⟩, trivial⟩
  exact ⟨hmodule _ _, hmodule _ _, settled_traceCall _ trivial, trivial⟩

end Instrument

end TraceLoom
