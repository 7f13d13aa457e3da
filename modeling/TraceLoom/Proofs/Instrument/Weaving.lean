import TraceLoom.Instrument.Weave
import TraceLoom.Proofs.Instrument.Lowering

/-!
What instrumentation makes of each form of statement.  `Woven` says it once, with the names before
and after; the numbers of tests do not count.
-/

namespace TraceLoom.Instrument

open Script

/-- A step of weaving leads from names to names, whatever tests have been named before. -/
def Weaves {α : Type} (m : Weaving α) (ν : Names) (a : α) (ν' : Names) : Prop :=
  ∃ t t', m.run ⟨ν, t⟩ = .ok (a, ⟨ν', t'⟩)

section

variable {α β : Type} {m : Weaving α} {ν ν' : Names} {a : α}

theorem weaves_bind {f : α → Weaving β} {b : β} (h : Weaves (m >>= f) ν b ν') :
    ∃ a ν₁, Weaves m ν a ν₁ ∧ Weaves (f a) ν₁ b ν' := by
  obtain ⟨t, t', h⟩ := h
  obtain ⟨a, ⟨ν₁, t₁⟩, hm, hf⟩ := run_bind_eq_ok_iff.mp h
  exact ⟨a, ν₁, ⟨t, t₁, hm⟩, ⟨t₁, t', hf⟩⟩

theorem weaves_pure {b : α} (h : Weaves (pure a) ν b ν') : b = a ∧ ν' = ν := by
  obtain ⟨t, t', h⟩ := h
  obtain ⟨rfl, h⟩ := Prod.mk.inj (run_pure_eq_ok_iff.mp h)
  cases h
  exact ⟨rfl, rfl⟩

theorem not_weaves_refuse {e : InstrumentError} : ¬ Weaves (refuse e : Weaving α) ν a ν' := by
  rintro ⟨t, t', h⟩
  exact run_throw_ne_ok h

theorem weaves_lowered {m : Lowering α} (h : Weaves (lowered m) ν a ν') :
    m.run ν = .ok (a, ν') := by
  obtain ⟨t, t', h⟩ := h
  simp only [lowered, run_bind_eq_ok_iff, run_get_eq_ok_iff, run_liftM_eq_ok_iff,
    run_set_eq_ok_iff, run_pure_eq_ok_iff, Prod.mk.injEq] at h
  obtain ⟨_, _, ⟨rfl, rfl⟩, ⟨b, ν₁⟩, _, ⟨hm, rfl⟩, _, _, ⟨-, rfl⟩, rfl, h⟩ := h
  cases h
  exact hm

theorem weaves_names {b : Names} (h : Weaves names ν b ν') : b = ν ∧ ν' = ν := by
  obtain ⟨b', ν₁, hget, h⟩ := weaves_bind h
  obtain ⟨t, t', hget⟩ := hget
  obtain ⟨rfl, hν⟩ := Prod.mk.inj (run_get_eq_ok_iff.mp hget)
  cases hν
  exact weaves_pure h

theorem weaves_setNames {μ : Names} {u : Unit} (h : Weaves (setNames μ) ν u ν') : ν' = μ := by
  obtain ⟨t, t', h⟩ := h
  obtain ⟨-, hν⟩ := Prod.mk.inj (run_modify_eq_ok_iff.mp h)
  cases hν
  rfl

theorem weaves_bindName {name : String} {pos : Position} {u : Unit}
    (h : Weaves (modify fun state => { state with names := state.names.bind name pos }) ν u ν') :
    ν' = ν.bind name pos := by
  obtain ⟨t, t', h⟩ := h
  obtain ⟨-, hν⟩ := Prod.mk.inj (run_modify_eq_ok_iff.mp h)
  cases hν
  rfl

theorem weaves_freshTest {test : String} (h : Weaves freshTest ν test ν') :
    (∃ i : Nat, test = "$test" ++ toString i) ∧ ν' = ν := by
  obtain ⟨t, t', h⟩ := h
  simp only [freshTest, run_bind_eq_ok_iff, run_get_eq_ok_iff, run_set_eq_ok_iff,
    run_pure_eq_ok_iff, Prod.mk.injEq] at h
  obtain ⟨_, _, ⟨rfl, rfl⟩, _, _, ⟨-, rfl⟩, rfl, h⟩ := h
  cases h
  exact ⟨⟨t, rfl⟩, rfl⟩

theorem weaves_inScope (h : Weaves (inScope m) ν a ν') :
    ∃ inner, Weaves m ν a inner ∧ ν' = inner.leave ν := by
  obtain ⟨outer, ν₁, hnames, h₁⟩ := weaves_bind h
  obtain ⟨rfl, rfl⟩ := weaves_names hnames
  obtain ⟨b, inner, hm, h₂⟩ := weaves_bind h₁
  obtain ⟨_, _, hinner, h₃⟩ := weaves_bind h₂
  obtain ⟨rfl, rfl⟩ := weaves_names hinner
  obtain ⟨_, _, hset, h₄⟩ := weaves_bind h₃
  obtain ⟨rfl, rfl⟩ := weaves_pure h₄
  exact ⟨_, hm, weaves_setNames hset⟩

theorem weaves_liftM {x : Except InstrumentError α} (h : Weaves (liftM x) ν a ν') :
    x = .ok a ∧ ν' = ν := by
  obtain ⟨t, t', h⟩ := h
  obtain ⟨hx, h⟩ := run_liftM_eq_ok_iff.mp h
  cases h
  exact ⟨hx, rfl⟩

end

/-! ## Bindings -/

section

variable {l : Lower} {ν ν' : Names} {u : PUnit}

theorem weaves_checkBinding {pos : Position} {n : String}
    (h : Weaves (checkBinding l pos n) ν u ν') : l.options.isReserved n = false ∧ ν' = ν := by
  unfold checkBinding at h
  split at h
  · exact absurd h not_weaves_refuse
  · rename_i hn
    exact ⟨by simpa using hn, (weaves_pure h).2⟩

theorem weaves_checkBindings {pos : Position} {ns : List String}
    (h : Weaves (ns.forM (checkBinding l pos)) ν u ν') :
    (∀ n ∈ ns, l.options.isReserved n = false) ∧ ν' = ν := by
  induction ns generalizing ν with
  | nil => exact ⟨by simp, (weaves_pure h).2⟩
  | cons n ns ih =>
      obtain ⟨_, _, hn, hns⟩ := weaves_bind h
      obtain ⟨hfree, rfl⟩ := weaves_checkBinding hn
      obtain ⟨hrest, rfl⟩ := ih hns
      exact ⟨List.forall_mem_cons.mpr ⟨hfree, hrest⟩, rfl⟩

theorem weaves_bindNames {pos : Position} {ns : List String}
    (h : Weaves (ns.forM fun name => do
      checkBinding l pos name
      modify fun state => { state with names := state.names.bind name pos }) ν u ν') :
    ν.Binds ns ν' ∧ ∀ n ∈ ns, l.options.isReserved n = false := by
  induction ns generalizing ν with
  | nil =>
      obtain ⟨-, rfl⟩ := weaves_pure h
      exact ⟨Names.Binds.refl _, by simp⟩
  | cons n ns ih =>
      obtain ⟨_, ν₁, hn, hns⟩ := weaves_bind h
      obtain ⟨_, _, hcheck, hbind⟩ := weaves_bind hn
      obtain ⟨hfree, rfl⟩ := weaves_checkBinding hcheck
      obtain rfl := weaves_bindName hbind
      obtain ⟨hbinds, hrest⟩ := ih hns
      exact ⟨(Names.binds_bind _ n pos).trans hbinds, List.forall_mem_cons.mpr ⟨hfree, hrest⟩⟩

theorem weaves_bindDeclared {ss : List Stmt} (h : Weaves (bindDeclared l ss) ν u ν') :
    ν.Binds (declaredIn ss) ν' ∧ ∀ n ∈ declaredIn ss, l.options.isReserved n = false := by
  unfold bindDeclared at h
  induction ss generalizing ν with
  | nil =>
      obtain ⟨-, rfl⟩ := weaves_pure h
      exact ⟨Names.Binds.refl _, by simp [declaredIn]⟩
  | cons s ss ih =>
      obtain ⟨_, ν₁, hs, hss⟩ := weaves_bind h
      obtain ⟨hbinds, hfree⟩ := weaves_bindNames hs
      obtain ⟨hmore, hrest⟩ := ih hss
      refine ⟨hbinds.trans hmore, fun n hn => ?_⟩
      rw [declaredIn, List.flatMap_cons, List.mem_append] at hn
      exact hn.elim (hfree n) (hrest n)

end

/-! ## Statements -/

variable (l : Lower)

/-- The statements of a block, woven in names that bind what the block declares. -/
inductive WovenBody (place : Place) (body : List Stmt) (ν : Names) (out : List Stmt) (ν' : Names) :
    Prop
  | intro {bound : Names} (binds : ν.Binds (declaredIn body) bound)
      (free : ∀ n ∈ declaredIn body, l.options.isReserved n = false)
      (woven : Weaves (stmts l place body) bound out ν')

/-- A block in a scope of its own. -/
inductive WovenBlock (place : Place) (body : List Stmt) (ν : Names) (out : List Stmt) :
    Names → Prop
  | intro {inner : Names} (woven : WovenBody l place body ν out inner) :
      WovenBlock place body ν out (inner.leave ν)

/-- The body of a function, its closure record, and the names of the function around it. -/
inductive WovenFunction (params : List String) (body : List Stmt) (ν : Names) :
    Option (String × String) → List Stmt → Expr → Names → Prop
  | anonymous {pos : Position} {out : List Stmt} {inner : Names}
      (free : ∀ n ∈ params, l.options.isReserved n = false)
      (woven : WovenBody l .functionBody body (Names.ofParams params pos) out inner) :
      WovenFunction params body ν none (prologue l params ++ out ++ [exitBlock l])
        (l.closureRecord none (ν.closeOver inner).2) (ν.closeOver inner).1
  | named {pos : Position} {out : List Stmt} {inner : Names} {name holder : String}
      (free : ∀ n ∈ params, l.options.isReserved n = false)
      (freeSelf : l.options.isReserved name = false)
      (woven : WovenBody l .functionBody body (Names.ofParams params pos) out inner) :
      WovenFunction params body ν (some (name, holder))
        (prologue l params ++ out ++ [exitBlock l])
        (l.closureRecord (if (inner.forget name).2 then some (name, holder) else none)
          (ν.closeOver (inner.forget name).1).2)
        (ν.closeOver (inner.forget name).1).1

/-- What stands around a declaration whose value is a call. -/
inductive WovenCall (name : String) (callee : Expr) (args : List Expr) (kept : Stmt) (ν : Names) :
    List Stmt → Names → Prop
  | require {path : String} (hkind : l.primitives.classify callee args = .require path) :
      WovenCall name callee args kept ν
        [traceLet l name (l.builder "primApp"
          [.text "require", .list [l.builder "string" [.text path]]]), kept] ν
  | console {method : String} {traced : List Expr} {ν' : Names}
      (hkind : l.primitives.classify callee args = .console method)
      (hargs : (l.exprs args).run ν = .ok (traced, ν')) :
      WovenCall name callee args kept ν
        (traceCall l "tracePrimApp" [.text (Primitives.consoleEvent method), .list traced] ::
          (if isGenerated name then [] else [traceLet l name l.undefined]) ++ [kept]) ν'
  | method {object object' : Expr} {method : String} {traced : List Expr} {ν₁ ν' : Names}
      (hkind : l.primitives.classify callee args = .method object method)
      (hobject : (l.expr object).run ν = .ok (object', ν₁))
      (hargs : (l.exprs args).run ν₁ = .ok (traced, ν')) :
      WovenCall name callee args kept ν
        [traceLet l name (l.builder "methodCall" [object', .text method, .list traced]), kept] ν'
  | function {callee' : Expr} {traced : List Expr} {ν₁ ν' : Names}
      (hkind : l.primitives.classify callee args = .function)
      (hcallee : (l.callee callee).run ν = .ok (callee', ν₁))
      (hargs : (l.exprs args).run ν₁ = .ok (traced, ν')) :
      WovenCall name callee args kept ν
        [traceCall l "traceFunctionCall" [.text name, .list (callee' :: traced)], kept,
          exitBlock l] ν'

/-- What stands around an expression that is a statement. -/
inductive WovenExpr (kept : Stmt) (ν : Names) : Expr → List Stmt → Names → Prop
  | assign {pos : Position} {target target' value value' : Expr} {ν₁ ν' : Names}
      (hvalue : (l.expr value).run ν = .ok (value', ν₁))
      (htarget : (l.target target).run ν₁ = .ok (target', ν')) :
      WovenExpr kept ν (.assign pos .assign target value)
        [traceCall l "traceSet" [target', value'], kept] ν'
  | update {pos npos : Position} {op : UpdateOp} {isPrefix : Bool} {n : String} {current : Expr}
      {ν' : Names} (hname : (l.reference n npos).run ν = .ok (current, ν')) :
      WovenExpr kept ν (.update pos op isPrefix (.name npos n))
        [traceCall l "traceSet" [current, l.builder "binop"
          [.text op.binary.symbol, current, l.builder "number" [.num 1.0]]], kept] ν'
  | pure {e e' : Expr} {ν' : Names} (hexpr : (l.expr e).run ν = .ok (e', ν')) :
      WovenExpr kept ν e [kept] ν'

def IsTest (name : String) : Prop :=
  ∃ i : Nat, name = "$test" ++ toString i

/-- What weaving makes of a statement. -/
inductive Woven (place : Place) (ν : Names) : Stmt → List Stmt → Names → Prop
  | letFunction {pos fpos : Position} {kind : DeclKind} {name : String} {self : Option String}
      {params : List String} {body body' : List Stmt} {closure : Expr} {ν' : Names}
      (woven : WovenFunction l params body ν (self.map (·, name)) body' closure ν') :
      Woven place ν (.declare pos kind [(.name name, some (.function fpos self params body))])
        [traceLet l name closure,
          .declare pos kind [(.name name, some (.function fpos self params body'))]]
        (ν'.bind name pos)
  | letCall {pos cpos : Position} {kind : DeclKind} {name : String} {callee : Expr}
      {args : List Expr} {out : List Stmt} {ν' : Names}
      (woven : WovenCall l name callee args
        (.declare pos kind [(.name name, some (.call cpos callee args))]) ν out ν') :
      Woven place ν (.declare pos kind [(.name name, some (.call cpos callee args))]) out
        (ν'.bind name pos)
  | letValue {pos : Position} {kind : DeclKind} {name : String} {value traced : Expr}
      {ν' : Names} (hvalue : (l.expr value).run ν = .ok (traced, ν')) :
      Woven place ν (.declare pos kind [(.name name, some value)])
        [traceLet l name traced, .declare pos kind [(.name name, some value)]] (ν'.bind name pos)
  | letNone {pos : Position} {kind : DeclKind} {name : String} :
      Woven place ν (.declare pos kind [(.name name, none)])
        [traceLet l name l.undefined, .declare pos kind [(.name name, none)]] (ν.bind name pos)
  | function {pos : Position} {name : String} {params : List String} {body body' : List Stmt}
      {closure : Expr} {ν' : Names}
      (woven : WovenFunction l params body ν none body' closure ν') :
      Woven place ν (.function pos name params body)
        [traceLet l name closure, .function pos name params body'] ν'
  | ifThen {pos : Position} {test traced : Expr} {consequent yes : List Stmt} {name : String}
      {ν₁ ν₂ ν' : Names} (htest : (l.expr test).run ν = .ok (traced, ν₁)) (hname : IsTest name)
      (hyes : WovenBlock l place consequent ν₁ yes ν₂) (hjoin : ν₂.join ν₁ = .ok ν') :
      Woven place ν (.ifElse pos test consequent none)
        [.letNamed name traced,
          .ifElse pos test (traceCall l "traceIfTrue" [.ident name] :: yes)
            (some [traceCall l "traceIfFalse" [.ident name]]),
          exitBlock l] ν'
  | ifElse {pos : Position} {test traced : Expr} {consequent alternate yes no : List Stmt}
      {name : String} {ν₁ ν₂ ν₃ ν' : Names} (htest : (l.expr test).run ν = .ok (traced, ν₁))
      (hname : IsTest name) (hyes : WovenBlock l place consequent ν₁ yes ν₂)
      (hno : WovenBlock l place alternate ν₁ no ν₃) (hjoin : ν₂.join ν₃ = .ok ν') :
      Woven place ν (.ifElse pos test consequent (some alternate))
        [.letNamed name traced,
          .ifElse pos test (traceCall l "traceIfTrue" [.ident name] :: yes)
            (some (traceCall l "traceIfFalse" [.ident name] :: no)),
          exitBlock l] ν'
  | whileDo {pos : Position} {test traced : Expr} {body body' : List Stmt} {ν₁ ν' : Names}
      (htest : (l.expr test).run ν = .ok (traced, ν₁)) (hbody : WovenBlock l place body ν₁ body' ν') :
      Woven place ν (.whileDo pos test body)
        [traceCall l "traceWhile" [traced],
          .whileDo pos test (traceCall l "traceLoop" [] :: body'), exitBlock l] ν'
  | labeled {pos : Position} {label : String} {body body' : List Stmt} {ν' : Names}
      (hbody : WovenBlock l (place.withLabel label) body ν body' ν') :
      Woven place ν (.labeled pos label body)
        [traceCall l "traceLabel" [.text label], .labeled pos label (body' ++ [exitBlock l])] ν'
  | breakTo {pos : Position} {label : String} (hlabel : label ∈ place.labels) :
      Woven place ν (.breakTo pos (some label))
        [traceCall l "traceBreak" [.text label, l.undefined], .breakTo pos (some label)] ν
  | returnNone {pos : Position} (hplace : place.inFunction = true) :
      Woven place ν (.returnWith pos none)
        [traceCall l "traceBreak" [.text l.options.returnLabel, l.undefined],
          .returnWith pos none] ν
  | returnSome {pos : Position} {value traced : Expr} {ν' : Names}
      (hplace : place.inFunction = true) (hvalue : (l.expr value).run ν = .ok (traced, ν')) :
      Woven place ν (.returnWith pos (some value))
        [traceCall l "traceBreak" [.text l.options.returnLabel, traced],
          .returnWith pos (some value)] ν'
  | block {pos : Position} {body body' : List Stmt} {ν' : Names}
      (hbody : WovenBlock l place body ν body' ν') :
      Woven place ν (.block pos body) [.block pos body'] ν'
  | expr {pos : Position} {e : Expr} {out : List Stmt} {ν' : Names}
      (woven : WovenExpr l (.expr pos e) ν e out ν') : Woven place ν (.expr pos e) out ν'

variable {l} {place : Place} {ν ν' : Names}

theorem wovenBody_of_weaves {body out : List Stmt}
    (h : Weaves (do bindDeclared l body; stmts l place body) ν out ν') :
    WovenBody l place body ν out ν' := by
  obtain ⟨_, bound, hbind, hstmts⟩ := weaves_bind h
  obtain ⟨hbinds, hfree⟩ := weaves_bindDeclared hbind
  exact ⟨hbinds, hfree, hstmts⟩

theorem wovenBlock_of_weaves {body out : List Stmt}
    (h : Weaves (inScope (do bindDeclared l body; stmts l place body)) ν out ν') :
    WovenBlock l place body ν out ν' := by
  obtain ⟨inner, hbody, rfl⟩ := weaves_inScope h
  exact ⟨wovenBody_of_weaves hbody⟩

theorem wovenFunction_of_weaves {params : List String} {self : Option (String × String)}
    {pos : Position} {body : List Stmt} {result : List Stmt × Expr}
    (h : Weaves (function l params self pos
      (do bindDeclared l body; stmts l .functionBody body)) ν result ν') :
    WovenFunction l params body ν self result.1 result.2 ν' := by
  obtain ⟨_, _, hparams, h₁⟩ := weaves_bind h
  obtain ⟨hfree, rfl⟩ := weaves_checkBindings hparams
  obtain ⟨_, ν₁, hself, h₂⟩ := weaves_bind h₁
  obtain ⟨_, _, hnames, h₃⟩ := weaves_bind h₂
  obtain ⟨rfl, rfl⟩ := weaves_names hnames
  obtain ⟨_, _, hset, h₄⟩ := weaves_bind h₃
  obtain rfl := weaves_setNames hset
  obtain ⟨out, inner, hbody, h₅⟩ := weaves_bind h₄
  obtain ⟨_, _, hinner, h₆⟩ := weaves_bind h₅
  obtain ⟨rfl, rfl⟩ := weaves_names hinner
  obtain ⟨_, _, hset', h₇⟩ := weaves_bind h₆
  obtain rfl := weaves_setNames hset'
  obtain ⟨rfl, rfl⟩ := weaves_pure h₇
  cases self with
  | none =>
      obtain ⟨-, rfl⟩ := weaves_pure hself
      exact .anonymous hfree (wovenBody_of_weaves hbody)
  | some entry =>
      obtain ⟨name, holder⟩ := entry
      obtain ⟨_, _, hname, hnil⟩ := weaves_bind hself
      obtain ⟨hfreeSelf, rfl⟩ := weaves_checkBinding hname
      obtain ⟨-, rfl⟩ := weaves_pure hnil
      exact .named hfree hfreeSelf (wovenBody_of_weaves hbody)

theorem wovenCall_of_weaves {name : String} {callee : Expr} {args : List Expr} {kept : Stmt}
    {out : List Stmt} (h : Weaves (call l name callee args kept) ν out ν') :
    WovenCall l name callee args kept ν out ν' := by
  unfold call at h
  split at h
  · rename_i hkind
    obtain ⟨rfl, rfl⟩ := weaves_pure h
    exact .require hkind
  · rename_i hkind
    obtain ⟨traced, ν₁, hargs, h₁⟩ := weaves_bind h
    have hout : WovenCall l name callee args kept ν _ ν₁ :=
      .console hkind (weaves_lowered hargs)
    split at h₁ <;> rename_i hname <;> obtain ⟨rfl, rfl⟩ := weaves_pure h₁
    · simpa [hname] using hout
    · simpa [hname] using hout
  · rename_i hkind
    obtain ⟨object', ν₁, hobject, h₁⟩ := weaves_bind h
    obtain ⟨traced, _, hargs, h₂⟩ := weaves_bind h₁
    obtain ⟨rfl, rfl⟩ := weaves_pure h₂
    exact .method hkind (weaves_lowered hobject) (weaves_lowered hargs)
  · rename_i hkind
    obtain ⟨callee', ν₁, hcallee, h₁⟩ := weaves_bind h
    obtain ⟨traced, _, hargs, h₂⟩ := weaves_bind h₁
    obtain ⟨rfl, rfl⟩ := weaves_pure h₂
    exact .function hkind (weaves_lowered hcallee) (weaves_lowered hargs)

theorem wovenExpr_of_weaves {e : Expr} {kept : Stmt} {out : List Stmt}
    (h : Weaves (expression l e kept) ν out ν') : WovenExpr l kept ν e out ν' := by
  unfold expression at h
  split at h
  · obtain ⟨value', ν₁, hvalue, h₁⟩ := weaves_bind h
    obtain ⟨target', _, htarget, h₂⟩ := weaves_bind h₁
    obtain ⟨rfl, rfl⟩ := weaves_pure h₂
    exact .assign (weaves_lowered hvalue) (weaves_lowered htarget)
  · split at h
    · obtain ⟨current, _, hcurrent, h₁⟩ := weaves_bind h
      obtain ⟨rfl, rfl⟩ := weaves_pure h₁
      exact .update (weaves_lowered hcurrent)
    · exact absurd h not_weaves_refuse
  · exact absurd h not_weaves_refuse
  · exact absurd h not_weaves_refuse
  · obtain ⟨e', _, he, h₁⟩ := weaves_bind h
    obtain ⟨rfl, rfl⟩ := weaves_pure h₁
    exact .pure (weaves_lowered he)

theorem weaves_binding {name : String} {pos : Position} {m : Weaving (List Stmt)}
    {out : List Stmt} (h : Weaves (binding name pos m) ν out ν') :
    ∃ ν₁, Weaves m ν out ν₁ ∧ ν' = ν₁.bind name pos := by
  obtain ⟨_, ν₁, hm, h₁⟩ := weaves_bind h
  obtain ⟨_, _, hbind, h₂⟩ := weaves_bind h₁
  obtain ⟨rfl, rfl⟩ := weaves_pure h₂
  exact ⟨ν₁, hm, weaves_bindName hbind⟩

theorem woven_of_weaves {s : Stmt} {out : List Stmt} (h : Weaves (stmt l place s) ν out ν') :
    Woven l place ν s out ν' := by
  unfold stmt at h
  split at h
  · obtain ⟨ν₁, h₁, rfl⟩ := weaves_binding h
    obtain ⟨⟨body', closure⟩, _, hfunction, h₂⟩ := weaves_bind h₁
    obtain ⟨rfl, rfl⟩ := weaves_pure h₂
    exact .letFunction (wovenFunction_of_weaves hfunction)
  · obtain ⟨ν₁, h₁, rfl⟩ := weaves_binding h
    exact .letCall (wovenCall_of_weaves h₁)
  · obtain ⟨ν₁, h₁, rfl⟩ := weaves_binding h
    obtain ⟨traced, _, hvalue, h₂⟩ := weaves_bind h₁
    obtain ⟨rfl, rfl⟩ := weaves_pure h₂
    exact .letValue (weaves_lowered hvalue)
  · obtain ⟨ν₁, h₁, rfl⟩ := weaves_binding h
    obtain ⟨rfl, rfl⟩ := weaves_pure h₁
    exact .letNone
  · exact absurd h not_weaves_refuse
  · exact absurd h not_weaves_refuse
  · obtain ⟨⟨body', closure⟩, _, hfunction, h₁⟩ := weaves_bind h
    obtain ⟨rfl, rfl⟩ := weaves_pure h₁
    exact .function (wovenFunction_of_weaves hfunction)
  · obtain ⟨traced, ν₁, htest, h₁⟩ := weaves_bind h
    obtain ⟨name, _, hfresh, h₂⟩ := weaves_bind h₁
    obtain ⟨hname, rfl⟩ := weaves_freshTest hfresh
    obtain ⟨_, _, hbefore, h₃⟩ := weaves_bind h₂
    obtain ⟨rfl, rfl⟩ := weaves_names hbefore
    obtain ⟨yes, ν₂, hyes, h₄⟩ := weaves_bind h₃
    obtain ⟨_, _, hafter, h₅⟩ := weaves_bind h₄
    obtain ⟨rfl, rfl⟩ := weaves_names hafter
    obtain ⟨joined, _, hjoin, h₆⟩ := weaves_bind h₅
    obtain ⟨hjoin, rfl⟩ := weaves_liftM hjoin
    obtain ⟨_, _, hset, h₇⟩ := weaves_bind h₆
    obtain rfl := weaves_setNames hset
    obtain ⟨rfl, rfl⟩ := weaves_pure h₇
    exact .ifThen (weaves_lowered htest) hname (wovenBlock_of_weaves hyes) hjoin
  · obtain ⟨traced, ν₁, htest, h₁⟩ := weaves_bind h
    obtain ⟨name, _, hfresh, h₂⟩ := weaves_bind h₁
    obtain ⟨hname, rfl⟩ := weaves_freshTest hfresh
    obtain ⟨_, _, hbefore, h₃⟩ := weaves_bind h₂
    obtain ⟨rfl, rfl⟩ := weaves_names hbefore
    obtain ⟨yes, ν₂, hyes, h₄⟩ := weaves_bind h₃
    obtain ⟨_, _, hafter, h₅⟩ := weaves_bind h₄
    obtain ⟨rfl, rfl⟩ := weaves_names hafter
    obtain ⟨_, _, hreset, h₆⟩ := weaves_bind h₅
    obtain rfl := weaves_setNames hreset
    obtain ⟨no, ν₃, hno, h₇⟩ := weaves_bind h₆
    obtain ⟨_, _, hafter', h₈⟩ := weaves_bind h₇
    obtain ⟨rfl, rfl⟩ := weaves_names hafter'
    obtain ⟨joined, _, hjoin, h₉⟩ := weaves_bind h₈
    obtain ⟨hjoin, rfl⟩ := weaves_liftM hjoin
    obtain ⟨_, _, hset, h₁₀⟩ := weaves_bind h₉
    obtain rfl := weaves_setNames hset
    obtain ⟨rfl, rfl⟩ := weaves_pure h₁₀
    exact .ifElse (weaves_lowered htest) hname (wovenBlock_of_weaves hyes)
      (wovenBlock_of_weaves hno) hjoin
  · obtain ⟨traced, ν₁, htest, h₁⟩ := weaves_bind h
    obtain ⟨body', _, hbody, h₂⟩ := weaves_bind h₁
    obtain ⟨rfl, rfl⟩ := weaves_pure h₂
    exact .whileDo (weaves_lowered htest) (wovenBlock_of_weaves hbody)
  · obtain ⟨body', _, hbody, h₁⟩ := weaves_bind h
    obtain ⟨rfl, rfl⟩ := weaves_pure h₁
    exact .labeled (wovenBlock_of_weaves hbody)
  · exact absurd h not_weaves_refuse
  · split at h
    · rename_i hlabel
      obtain ⟨rfl, rfl⟩ := weaves_pure h
      exact .breakTo hlabel
    · exact absurd h not_weaves_refuse
  · rename_i value
    by_cases hplace : place.inFunction = true
    · cases value with
      | none =>
          simp only [hplace, Bool.not_true, Bool.false_eq_true, if_false] at h
          obtain ⟨_, _, hunit, h₁⟩ := weaves_bind h
          obtain ⟨rfl, rfl⟩ := weaves_pure h₁
          obtain ⟨rfl, rfl⟩ := weaves_pure hunit
          exact .returnNone hplace
      | some value =>
          simp only [hplace, Bool.not_true, Bool.false_eq_true, if_false] at h
          obtain ⟨traced, _, hvalue, h₁⟩ := weaves_bind h
          obtain ⟨rfl, rfl⟩ := weaves_pure h₁
          exact .returnSome hplace (weaves_lowered hvalue)
    · simp only [hplace, Bool.not_false, if_true] at h
      obtain ⟨_, _, hrefuse, -⟩ := weaves_bind h
      exact absurd hrefuse not_weaves_refuse
  · obtain ⟨body', _, hbody, h₁⟩ := weaves_bind h
    obtain ⟨rfl, rfl⟩ := weaves_pure h₁
    exact .block (wovenBlock_of_weaves hbody)
  · exact .expr (wovenExpr_of_weaves h)

theorem weaves_nil {out : List Stmt} (h : Weaves (stmts l place []) ν out ν') :
    out = [] ∧ ν' = ν :=
  weaves_pure h

theorem weaves_cons {s : Stmt} {ss out : List Stmt}
    (h : Weaves (stmts l place (s :: ss)) ν out ν') :
    ∃ front rest ν₁, Woven l place ν s front ν₁ ∧ Weaves (stmts l place ss) ν₁ rest ν' ∧
      out = front ++ rest := by
  obtain ⟨front, ν₁, hs, h₁⟩ := weaves_bind h
  obtain ⟨rest, _, hss, h₂⟩ := weaves_bind h₁
  obtain ⟨rfl, rfl⟩ := weaves_pure h₂
  exact ⟨front, rest, ν₁, woven_of_weaves hs, hss, rfl⟩

/-- An accepted program uses no name that it does not bind. -/
theorem instrument_eq_ok {options : InstrumentOptions} {primitives : Primitives} {p q : Program}
    (h : instrument options primitives p = .ok q) :
    let l : Lower := ⟨options, primitives⟩
    ∃ out ν', WovenBody l .top p Names.none out ν' ∧ ν'.captures = [] ∧
      q = [requireModule options.expBinding options.expModule,
        requireModule options.callbacksBinding options.callbacksModule,
        traceCall l "newTrace" []] ++ out ++ [exitBlock l] := by
  intro l
  obtain ⟨⟨ν', t'⟩, hrun⟩ := run'_eq_ok_iff.mp h
  have hweaves : Weaves (program l p) Names.none q ν' := ⟨0, t', hrun⟩
  obtain ⟨_, bound, hbind, h₁⟩ := weaves_bind hweaves
  obtain ⟨out, ν₁, hstmts, h₂⟩ := weaves_bind h₁
  obtain ⟨_, _, hnames, h₃⟩ := weaves_bind h₂
  obtain ⟨rfl, rfl⟩ := weaves_names hnames
  obtain ⟨hbinds, hfree⟩ := weaves_bindDeclared hbind
  split at h₃
  · exact absurd h₃ not_weaves_refuse
  · rename_i hcaptures
    obtain ⟨rfl, rfl⟩ := weaves_pure h₃
    exact ⟨out, _, ⟨hbinds, hfree, hstmts⟩, hcaptures, rfl⟩

end TraceLoom.Instrument
