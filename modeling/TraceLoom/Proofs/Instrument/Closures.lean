import TraceLoom.Proofs.Instrument.Weaving
import TraceLoom.Script.NormalForm

/-!
Closure records are exact.  The record of a function has one field for each name that is free in
the function and that a program has to provide itself, and each field says where the function
around it has the name from.
-/

namespace TraceLoom.Instrument

open Script

/-! ## Records in a program -/

/-- The variable and the fields of a closure record that a statement records. -/
def closureRecord? (options : InstrumentOptions) : Stmt → Option (String × Fields Expr)
  | .expr _ (.call _ (.member _ (.member _ (.name _ callbacks) "trace") "traceLet")
      [.string _ holder, .call _ (.member _ (.name _ builder) "clos") [.object _ fields]]) =>
    if callbacks = options.callbacksBinding ∧ builder = options.expBinding then
      some (holder, fields)
    else none
  | _ => none

mutual

/-- The closure records in a statement, in order. -/
def closureRecords (options : InstrumentOptions) : Stmt → List (String × Fields Expr)
  | .declare _ _ [(_, some (.function _ _ _ body))] => closureRecordsList options body
  | .function _ _ _ body => closureRecordsList options body
  | .ifElse _ _ consequent none => closureRecordsList options consequent
  | .ifElse _ _ consequent (some alternate) =>
    closureRecordsList options consequent ++ closureRecordsList options alternate
  | .whileDo _ _ body | .labeled _ _ body | .block _ body => closureRecordsList options body
  | s => (closureRecord? options s).toList
termination_by structural s => s

def closureRecordsList (options : InstrumentOptions) : List Stmt → List (String × Fields Expr)
  | [] => []
  | s :: ss => closureRecords options s ++ closureRecordsList options ss
termination_by structural ss => ss

end

/-! ## Exactness -/

/-- What builds the field of a name in the closure record of a function. -/
def fieldSource (options : InstrumentOptions) (site : FunctionSite) (n : String) : Expr :=
  if site.self = some n then
    .invoke (.ident options.expBinding) "identifier" [.text site.holder]
  else if n ∈ site.bound then .invoke (.ident options.expBinding) "identifier" [.text n]
  else .invoke (.ident options.expBinding) "from" [.ident closureParam, .text n]

/-- The record of a function has the names it has to capture for its fields, and no others.  What
a function expression binds by giving itself a name is a parameter, `own`. -/
structure ExactRecord (options : InstrumentOptions) (primitives : Primitives)
    (own : Option String → List String) (site : FunctionSite) (record : String × Fields Expr) :
    Prop where
  holder : record.1 = site.holder
  distinct : record.2.keys.Nodup
  field : ∀ n, record.2.get? n =
    if n ∈ (site.freeNames own).filter primitives.mayCapture then
      some (fieldSource options site n)
    else none

section

variable {l : Lower} {ν ν' : Names} {own : Option String → List String}

section

-- every form of statement is looked at once here; from then on only the lemmas are used
attribute [local simp] closureRecord? closureRecords closureRecordsList

@[simp] theorem closureRecordsList_append (options : InstrumentOptions) (ss ts : List Stmt) :
    closureRecordsList options (ss ++ ts) =
      closureRecordsList options ss ++ closureRecordsList options ts := by
  induction ss with
  | nil => rfl
  | cons s ss ih => simp [ih]

/-- Only a record of a variable can be a closure record. -/
theorem closureRecords_traceCall {operation : String} (h : operation ≠ "traceLet")
    (args : List Expr) : closureRecords l.options (traceCall l operation args) = [] := by
  unfold traceCall traceExpr Stmt.ofExpr Expr.invoke Expr.dot closureRecords closureRecord?
  split <;> simp_all

theorem closureRecords_traceLet_builder {constructor : String} (h : constructor ≠ "clos")
    (name : String) (args : List Expr) :
    closureRecords l.options (traceLet l name (l.builder constructor args)) = [] := by
  unfold traceLet traceCall traceExpr Stmt.ofExpr Lower.builder Expr.invoke Expr.dot
    closureRecords closureRecord?
  split <;> simp_all

theorem closureRecords_traceLet_closureRecord (name : String) (self : Option (String × String))
    (sources : List (String × Binding)) :
    closureRecords l.options (traceLet l name (l.closureRecord self sources)) =
      [(name, (self.toList.map fun entry => (entry.1, l.source entry.2 .own)) ++
        sources.map fun entry => (entry.1, l.source entry.1 entry.2))] := by
  simp [traceLet, traceCall, traceExpr, Stmt.ofExpr, Lower.builder, Lower.closureRecord,
    Expr.invoke, Expr.dot, Expr.ident, Expr.text, Expr.record]

theorem closureRecords_traceLet_undefined (name : String) :
    closureRecords l.options (traceLet l name l.undefined) = [] := by
  simp [traceLet, traceCall, traceExpr, Stmt.ofExpr, Lower.undefined, Expr.invoke, Expr.dot,
    Expr.ident, Expr.text]

theorem closureRecords_traceLet_ident (name argument : String) :
    closureRecords l.options (traceLet l name (.ident argument)) = [] := by
  simp [traceLet, traceCall, traceExpr, Stmt.ofExpr, Expr.invoke, Expr.dot,
    Expr.ident, Expr.text]

/-- What lowering gives is not a closure record. -/
theorem closureRecords_traceLet_expr {e e' : Expr} (h : (l.expr e).run ν = .ok (e', ν'))
    (name : String) : closureRecords l.options (traceLet l name e') = [] := by
  obtain rfl | ⟨constructor, args, hclos, rfl⟩ := Lower.eq_builder_of_expr h
  · exact closureRecords_traceLet_undefined name
  · exact closureRecords_traceLet_builder hclos name args

theorem closureRecords_letNamed_expr {e e' : Expr} (h : (l.expr e).run ν = .ok (e', ν'))
    (name : String) : closureRecords l.options (.letNamed name e') = [] := by
  obtain rfl | ⟨constructor, args, -, rfl⟩ := Lower.eq_builder_of_expr h
  · simp [Stmt.letNamed, Lower.undefined, Expr.dot]
  · simp [Stmt.letNamed, Lower.builder, Expr.invoke]

theorem closureRecords_prologue (params : List String) :
    closureRecordsList l.options (prologue l params) = [] := by
  have hlets : ∀ entries : List (String × String), closureRecordsList l.options
      (entries.map fun entry => traceLet l entry.1 (.ident entry.2)) = [] := by
    intro entries
    induction entries with
    | nil => rfl
    | cons entry entries ih =>
        simp [closureRecords_traceLet_ident, ih]
  simpa [prologue, traceExpr, Expr.invoke] using hlets _

end

/-! ## The record of one function -/

theorem Names.get?_sources {bound : List String} (hν : ν.Sees bound) (inner : Names) (n : String) :
    Fields.get? n ((ν.closeOver inner).2.map fun entry => (entry.1, l.source entry.1 entry.2)) =
      if n ∈ inner.captures.map (·.1) then
        some (l.source n (if n ∈ bound then .own else .captured))
      else none := by
  rw [(Names.closeOver_eq ν inner).2, List.map_map]
  simp only [Function.comp_def, hν.getD_lookup]
  exact Fields.get?_map_key n (fun m => l.source m (if m ∈ bound then .own else .captured)) _

variable {params : List String} {body body' : List Stmt} {bound : List String} {closure : Expr}

/-- The functions in a list of statements have exact records. -/
def ExactRecords (l : Lower) (own : Option String → List String) (sites : List FunctionSite)
    (out : List Stmt) : Prop :=
  List.Forall₂ (ExactRecord l.options l.primitives own) sites (closureRecordsList l.options out)

/-- In its body a function uses what is free there, and the records in it are exact. -/
def ExactBody (l : Lower) (place : Place) (body : List Stmt) : Prop :=
  ∀ {bound : List String} {ν ν' : Names} {out : List Stmt}, ν.Sees bound →
    (∀ n ∈ declaredIn body, n ∈ bound) → Weaves (stmts l place body) ν out ν' →
    ν.Uses ((Stmt.freeNamesList Option.toList body).filter l.primitives.mayCapture) ν' ∧
      ExactRecords l Option.toList (Stmt.functionSitesList bound body) out

theorem exact_wovenBody {pos : Position} {out : List Stmt} {inner : Names}
    (hbody : ExactBody l .functionBody body)
    (h : WovenBody l .functionBody body (Names.ofParams params pos) out inner) :
    (Fields.keys inner).Nodup ∧
      (∀ n, inner.lookup n = some .captured ↔
        n ∈ ((Stmt.freeNamesList Option.toList body).filter l.primitives.mayCapture).filter
          (· ∉ params ++ declaredIn body)) ∧
      ExactRecords l Option.toList (Stmt.functionSitesList (params ++ declaredIn body) body)
        out := by
  obtain ⟨hbinds, -, hwoven⟩ := h
  have hall := (Names.binds_ofParams params pos).trans hbinds
  have hsees := Names.Sees.none.binds hall
  obtain ⟨huses, hrecords⟩ := hbody hsees (by simp +contextual) hwoven
  exact ⟨(hsees.uses huses).nodup, fun n => Names.captured_iff_of_binds hall huses, hrecords⟩

/-- A record with the field of the function's own name, where it is used, and the fields of what
else is captured is exact. -/
theorem exactRecord_of_captures {site : FunctionSite} {kept : Names}
    {named : Option (String × String)} (hν : ν.Sees site.bound) (hnodup : (Fields.keys kept).Nodup)
    (hkept : ∀ n, n ∈ kept.captures.map (·.1) ↔
      n ∈ (site.freeNames own).filter l.primitives.mayCapture ∧ site.self ≠ some n)
    (hnamed : ∀ n, Fields.get? n (named.toList.map fun entry => (entry.1, l.source entry.2 .own)) =
      if n ∈ (site.freeNames own).filter l.primitives.mayCapture ∧ site.self = some n then
        some (l.source site.holder .own)
      else none) :
    ExactRecord l.options l.primitives own site
      (site.holder, (named.toList.map fun entry => (entry.1, l.source entry.2 .own)) ++
        (ν.closeOver kept).2.map fun entry => (entry.1, l.source entry.1 entry.2)) := by
  refine ⟨rfl, ?_, fun n => ?_⟩
  · have hkeys : Fields.keys ((ν.closeOver kept).2.map fun entry =>
        (entry.1, l.source entry.1 entry.2)) = kept.captures.map (·.1) := by
      simp [Fields.keys, (Names.closeOver_eq ν kept).2]
    cases named with
    | none => simpa [hkeys] using Names.nodup_captures hnodup
    | some entry =>
        have hself : site.self = some entry.1 := by
          have hget := hnamed entry.1
          by_contra hself
          simp [Fields.get?, hself] at hget
        have hcons : entry.1 ∉ kept.captures.map (·.1) := by
          rw [hkept]
          exact fun h => h.2 hself
        rw [← hkeys] at hcons
        have hrest := Names.nodup_captures hnodup
        rw [← hkeys] at hrest
        exact List.nodup_cons.mpr ⟨hcons, hrest⟩
  · rw [Fields.get?_append, hnamed, Names.get?_sources hν]
    by_cases hfree : n ∈ (site.freeNames own).filter l.primitives.mayCapture
    · rw [if_pos hfree]
      by_cases hself : site.self = some n
      · simp [hfree, hself, fieldSource, Lower.source, Lower.builder]
      · rw [if_neg (fun h => hself h.2), if_pos ((hkept n).mpr ⟨hfree, hself⟩), Option.none_or]
        by_cases hbound : n ∈ site.bound <;>
          simp [fieldSource, hself, hbound, Lower.source, Lower.builder]
    · rw [if_neg hfree, if_neg (fun h => hfree h.1), if_neg (fun h => hfree ((hkept n).mp h).1)]
      rfl

/-- A function uses what is free in it, its record is exact, and so are those in its body. -/
theorem exact_function {self : Option String} {holder : String} (hν : ν.Sees bound)
    (hbody : ExactBody l .functionBody body)
    (h : WovenFunction l params body ν (self.map (·, holder)) body' closure ν') :
    ν.Uses (((Stmt.freeNamesList Option.toList body).filter
        (· ∉ params ++ declaredIn body ++ self.toList)).filter l.primitives.mayCapture) ν' ∧
      ∃ record, closureRecords l.options (traceLet l holder closure) = [record] ∧
        ExactRecord l.options l.primitives Option.toList ⟨holder, self, params, body, bound⟩
          record ∧
        ExactRecords l Option.toList (Stmt.functionSitesList (params ++ declaredIn body) body)
          body' := by
  have hout : ∀ {out : List Stmt},
      ExactRecords l Option.toList (Stmt.functionSitesList (params ++ declaredIn body) body) out →
      ExactRecords l Option.toList (Stmt.functionSitesList (params ++ declaredIn body) body)
        (prologue l params ++ out ++ [exitBlock l]) := by
    intro out hrecords
    simpa [ExactRecords, closureRecords_prologue, closureRecordsList, exitBlock,
      closureRecords_traceCall] using hrecords
  generalize hself : self.map (·, holder) = self' at h
  cases h with
  | anonymous hfree hwoven =>
      rename_i pos out inner
      obtain rfl : self = none := by simpa using hself
      obtain ⟨hnodup, hcaptured, hrecords⟩ := exact_wovenBody hbody hwoven
      have hmem : ∀ n, n ∈ inner.captures.map (·.1) ↔
          n ∈ ((Stmt.freeNamesList Option.toList body).filter
            (· ∉ params ++ declaredIn body)).filter l.primitives.mayCapture := by
        intro n
        rw [Names.mem_captures_iff hnodup, hcaptured, List.filter_comm]
      refine ⟨((Names.closeOver_eq ν inner).1).congr (by simpa using hmem), _,
        closureRecords_traceLet_closureRecord _ _ _,
        exactRecord_of_captures hν hnodup (fun n => ?_) (fun n => ?_), hout hrecords⟩
      · rw [hmem]
        exact (and_iff_left nofun).symm
      · simp [Fields.get?]
  | named hfree hfreeSelf hwoven =>
      rename_i pos out inner name holder'
      obtain ⟨n, rfl, hentry⟩ : ∃ n, self = some n ∧ (n, holder) = (name, holder') := by
        simpa using hself
      obtain ⟨rfl, rfl⟩ := Prod.mk.inj hentry
      obtain ⟨hnodup, hcaptured, hrecords⟩ := exact_wovenBody hbody hwoven
      have hkept : ∀ m, m ∈ (inner.forget n).1.captures.map (·.1) ↔
          m ∈ ((Stmt.freeNamesList Option.toList body).filter
            (· ∉ params ++ declaredIn body)).filter l.primitives.mayCapture ∧ m ≠ n := by
        intro m
        rw [Names.mem_captures_iff (Names.nodup_forget n hnodup), Names.captured_forget_iff,
          hcaptured, List.filter_comm]
      refine ⟨((Names.closeOver_eq ν (inner.forget n).1).1).congr (fun m => ?_), _,
        closureRecords_traceLet_closureRecord _ _ _,
        exactRecord_of_captures hν (Names.nodup_forget n hnodup) (fun m => ?_) (fun m => ?_),
        hout hrecords⟩
      · rw [hkept]
        simp only [List.mem_filter, List.mem_append, Option.mem_toList, decide_eq_true_eq, not_or]
        grind
      · rw [hkept]
        exact and_congr_right fun _ => by simp [eq_comm]
      · have hforget : (inner.forget n).2 = true ↔
            n ∈ ((Stmt.freeNamesList Option.toList body).filter
              (· ∉ params ++ declaredIn body)).filter l.primitives.mayCapture := by
          rw [Names.snd_forget, decide_eq_true_iff, hcaptured, List.filter_comm]
        by_cases hfree : (inner.forget n).2 = true
        · by_cases hm : n = m
          · subst hm
            simp only [hfree, if_true]
            rw [if_pos ⟨hforget.mp hfree, trivial⟩]
            simp [Fields.get?]
          · simp [hfree, hm, Fields.get?]
        · rw [if_neg hfree, if_neg]
          · rfl
          · rintro ⟨hmem, hself⟩
            obtain rfl := Option.some.inj hself
            exact hfree (hforget.mpr hmem)

/-! ## The records of a program -/

theorem exact_wovenBlock {place : Place} {out : List Stmt} (hν : ν.Sees bound)
    (hbody : ExactBody l place body) (h : WovenBlock l place body ν out ν') :
    ν.Uses (((Stmt.freeNamesList Option.toList body).filter
        (· ∉ declaredIn body)).filter l.primitives.mayCapture) ν' ∧
      ExactRecords l Option.toList (Stmt.functionSitesList (bound ++ declaredIn body) body)
        out := by
  obtain ⟨hbinds, -, hwoven⟩ := h
  obtain ⟨huses, hrecords⟩ := hbody (hν.binds hbinds) (by simp +contextual) hwoven
  refine ⟨?_, hrecords⟩
  rw [List.filter_comm]
  exact huses.leave hν.nodup hbinds

theorem uses_wovenCall (own : Option String → List String) {name : String} {callee : Expr} {args : List Expr} {kept : Stmt}
    {out : List Stmt} (hrequire : l.primitives.isGlobal "require")
    (hconsole : l.primitives.isGlobal "console") (h : WovenCall l name callee args kept ν out ν') :
    ν.Uses ((callee.freeNames own ++ Expr.freeNamesList own args).filter l.primitives.mayCapture)
      ν' := by
  rw [List.filter_append]
  cases h with
  | require hkind =>
      unfold Primitives.classify at hkind
      split at hkind
      · split at hkind
        · simpa [Expr.freeNames, Expr.freeNamesList, Primitives.mayCapture, hrequire] using
            Names.Uses.refl ν
        · cases hkind
      · split at hkind <;> (try split at hkind) <;> cases hkind
      · cases hkind
  | console hkind hargs =>
      have hcallee : (callee.freeNames own).filter l.primitives.mayCapture = [] := by
        unfold Primitives.classify at hkind
        split at hkind
        · split at hkind <;> cases hkind
        · rename_i object property
          split at hkind
          · rename_i hobject
            cases object <;> simp [Expr.name?] at hobject
            simp [Expr.freeNames, Primitives.mayCapture, hobject, hconsole]
          · split at hkind <;> cases hkind
        · cases hkind
      simpa [hcallee] using Lower.uses_exprs own args hargs
  | method hkind hobject hargs =>
      rename_i object _ method _ _
      have hcallee : callee.freeNames own = object.freeNames own := by
        unfold Primitives.classify at hkind
        split at hkind
        · split at hkind <;> cases hkind
        · split at hkind
          · cases hkind
          · split at hkind <;> cases hkind
            rfl
        · cases hkind
      rw [hcallee]
      exact (Lower.uses_expr own object hobject).trans (Lower.uses_exprs own args hargs)
  | function hkind hcallee hargs =>
      exact (Lower.uses_callee own hcallee).trans (Lower.uses_exprs own args hargs)

theorem closureRecords_wovenCall {name : String} {callee : Expr} {args : List Expr} {kept : Stmt}
    {out : List Stmt} (hkept : closureRecords l.options kept = [])
    (h : WovenCall l name callee args kept ν out ν') :
    closureRecordsList l.options out = [] := by
  cases h with
  | require hkind | method hkind hobject hargs =>
      simp [closureRecordsList, hkept, closureRecords_traceLet_builder]
  | console hkind hargs =>
      split <;> simp [closureRecordsList, hkept, closureRecords_traceCall,
        closureRecords_traceLet_undefined]
  | function hkind hcallee hargs =>
      simp [closureRecordsList, hkept, closureRecords_traceCall, exitBlock]

theorem uses_wovenExpr (own : Option String → List String) {e : Expr} {kept : Stmt} {out : List Stmt}
    (h : WovenExpr l kept ν e out ν') :
    ν.Uses ((e.freeNames own).filter l.primitives.mayCapture) ν' := by
  cases h with
  | assign hvalue htarget =>
      have huses := (Lower.uses_expr own _ hvalue).trans
        (Lower.uses_target own htarget)
      refine huses.congr fun n => ?_
      simp only [Expr.freeNames, List.filter_append, List.mem_append]
      exact or_comm
  | update hname => exact Lower.uses_reference hname
  | pure hexpr => exact Lower.uses_expr own _ hexpr

theorem closureRecords_wovenExpr {e : Expr} {pos : Position} {out : List Stmt}
    (h : WovenExpr l (.expr pos e) ν e out ν') : closureRecordsList l.options out = [] := by
  cases h with
  | assign hvalue htarget | update hname =>
      simp [closureRecordsList, closureRecords_traceCall, closureRecords, closureRecord?]
  | pure hexpr =>
      cases e with
      | call => exact absurd hexpr run_throw_ne_ok
      | _ => simp [closureRecordsList, closureRecords, closureRecord?]

mutual

theorem exact_stmt {place : Place} {bound : List String} {ν ν' : Names} {out : List Stmt}
    (s : Stmt) (hrequire : l.primitives.isGlobal "require")
    (hconsole : l.primitives.isGlobal "console") (hν : ν.Sees bound)
    (hdeclared : ∀ n ∈ declared s, n ∈ bound)
    (h : Woven l place ν s out ν') :
    ν.Uses ((s.freeNames Option.toList).filter l.primitives.mayCapture) ν' ∧
      ExactRecords l Option.toList (s.functionSites bound) out := by
  cases h with
  | letFunction hwoven =>
      rename_i pos fpos kind name self params body body' closure ν₁
      obtain ⟨huses, record, hrecord, hexact, hrecords⟩ :=
        exact_function hν (exact_stmts body hrequire hconsole) hwoven
      rw [(hν.uses huses).bind_eq_self (hdeclared name (by simp [declared, Pattern.names]))]
      refine ⟨?_, ?_⟩
      · simpa [Stmt.freeNames, Stmt.freeNamesDeclarators, Expr.freeNames] using huses
      · simpa [ExactRecords, Stmt.functionSites, closureRecordsList, closureRecords, hrecord]
          using ⟨hexact, hrecords⟩
  | letCall hwoven =>
      rename_i pos cpos kind name callee args ν₁
      have huses := uses_wovenCall Option.toList hrequire hconsole hwoven
      rw [(hν.uses huses).bind_eq_self (hdeclared name (by simp [declared, Pattern.names]))]
      refine ⟨?_, ?_⟩
      · simpa [Stmt.freeNames, Stmt.freeNamesDeclarators, Expr.freeNames] using huses
      · rw [ExactRecords, closureRecords_wovenCall (by simp [closureRecords, closureRecord?]) hwoven]
        exact .nil
  | letValue hvalue =>
      rename_i pos kind name value traced ν₁
      have huses := Lower.uses_expr Option.toList value hvalue
      rw [(hν.uses huses).bind_eq_self (hdeclared name (by simp [declared, Pattern.names]))]
      refine ⟨?_, ?_⟩
      · simpa [Stmt.freeNames, Stmt.freeNamesDeclarators] using huses
      · have hkept : closureRecords l.options
            (.declare pos kind [(.name name, some value)]) = [] := by
          cases value with
          | function => exact absurd hvalue run_throw_ne_ok
          | _ => simp [closureRecords, closureRecord?]
        have hsites : Stmt.functionSites bound
            (.declare pos kind [(.name name, some value)]) = [] := by
          cases value with
          | function => exact absurd hvalue run_throw_ne_ok
          | _ => simp [Stmt.functionSites]
        rw [ExactRecords, hsites]
        simp [closureRecordsList, closureRecords_traceLet_expr hvalue, hkept]
  | letNone =>
      rename_i pos kind name
      rw [hν.bind_eq_self (hdeclared name (by simp [declared, Pattern.names]))]
      refine ⟨Names.Uses.refl ν, ?_⟩
      simp [ExactRecords, Stmt.functionSites, closureRecordsList, closureRecords, closureRecord?,
        closureRecords_traceLet_undefined]
  | function hwoven =>
      rename_i pos name params body body' closure
      change WovenFunction l params body ν (Option.map (·, name) none) body' closure ν' at hwoven
      obtain ⟨huses, record, hrecord, hexact, hrecords⟩ :=
        exact_function hν (exact_stmts body hrequire hconsole) hwoven
      refine ⟨?_, ?_⟩
      · simpa [Stmt.freeNames] using huses
      · rw [ExactRecords, closureRecordsList, hrecord]
        simpa [Stmt.functionSites, closureRecordsList, closureRecords] using ⟨hexact, hrecords⟩
  | ifThen htest hname hyes hjoin =>
      rename_i pos test traced consequent yes name ν₁ ν₂
      have hlet := closureRecords_letNamed_expr htest name
      have htest := Lower.uses_expr Option.toList test htest
      obtain ⟨hyes, hrecords⟩ := exact_wovenBlock (hν.uses htest) (exact_stmts consequent hrequire hconsole) hyes
      refine ⟨?_, ?_⟩
      · simpa [Stmt.freeNames] using htest.trans (hyes.join (Names.Uses.refl ν₁) hjoin)
      · simpa [ExactRecords, Stmt.functionSites, closureRecordsList, closureRecords,
          hlet, closureRecords_traceCall, exitBlock] using hrecords
  | ifElse htest hname hyes hno hjoin =>
      rename_i pos test traced consequent alternate yes no name ν₁ ν₂ ν₃
      have hlet := closureRecords_letNamed_expr htest name
      have htest := Lower.uses_expr Option.toList test htest
      obtain ⟨hyes, hyesRecords⟩ := exact_wovenBlock (hν.uses htest) (exact_stmts consequent hrequire hconsole) hyes
      obtain ⟨hno, hnoRecords⟩ := exact_wovenBlock (hν.uses htest) (exact_stmts alternate hrequire hconsole) hno
      refine ⟨?_, ?_⟩
      · simpa [Stmt.freeNames] using htest.trans (hyes.join hno hjoin)
      · have hboth := List.rel_append hyesRecords hnoRecords
        simpa [ExactRecords, Stmt.functionSites, closureRecordsList, closureRecords,
          hlet, closureRecords_traceCall, exitBlock] using hboth
  | whileDo htest hbody =>
      rename_i pos test traced body body' ν₁
      have htest := Lower.uses_expr Option.toList test htest
      obtain ⟨hbody, hrecords⟩ := exact_wovenBlock (hν.uses htest) (exact_stmts body hrequire hconsole) hbody
      refine ⟨?_, ?_⟩
      · simpa [Stmt.freeNames] using htest.trans hbody
      · simpa [ExactRecords, Stmt.functionSites, closureRecordsList, closureRecords,
          closureRecords_traceCall, exitBlock] using hrecords
  | labeled hbody =>
      rename_i pos label body body'
      obtain ⟨huses, hrecords⟩ := exact_wovenBlock hν (exact_stmts body hrequire hconsole) hbody
      refine ⟨by simpa [Stmt.freeNames] using huses, ?_⟩
      simpa [ExactRecords, Stmt.functionSites, closureRecordsList, closureRecords,
        closureRecords_traceCall, exitBlock] using hrecords
  | breakTo hlabel | returnNone hplace =>
      refine ⟨Names.Uses.refl ν, ?_⟩
      simp [ExactRecords, Stmt.functionSites, closureRecordsList, closureRecords, closureRecord?,
        closureRecords_traceCall]
  | returnSome hplace hvalue =>
      refine ⟨Lower.uses_expr Option.toList _ hvalue, ?_⟩
      simp [ExactRecords, Stmt.functionSites, closureRecordsList, closureRecords, closureRecord?,
        closureRecords_traceCall]
  | block hbody =>
      rename_i pos body body'
      obtain ⟨huses, hrecords⟩ := exact_wovenBlock hν (exact_stmts body hrequire hconsole) hbody
      refine ⟨by simpa [Stmt.freeNames] using huses, ?_⟩
      simpa [ExactRecords, Stmt.functionSites, closureRecordsList, closureRecords] using hrecords
  | expr hwoven =>
      refine ⟨uses_wovenExpr Option.toList hwoven, ?_⟩
      rw [ExactRecords, closureRecords_wovenExpr hwoven]
      exact .nil
termination_by sizeOf s

theorem exact_stmts {place : Place} (ss : List Stmt)
    (hrequire : l.primitives.isGlobal "require") (hconsole : l.primitives.isGlobal "console") :
    ExactBody l place ss := by
  intro bound ν ν' out hν hdeclared h
  cases ss with
  | nil =>
      obtain ⟨rfl, rfl⟩ := weaves_nil h
      exact ⟨Names.Uses.refl _, .nil⟩
  | cons s ss =>
      obtain ⟨front, rest, ν₁, hs, hss, rfl⟩ := weaves_cons h
      rw [declaredIn, List.flatMap_cons, List.forall_mem_append] at hdeclared
      obtain ⟨huses, hfront⟩ := exact_stmt s hrequire hconsole hν hdeclared.1 hs
      obtain ⟨hmore, hrest⟩ := exact_stmts ss hrequire hconsole (hν.uses huses) hdeclared.2 hss
      refine ⟨?_, ?_⟩
      · rw [Stmt.freeNamesList, List.filter_append]
        exact huses.trans hmore
      · rw [ExactRecords, Stmt.functionSitesList, closureRecordsList_append]
        exact List.rel_append hfront hrest
termination_by sizeOf ss

end

end

/-- The standard primitives with more methods and more names that the host provides. -/
def extended (methods globals : List String) : Primitives :=
  globals.foldl .addGlobal (methods.foldl .addMethod .default)

theorem isGlobal_extended {n : String} (methods globals : List String)
    (h : Primitives.default.isGlobal n) : (extended methods globals).isGlobal n := by
  have hmethods : ∀ p : Primitives, p.isGlobal n → (methods.foldl .addMethod p).isGlobal n := by
    induction methods with
    | nil => exact fun _ h => h
    | cons method methods ih => exact fun p hp => ih _ hp
  have hglobals : ∀ p : Primitives, p.isGlobal n → (globals.foldl .addGlobal p).isGlobal n := by
    induction globals with
    | nil => exact fun _ h => h
    | cons name globals ih =>
        refine fun p hp => ih _ ?_
        simp [Primitives.isGlobal, Primitives.addGlobal] at hp ⊢
        exact .inl hp
  exact hglobals _ (hmethods _ h)

/-- The closure records of an accepted program are exact, one for each function, in order. -/
theorem closureRecords_exact {options : InstrumentOptions} {methods globals : List String}
    {p q : Program} (h : instrument options (extended methods globals) p = .ok q) :
    List.Forall₂ (ExactRecord options (extended methods globals) Option.toList)
      (Program.functionSites p) (closureRecordsList options q) := by
  obtain ⟨out, ν', ⟨hbinds, -, hwoven⟩, -, rfl⟩ := instrument_eq_ok h
  have hsees := Names.Sees.none.binds hbinds
  have hexact := (exact_stmts p (isGlobal_extended methods globals rfl)
    (isGlobal_extended methods globals rfl) hsees (by simp) hwoven).2
  have hcall : ∀ {operation : String}, operation ≠ "traceLet" →
      closureRecords options (traceCall ⟨options, extended methods globals⟩ operation []) = [] :=
    fun hoperation => closureRecords_traceCall hoperation []
  simpa [ExactRecords, Program.functionSites, closureRecordsList, closureRecords, closureRecord?,
    hcall, exitBlock, requireModule, Stmt.letNamed] using hexact

/-- `let h = "a"; function f() { let k = function h() { return h; }; return k; }` -/
def selfNamed : Program :=
  [.letNamed "h" (.text "a"),
    .function .none "f" []
      [.letNamed "k" (.function .none (some "h") [] [.returnWith .none (some (.ident "h"))]),
        .returnWith .none (some (.ident "k"))]]

theorem closureRecords_exact_selfNamed : ∃ q,
    instrument .default (extended ["concat"] ["process"]) selfNamed = .ok q ∧
      List.Forall₂ (ExactRecord .default (extended ["concat"] ["process"]) Option.toList)
        (Program.functionSites selfNamed) (closureRecordsList .default q) :=
  ⟨_, rfl, closureRecords_exact rfl⟩

/-- The name that a function expression gives itself is not a field of the functions around it,
even where they see a variable of that name. -/
theorem closureRecords_selfNamed_inexact : ∃ q,
    normalize selfNamed = .ok selfNamed ∧
      instrument .default (extended [] []) selfNamed = .ok q ∧
      ¬ List.Forall₂ (ExactRecord .default (extended [] []) fun _ => [])
        (Program.functionSites selfNamed) (closureRecordsList .default q) := by
  refine ⟨_, by with_unfolding_all rfl, rfl, ?_⟩
  intro hexact
  rcases hexact with _ | ⟨⟨-, -, hfield⟩, -⟩
  have h := hfield "h"
  rw [if_pos (by decide)] at h
  cases h

end TraceLoom.Instrument
