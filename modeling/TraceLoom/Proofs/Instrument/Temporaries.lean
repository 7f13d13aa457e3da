import TraceLoom.Proofs.Instrument.Accepted
import TraceLoom.Proofs.Instrument.Nodes
import TraceLoom.Proofs.Script.Introduced

/-!
Generated names in traces.  Where an instrumented program builds the node of a generated name, the
name has been recorded before in the same list of statements.  The only exception is the result of
a call of the console, which no statement records.
-/

namespace TraceLoom

open Script

/-! ## What a statement list records -/

namespace Instrument

variable (l : Lower)

/-- The name that an inserted statement records with its value. -/
def recordedNames : Stmt → List String
  | .expr _ (.call _ (.member _ (.member _ (.name _ callbacks) "trace") operation)
      (.string _ n :: _)) =>
    if callbacks = l.options.callbacksBinding ∧
        (operation = "traceLet" ∨ operation = "traceFunctionCall") then [n]
    else []
  | _ => []

/-- The variable that holds the result of a call of the console. -/
def consoleResults : Stmt → List String
  | .declare _ _ [(.name n, some (.call _ callee args))] =>
    match l.primitives.classify callee args with
    | .console _ => [n]
    | _ => []
  | _ => []

/-- The generated names whose nodes a statement builds. -/
def generatedNodes (s : Stmt) : List String :=
  (s.builtNames l.options.expBinding).filter NormalForm.isReserved

/-- In a list of statements generated names are recorded before their nodes are built, but for the
results of calls of the console. -/
abbrev Records (known : List String) (ss : List Stmt) : Prop :=
  Ordered (generatedNodes l) (fun s => recordedNames l s ++ consoleResults l s) known ss

/-- In a list of statements and in all lists in it, generated names are recorded before their nodes
are built. -/
structure RecordsAll (known : List String) (ss : List Stmt) : Prop where
  here : Records l known ss
  inside : Stmt.EverywhereIn (fun s => ∀ body ∈ s.bodies, Records l [] body) ss

variable {l} {known : List String} {s : Stmt} {ss ts : List Stmt}

namespace RecordsAll

theorem nil : RecordsAll l known [] :=
  ⟨trivial, trivial⟩

theorem cons (hs : s.Everywhere fun s => ∀ body ∈ s.bodies, Records l [] body)
    (huses : ∀ n ∈ generatedNodes l s, n ∈ known)
    (hss : RecordsAll l (recordedNames l s ++ consoleResults l s ++ known) ss) :
    RecordsAll l known (s :: ss) :=
  ⟨⟨huses, hss.here⟩, hs, hss.inside⟩

theorem append (h : RecordsAll l known ss)
    (h' : RecordsAll l (ss.flatMap (fun s => recordedNames l s ++ consoleResults l s) ++ known) ts) :
    RecordsAll l known (ss ++ ts) :=
  ⟨h.here.append h'.here, everywhereIn_append.mpr ⟨h.inside, h'.inside⟩⟩

theorem mono {known' : List String} (h : RecordsAll l known ss) (hknown : known ⊆ known') :
    RecordsAll l known' ss :=
  ⟨h.here.mono hknown, h.inside⟩

end RecordsAll

/-! ### Inserted statements -/

theorem builtNames_traceCall (operation : String) (args : List Expr) :
    (traceCall l operation args).builtNames l.options.expBinding =
      Expr.builtNamesList l.options.expBinding args := by
  simp [traceCall, traceExpr, Stmt.ofExpr, Expr.invoke, Expr.dot, Expr.ident, Stmt.builtNames,
    Expr.builtNames, builtName]

/-- A recording step builds only nodes of names that are known. -/
theorem RecordsAll.traceCall {operation : String} {args : List Expr}
    (hargs : ∀ n ∈ Expr.builtNamesList l.options.expBinding args,
      NormalForm.isReserved n = true → n ∈ known)
    (hss : RecordsAll l (recordedNames l (traceCall l operation args) ++ known) ss) :
    RecordsAll l known (traceCall l operation args :: ss) := by
  refine .cons (List.forall_mem_nil _) (fun n hn => ?_) ?_
  · obtain ⟨hmem, hreserved⟩ := List.mem_filter.mp hn
    rw [builtNames_traceCall] at hmem
    exact hargs n hmem hreserved
  · rwa [show consoleResults l (Instrument.traceCall l operation args) = [] from rfl,
      List.append_nil]

theorem recordedNames_traceLet (name : String) (value : Expr) :
    recordedNames l (traceLet l name value) = [name] := by
  simp [traceLet, Instrument.traceCall, traceExpr, Stmt.ofExpr, Expr.invoke, Expr.dot, Expr.ident,
    Expr.text, recordedNames]

theorem recordedNames_functionCall (name : String) (args : List Expr) :
    recordedNames l (traceCall l "traceFunctionCall" (.text name :: args)) = [name] := by
  simp [Instrument.traceCall, traceExpr, Stmt.ofExpr, Expr.invoke, Expr.dot, Expr.ident,
    Expr.text, recordedNames]

theorem RecordsAll.traceLet {name : String} {value : Expr}
    (hvalue : ∀ n ∈ value.builtNames l.options.expBinding,
      NormalForm.isReserved n = true → n ∈ known)
    (hss : RecordsAll l known ss) : RecordsAll l known (traceLet l name value :: ss) := by
  refine .traceCall (fun n hn => hvalue n ?_) (hss.mono (List.subset_append_right _ _))
  simpa [Expr.builtNamesList, Expr.text, Expr.builtNames] using hn

theorem RecordsAll.exitBlock : RecordsAll l known [exitBlock l] :=
  .traceCall (fun _ hn => absurd hn List.not_mem_nil) .nil

/-- A statement of the program builds no nodes. -/
theorem RecordsAll.kept (hs : s.Everywhere fun s => ∀ body ∈ s.bodies, Records l [] body)
    (hnone : s.builtNames l.options.expBinding = []) (hss : RecordsAll l known ss) :
    RecordsAll l known (s :: ss) := by
  refine .cons hs (fun n hn => ?_) (hss.mono (List.subset_append_right _ _))
  rw [generatedNodes, hnone] at hn
  cases hn

theorem recordsAll_prologue (params : List String) (hss : RecordsAll l known ss) :
    RecordsAll l known (prologue l params ++ ss) := by
  have hlets : ∀ entries : List (String × String), RecordsAll l known
      (entries.map (fun entry => Instrument.traceLet l entry.1 (.ident entry.2)) ++ ss) := by
    intro entries
    induction entries with
    | nil => exact hss
    | cons entry entries ih => exact .traceLet (fun _ hn => absurd hn List.not_mem_nil) ih
  exact .kept (List.forall_mem_nil _) rfl (hlets _)

/-! ### Woven statements -/

/-- What `body` becomes records generated names before it builds their nodes. -/
def RecordsBody (l : Lower) (body : List Stmt) : Prop :=
  ∀ {place : Place} {ν ν' : Names} {out : List Stmt} {known known' : List String},
    Weaves (stmts l place body) ν out ν' → Stmt.EverywhereIn (NamesFit (Leaves l)) body →
    Ordered generatedIn declared known body →
    Stmt.EverywhereIn (fun s => ∀ body ∈ s.bodies, Introduces body) body →
    (∀ n ∈ known, NormalForm.isReserved n = true → n ∈ known') → RecordsAll l known' out

variable {ν ν' : Names} {place : Place} {body out : List Stmt}

theorem recordsAll_wovenBlock (hbody : RecordsBody l body)
    (h : WovenBlock l place body ν out ν') (hleaves : Stmt.EverywhereIn (NamesFit (Leaves l)) body)
    (hintroduces : Introduces body)
    (hinside : Stmt.EverywhereIn (fun s => ∀ body ∈ s.bodies, Introduces body) body) :
    RecordsAll l [] out := by
  obtain ⟨-, -, hweaves⟩ := h
  exact hbody hweaves hleaves hintroduces hinside fun _ hn _ => hn

/-- In its body a function records generated names before it builds their nodes. -/
theorem recordsAll_wovenFunction {params : List String} {body' : List Stmt}
    {self : Option (String × String)} {closure : Expr} (hbody : RecordsBody l body)
    (h : WovenFunction l params body ν self body' closure ν')
    (hleaves : Stmt.EverywhereIn (NamesFit (Leaves l)) body) (hintroduces : Introduces body)
    (hinside : Stmt.EverywhereIn (fun s => ∀ body ∈ s.bodies, Introduces body) body) :
    RecordsAll l [] body' := by
  have hframe {out : List Stmt} (hout : RecordsAll l [] out) :
      RecordsAll l [] (prologue l params ++ out ++ [exitBlock l]) := by
    rw [List.append_assoc]
    exact recordsAll_prologue params (hout.append (RecordsAll.exitBlock.mono (List.nil_subset _)))
  cases h with
  | anonymous _ hwoven | named _ _ hwoven =>
      obtain ⟨-, -, hweaves⟩ := hwoven
      exact hframe (hbody hweaves hleaves hintroduces hinside fun _ hn _ => hn)

section

variable (hrequire : l.primitives.isGlobal "require") (hconsole : l.primitives.isGlobal "console")

include hrequire hconsole

/-- The closure record of a function has nodes of names that are free in it, and of the variable
that holds it. -/
theorem builtNames_closure {params : List String} {body' : List Stmt} {self : Option String}
    {holder : String} {closure : Expr}
    (h : WovenFunction l params body ν (self.map (·, holder)) body' closure ν') :
    closure.builtNames l.options.expBinding ⊆
      (self.toList.map fun _ => holder) ++ (Stmt.freeNamesList Option.toList body).filter
        (· ∉ params ++ declaredIn body ++ self.toList) := by
  have hsources (ν inner : Names) : (ν.closeOver inner).2.map (·.1) = inner.captures.map (·.1) := by
    rw [(Names.closeOver_eq ν inner).2, List.map_map]
    rfl
  generalize hself : self.map (·, holder) = self' at h
  cases h with
  | anonymous hfree hwoven =>
      rename_i pos out inner
      obtain rfl : self = none := by simpa using hself
      obtain ⟨hnodup, hcaptured, -⟩ := exact_wovenBody (exact_stmts body hrequire hconsole) hwoven
      intro n hn
      have hmem := Lower.builtNames_closureRecord _ _ hn
      rw [hsources, Option.toList_none, List.map_nil, List.nil_append,
        Names.mem_captures_iff hnodup, hcaptured, List.filter_comm] at hmem
      rw [Option.toList_none, List.append_nil]
      exact List.mem_append_right _ (List.mem_of_mem_filter hmem)
  | named hfree hfreeSelf hwoven =>
      rename_i pos out inner name holder'
      obtain ⟨m, rfl, hentry⟩ : ∃ m, self = some m ∧ (m, holder) = (name, holder') := by
        simpa using hself
      obtain ⟨rfl, rfl⟩ := Prod.mk.inj hentry
      obtain ⟨hnodup, hcaptured, -⟩ := exact_wovenBody (exact_stmts body hrequire hconsole) hwoven
      intro n hn
      rcases List.mem_append.mp (Lower.builtNames_closureRecord _ _ hn) with hholder | hmem
      · split at hholder
        · exact List.mem_singleton.mp hholder ▸ List.mem_cons_self
        · cases hholder
      · rw [hsources, Names.mem_captures_iff (Names.nodup_forget m hnodup),
          Names.captured_forget_iff, hcaptured, List.filter_comm] at hmem
        obtain ⟨hfree, hne⟩ := hmem
        obtain ⟨hused, hnot⟩ := List.mem_filter.mp (List.mem_of_mem_filter hfree)
        refine List.mem_append_right _ (List.mem_filter.mpr ⟨hused, ?_⟩)
        simpa [hne] using hnot

end

/-- A name that a declaration binds is recorded beside it, or it is the result of a call of the
console. -/
def Brings (l : Lower) (s : Stmt) (out : List Stmt) : Prop :=
  ∀ n ∈ declared s, NormalForm.isReserved n = true →
    n ∈ out.flatMap fun s => recordedNames l s ++ consoleResults l s

theorem brings_traceLet {name : String} {value : Expr} (hs : declared s = [name]) :
    Brings l s (traceLet l name value :: ss) := by
  intro n hn _
  rw [hs, List.mem_singleton] at hn
  rw [hn, List.flatMap_cons, recordedNames_traceLet]
  exact List.mem_append_left _ (List.mem_append_left _ (List.mem_singleton_self _))

theorem brings_of_declared_nil (hs : declared s = []) : Brings l s out := by
  intro n hn
  rw [hs] at hn
  cases hn

theorem builtNames_eq_nil {e : Expr}
    (h : ∀ n ∈ e.freeNames Option.toList, Leaves l n) : e.builtNames l.options.expBinding = [] := by
  refine List.eq_nil_iff_forall_not_mem.mpr fun n hn => ?_
  have hfree := h _ (mem_freeNames_of_builtNames Option.toList e hn)
  simp [Leaves, InstrumentOptions.isReserved] at hfree

/-- Around a declaration with a call the name is recorded before the nodes are built that use it. -/
theorem recordsAll_wovenCall {pos cpos : Position} {kind : DeclKind} {name : String} {callee : Expr}
    {args : List Expr}
    (h : WovenCall l name callee args
      (.declare pos kind [(.name name, some (.call cpos callee args))]) ν out ν')
    (hleaves : ∀ n ∈ (Expr.call cpos callee args).freeNames Option.toList, Leaves l n)
    (huses : ∀ n ∈ (Expr.call cpos callee args).freeNames Option.toList,
      NormalForm.isReserved n = true → n ∈ known) :
    RecordsAll l known out ∧
      Brings l (.declare pos kind [(.name name, some (.call cpos callee args))]) out := by
  have hkept {ss : List Stmt} (hss : RecordsAll l known ss) : RecordsAll l known
      (.declare pos kind [(.name name, some (.call cpos callee args))] :: ss) := by
    refine .kept (List.forall_mem_nil _) ?_ hss
    have hnone := builtNames_eq_nil hleaves
    simpa [Stmt.builtNames] using hnone
  have hcallee : ∀ n ∈ callee.freeNames Option.toList, NormalForm.isReserved n = true → n ∈ known :=
    fun n hn => huses n (List.mem_append_left _ hn)
  have hargs : ∀ n ∈ Expr.freeNamesList Option.toList args,
      NormalForm.isReserved n = true → n ∈ known :=
    fun n hn => huses n (List.mem_append_right _ hn)
  have htracedArgs {traced : List Expr} {ν ν' : Names}
      (htraced : (l.exprs args).run ν = .ok (traced, ν')) :
      ∀ n ∈ Expr.builtNamesList l.options.expBinding traced,
        NormalForm.isReserved n = true → n ∈ known :=
    fun n hn => hargs n (Lower.builtNames_exprs Option.toList args htraced hn)
  cases h with
  | require hkind =>
      refine ⟨.traceLet (fun n hn => ?_) (hkept .nil), brings_traceLet rfl⟩
      rw [Lower.builtNames_builder (by decide)] at hn
      simp [Expr.builtNamesList, Expr.text, Expr.list, Expr.builtNames,
        Lower.builtNames_builder] at hn
  | console hkind htraced =>
      rename_i method traced
      have hevent : ∀ n ∈ Expr.builtNamesList l.options.expBinding
          [.text (Primitives.consoleEvent method), .list traced],
          NormalForm.isReserved n = true → n ∈ known := by
        simpa [Expr.builtNamesList, Expr.text, Expr.list, Expr.builtNames] using
          htracedArgs htraced
      have hbrings : Brings l (.declare pos kind [(.name name, some (.call cpos callee args))])
          [.declare pos kind [(.name name, some (.call cpos callee args))]] := by
        intro n hn _
        simpa [recordedNames, consoleResults, hkind, declared, Pattern.names] using hn
      refine ⟨.traceCall hevent (RecordsAll.mono ?_ (List.subset_append_right _ _)), ?_⟩
      · split
        · exact hkept .nil
        · exact .traceLet (fun _ hn => absurd hn List.not_mem_nil) (hkept .nil)
      · intro n hn hreserved
        have hmem := hbrings n hn hreserved
        rw [List.flatMap_append]
        exact List.mem_append_right _ hmem
  | method hkind hobject htraced =>
      rename_i object object' method traced ν₁
      obtain ⟨mpos, rfl⟩ := classify_method hkind
      have hobject' := Lower.builtNames_expr Option.toList object hobject
      refine ⟨.traceLet (fun n hn => ?_) (hkept .nil), brings_traceLet rfl⟩
      rw [Lower.builtNames_builder (by decide)] at hn
      simp only [Expr.builtNamesList, Expr.text, Expr.list, Expr.builtNames, List.nil_append,
        List.append_nil, List.mem_append] at hn
      exact hn.elim (fun hn => hcallee n (hobject' hn)) (htracedArgs htraced n)
  | function hkind hname htraced =>
      rename_i callee' traced ν₁
      have hcallee' := Lower.builtNames_callee Option.toList hname
      refine ⟨.traceCall (fun n hn => ?_) ?_, fun n hn _ => ?_⟩
      · simp only [Expr.builtNamesList, Expr.text, Expr.list, Expr.builtNames, List.nil_append,
          List.append_nil, List.mem_append] at hn
        exact hn.elim (fun hn => hcallee n (hcallee' hn)) (htracedArgs htraced n)
      · exact (hkept RecordsAll.exitBlock).mono (List.subset_append_right _ _)
      · rw [List.mem_singleton.mp hn, List.flatMap_cons, recordedNames_functionCall]
        exact List.mem_append_left _ (List.mem_append_left _ (List.mem_singleton_self _))

theorem recordsAll_wovenExpr {pos : Position} {e : Expr}
    (h : WovenExpr l (.expr pos e) ν e out ν')
    (hleaves : ∀ n ∈ e.freeNames Option.toList, Leaves l n)
    (huses : ∀ n ∈ e.freeNames Option.toList, NormalForm.isReserved n = true → n ∈ known) :
    RecordsAll l known out := by
  have hkept : RecordsAll l known [.expr pos e] :=
    .kept (List.forall_mem_nil _) (builtNames_eq_nil hleaves) .nil
  cases h with
  | assign hvalue htarget =>
      rename_i epos target target' value value' ν₁
      have hvalue' := Lower.builtNames_expr Option.toList value hvalue
      have htarget' := Lower.builtNames_target Option.toList htarget
      refine .traceCall (fun n hn => huses n ?_) (hkept.mono (List.subset_append_right _ _))
      simp only [Expr.builtNamesList, List.append_nil, List.mem_append] at hn
      exact List.mem_append.mpr (hn.imp (fun hn => htarget' hn) fun hn => hvalue' hn)
  | update hname =>
      rename_i epos npos op isPrefix m current
      have hcurrent := Lower.builtNames_reference hname
      refine .traceCall (fun n hn => huses n (hcurrent ?_))
        (hkept.mono (List.subset_append_right _ _))
      simpa [Expr.builtNamesList, Lower.builtNames_builder, Expr.text, Expr.num,
        Expr.builtNames] using hn
  | pure hexpr => exact hkept

/-- Beside a conditional stands a variable with the node of its test. -/
theorem RecordsAll.conditional {pos : Position} {name : String} {test traced : Expr}
    {yes no : List Stmt} (htraced : (l.expr test).run ν = .ok (traced, ν'))
    (hleaves : ∀ n ∈ test.freeNames Option.toList, Leaves l n)
    (hknown : ∀ n ∈ test.freeNames Option.toList, NormalForm.isReserved n = true → n ∈ known)
    (hyes : RecordsAll l [] yes) (hno : RecordsAll l [] no) :
    RecordsAll l known [.letNamed name traced,
      .ifElse pos test (Instrument.traceCall l "traceIfTrue" [.ident name] :: yes)
        (some (Instrument.traceCall l "traceIfFalse" [.ident name] :: no)),
      Instrument.exitBlock l] := by
  have hbranch {ss : List Stmt} (operation : String) (hss : RecordsAll l [] ss) :
      RecordsAll l [] (Instrument.traceCall l operation [.ident name] :: ss) :=
    .traceCall (fun _ hn => absurd hn List.not_mem_nil) (hss.mono (List.subset_append_right _ _))
  have hyes := hbranch "traceIfTrue" hyes
  have hno := hbranch "traceIfFalse" hno
  refine .cons ?_ (fun n hn => ?_) (RecordsAll.mono ?_ (List.subset_append_right _ _))
  · obtain rfl | ⟨constructor, args, -, rfl⟩ := Lower.eq_builder_of_expr htraced
    · exact List.forall_mem_nil _
    · exact List.forall_mem_nil _
  · obtain ⟨hmem, hreserved⟩ := List.mem_filter.mp hn
    refine hknown n (Lower.builtNames_expr Option.toList test htraced ?_) hreserved
    simpa [Stmt.letNamed, Stmt.builtNames] using hmem
  · exact .kept ⟨List.forall_mem_cons.mpr ⟨hyes.here, List.forall_mem_singleton.mpr hno.here⟩,
      hyes.inside, hno.inside⟩ (builtNames_eq_nil hleaves) .exitBlock

mutual

/-- A statement that uses generated names that are known becomes statements that build nodes of
known ones, and what it declares is recorded. -/
theorem recordsAll_woven (s : Stmt) {place : Place} {ν ν' : Names} {out : List Stmt}
    {known : List String} (hrequire : l.primitives.isGlobal "require")
    (hconsole : l.primitives.isGlobal "console") (h : Woven l place ν s out ν')
    (hleaves : s.Everywhere (NamesFit (Leaves l)))
    (hintroduces : s.Everywhere fun s => ∀ body ∈ s.bodies, Introduces body)
    (huses : ∀ n ∈ generatedIn s, n ∈ known) : RecordsAll l known out ∧ Brings l s out := by
  have hfree : ∀ n ∈ s.freeNames Option.toList, Leaves l n := fun n hn =>
    hleaves.here n (List.mem_append_right _ hn)
  have hknown : ∀ n ∈ s.freeNames Option.toList, NormalForm.isReserved n = true → n ∈ known :=
    fun n hn hreserved => huses n (mem_generatedIn.mpr ⟨.inr hn, hreserved⟩)
  cases h with
  | letFunction hwoven =>
      rename_i pos fpos kind name self params body body' closure ν₁
      have hclosure := builtNames_closure hrequire hconsole hwoven
      have hbody := recordsAll_wovenFunction (recordsBody body hrequire hconsole) hwoven hleaves.2
        (hintroduces.1 _ List.mem_cons_self) hintroduces.2
      refine ⟨.traceLet (fun n hn hreserved => huses n (mem_generatedIn.mpr ⟨?_, hreserved⟩)) ?_,
        brings_traceLet rfl⟩
      · rcases List.mem_append.mp (hclosure hn) with hholder | hn
        · obtain ⟨-, -, rfl⟩ := List.mem_map.mp hholder
          exact .inl List.mem_cons_self
        · refine .inr ?_
          simpa [Stmt.freeNames, Stmt.freeNamesDeclarators, Expr.freeNames] using hn
      · exact .kept ⟨List.forall_mem_singleton.mpr hbody.here, hbody.inside⟩ rfl .nil
  | function hwoven =>
      rename_i pos name params body body' closure
      change WovenFunction l params body ν (Option.map (·, name) none) body' closure ν' at hwoven
      have hclosure := builtNames_closure hrequire hconsole hwoven
      have hbody := recordsAll_wovenFunction (recordsBody body hrequire hconsole) hwoven hleaves.2
        (hintroduces.1 _ List.mem_cons_self) hintroduces.2
      refine ⟨.traceLet (fun n hn hreserved => hknown n ?_ hreserved) ?_, brings_traceLet rfl⟩
      · simpa [Stmt.freeNames] using hclosure hn
      · exact .kept ⟨List.forall_mem_singleton.mpr hbody.here, hbody.inside⟩ rfl .nil
  | letCall hwoven =>
      refine recordsAll_wovenCall hwoven (fun n hn => hfree n ?_) fun n hn => hknown n ?_
      · simpa [Stmt.freeNames, Stmt.freeNamesDeclarators] using hn
      · simpa [Stmt.freeNames, Stmt.freeNamesDeclarators] using hn
  | letValue hvalue =>
      rename_i pos kind name value traced ν₁
      have huse : Stmt.freeNames Option.toList (.declare pos kind [(.name name, some value)]) =
          value.freeNames Option.toList := by simp [Stmt.freeNames, Stmt.freeNamesDeclarators]
      rw [huse] at hfree hknown
      have hkept : Stmt.builtNames l.options.expBinding
          (.declare pos kind [(.name name, some value)]) = [] := by
        simpa [Stmt.builtNames] using builtNames_eq_nil hfree
      refine ⟨.traceLet (fun n hn => hknown n (Lower.builtNames_expr Option.toList value hvalue hn))
        (.kept ?_ hkept .nil), brings_traceLet rfl⟩
      cases value with
      | function => exact absurd hvalue run_throw_ne_ok
      | _ => exact List.forall_mem_nil _
  | letNone =>
      exact ⟨.traceLet (fun _ hn => absurd hn List.not_mem_nil)
        (.kept (List.forall_mem_nil _) rfl .nil), brings_traceLet rfl⟩
  | ifThen htest hname hyes hjoin =>
      rename_i pos test traced consequent yes name ν₁ ν₂
      have hyes := recordsAll_wovenBlock (recordsBody consequent hrequire hconsole) hyes hleaves.2
        (hintroduces.1 _ List.mem_cons_self) hintroduces.2
      exact ⟨.conditional htest (fun n hn => hfree n (List.mem_append_left _ hn))
        (fun n hn => hknown n (List.mem_append_left _ hn)) hyes .nil, brings_of_declared_nil rfl⟩
  | ifElse htest hname hyes hno hjoin =>
      rename_i pos test traced consequent alternate yes no name ν₁ ν₂ ν₃
      have hyes := recordsAll_wovenBlock (recordsBody consequent hrequire hconsole) hyes hleaves.2.1
        (hintroduces.1 _ List.mem_cons_self) hintroduces.2.1
      have hno := recordsAll_wovenBlock (recordsBody alternate hrequire hconsole) hno hleaves.2.2
        (hintroduces.1 _ (List.mem_cons_of_mem _ List.mem_cons_self)) hintroduces.2.2
      exact ⟨.conditional htest (fun n hn => hfree n (List.mem_append_left _ hn))
        (fun n hn => hknown n (List.mem_append_left _ hn)) hyes hno, brings_of_declared_nil rfl⟩
  | whileDo htest hbody =>
      rename_i pos test traced body body' ν₁
      have hbody := recordsAll_wovenBlock (recordsBody body hrequire hconsole) hbody hleaves.2
        (hintroduces.1 _ List.mem_cons_self) hintroduces.2
      have hbody' : RecordsAll l [] (Instrument.traceCall l "traceLoop" [] :: body') :=
        .traceCall (fun _ hn => absurd hn List.not_mem_nil)
          (hbody.mono (List.subset_append_right _ _))
      refine ⟨.traceCall (fun n hn => hknown n (List.mem_append_left _ ?_))
        (.kept ⟨List.forall_mem_singleton.mpr hbody'.here, hbody'.inside⟩
          (builtNames_eq_nil fun n hn => hfree n (List.mem_append_left _ hn))
          (RecordsAll.exitBlock.mono (List.subset_append_right _ _))), brings_of_declared_nil rfl⟩
      refine Lower.builtNames_expr Option.toList test htest ?_
      simpa [Expr.builtNamesList] using hn
  | labeled hbody =>
      rename_i pos label body body'
      have hbody := recordsAll_wovenBlock (recordsBody body hrequire hconsole) hbody hleaves.2
        (hintroduces.1 _ List.mem_cons_self) hintroduces.2
      have hbody' : RecordsAll l [] (body' ++ [Instrument.exitBlock l]) :=
        hbody.append (RecordsAll.exitBlock.mono (List.nil_subset _))
      refine ⟨.traceCall (fun _ hn => absurd hn List.not_mem_nil)
        (.kept ⟨List.forall_mem_singleton.mpr hbody'.here, hbody'.inside⟩ rfl .nil),
        brings_of_declared_nil rfl⟩
  | block hbody =>
      rename_i pos body body'
      have hbody := recordsAll_wovenBlock (recordsBody body hrequire hconsole) hbody hleaves.2
        (hintroduces.1 _ List.mem_cons_self) hintroduces.2
      exact ⟨.kept ⟨List.forall_mem_singleton.mpr hbody.here, hbody.inside⟩ rfl .nil,
        brings_of_declared_nil rfl⟩
  | breakTo | returnNone =>
      exact ⟨.traceCall (fun _ hn => absurd hn List.not_mem_nil)
        (.kept (List.forall_mem_nil _) rfl .nil), brings_of_declared_nil rfl⟩
  | returnSome hplace hvalue =>
      rename_i pos value traced
      refine ⟨.traceCall (fun n hn => hknown n ?_) (.kept (List.forall_mem_nil _) ?_ .nil),
        brings_of_declared_nil rfl⟩
      · refine Lower.builtNames_expr Option.toList value hvalue ?_
        simpa [Expr.builtNamesList, Expr.text, Expr.builtNames] using hn
      · simpa [Stmt.builtNames] using builtNames_eq_nil hfree
  | expr hwoven =>
      exact ⟨recordsAll_wovenExpr hwoven hfree hknown, brings_of_declared_nil rfl⟩
termination_by sizeOf s

theorem recordsBody (ss : List Stmt) (hrequire : l.primitives.isGlobal "require")
    (hconsole : l.primitives.isGlobal "console") : RecordsBody l ss := by
  intro place ν ν' out known known' h hleaves hordered hinside hknown
  cases ss with
  | nil =>
      obtain ⟨rfl, -⟩ := weaves_nil h
      exact .nil
  | cons s ss =>
      obtain ⟨front, rest, ν₁, hs, hss, rfl⟩ := weaves_cons h
      have huses : ∀ n ∈ generatedIn s, n ∈ known' := fun n hn =>
        hknown n (hordered.1 n hn) (mem_generatedIn.mp hn).2
      obtain ⟨hfront, hbrings⟩ := recordsAll_woven s hrequire hconsole hs hleaves.1 hinside.1 huses
      refine hfront.append (recordsBody ss hrequire hconsole hss hleaves.2 hordered.2 hinside.2 ?_)
      intro n hn hreserved
      refine List.mem_append.mpr ((List.mem_append.mp hn).imp (fun hn => ?_) fun hn => ?_)
      · exact hbrings n hn hreserved
      · exact hknown n hn hreserved
termination_by sizeOf ss

end

/-- Where the instrumented program builds the node of a generated name, the name has been recorded
before in the same list of statements, or a call of the console has given it its value there. -/
theorem recordsAll_of_instrument {source p q : Program} (hnormal : normalize source = .ok p)
    (haccepted : instrument .default .default p = .ok q) :
    RecordsAll ⟨.default, .default⟩ [] q := by
  have hmay : ∀ n, InstrumentOptions.default.isReserved n = true →
      Primitives.default.mayCapture n = true := by
    intro n hn
    rcases Bool.or_eq_true_iff.mp hn with hn | hn <;> rw [eq_of_beq hn] <;> rfl
  have hleaves : Stmt.EverywhereIn (NamesFit (Leaves ⟨.default, .default⟩)) p :=
    leaves_of_instrument rfl rfl hmay haccepted
  obtain ⟨out, ν', ⟨-, -, hweaves⟩, -, rfl⟩ := instrument_eq_ok haccepted
  have hintroduces := introducesAll_of_normalize hnormal
  have hout : RecordsAll ⟨.default, .default⟩ [] out :=
    recordsBody p rfl rfl hweaves hleaves hintroduces.here hintroduces.inside fun _ hn _ => hn
  have hbody : RecordsAll ⟨.default, .default⟩ [] (out ++ [exitBlock ⟨.default, .default⟩]) :=
    hout.append (RecordsAll.exitBlock.mono (List.nil_subset _))
  have hstart : RecordsAll ⟨.default, .default⟩ []
      (traceCall ⟨.default, .default⟩ "newTrace" [] ::
        (out ++ [exitBlock ⟨.default, .default⟩])) :=
    .traceCall (fun _ hn => absurd hn List.not_mem_nil) (hbody.mono (List.nil_subset _))
  exact .kept (List.forall_mem_nil _) rfl (.kept (List.forall_mem_nil _) rfl hstart)

end Instrument

end TraceLoom
